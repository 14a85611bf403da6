import IrodsMicroservices.Jansson

/-!
# A JSON text

A `Jansson` that can be run: a writer with jansson's layout and a reader for
what it writes. It satisfies the laws the services rely on (`codec_lawful`), so
these are consistent, and it is the library the concrete runs of this
development are evaluated with.

The layout is jansson's: with an indentation every element stands on a line of
its own, without one the elements are separated by a comma and a blank. A
control character is written as a `\u` escape. A real number is written as a
fraction, since the reals of `Json` are rational numbers and not doubles. The
reader does not look for invalid UTF-8, and `loads_text` holds for the values
jansson cannot have, too.
-/

namespace JsonText

/-! ## Writing -/

/-- A decimal digit. -/
def digit (d : ℕ) : Char := Char.ofNat (48 + d)

/-- The decimal digits of a number below `10 ^ fuel`. -/
def natDigits : ℕ → ℕ → Text
  | 0, _ => []
  | fuel + 1, n => if n < 10 then [digit n] else natDigits fuel (n / 10) ++ [digit (n % 10)]

/-- A natural number. -/
def natText (n : ℕ) : Text := natDigits (n + 1) n

/-- An integer. -/
def intText (i : ℤ) : Text := if i < 0 then '-' :: natText i.natAbs else natText i.natAbs

/-- A hexadecimal digit. -/
def hexDigit (d : ℕ) : Char := if d < 10 then Char.ofNat (48 + d) else Char.ofNat (87 + d)

/-- A character of a string. -/
def escape (c : Char) : Text :=
  if c = '"' ∨ c = '\\' then ['\\', c]
  else if c.toNat < 32 then
    ['\\', 'u', '0', '0', hexDigit (c.toNat / 16), hexDigit (c.toNat % 16)]
  else [c]

/-- What follows the opening quote of a string. -/
def stringBody (s : Text) : Text := s.flatMap escape ++ ['"']

/-- The line break before an element. -/
def newline (indent d : ℕ) : Text :=
  if indent = 0 then [] else '\n' :: List.replicate (indent * d) ' '

/-- What follows a comma. -/
def gap (indent d : ℕ) : Text := if indent = 0 then [' '] else newline indent d

mutual

/-- The text of a value, `d` levels deep. -/
def render (indent d : ℕ) : Json → Text
  | .null => "null".toList
  | .bool true => "true".toList
  | .bool false => "false".toList
  | .integer i => intText i
  | .real r => intText r.num ++ '/' :: natText r.den
  | .string s => '"' :: stringBody s
  | .array es => '[' :: renderElems indent (d + 1) es
  | .object ms => '{' :: renderMembers indent (d + 1) ms

/-- The text of an array after its bracket. -/
def renderElems (indent d : ℕ) : List Json → Text
  | [] => [']']
  | e :: es => newline indent d ++ render indent d e ++ renderMoreElems indent d es

/-- The text of an array after an element. -/
def renderMoreElems (indent d : ℕ) : List Json → Text
  | [] => newline indent (d - 1) ++ [']']
  | e :: es => ',' :: gap indent d ++ render indent d e ++ renderMoreElems indent d es

/-- The text of an object after its brace. -/
def renderMembers (indent d : ℕ) : List (Text × Json) → Text
  | [] => ['\x7d']
  | m :: ms => newline indent d ++ renderMember indent d m ++ renderMoreMembers indent d ms

/-- The text of an object after a member. -/
def renderMoreMembers (indent d : ℕ) : List (Text × Json) → Text
  | [] => newline indent (d - 1) ++ ['\x7d']
  | m :: ms => ',' :: gap indent d ++ renderMember indent d m ++ renderMoreMembers indent d ms

/-- The text of a member. -/
def renderMember (indent d : ℕ) : Text × Json → Text
  | (k, v) => '"' :: stringBody k ++ ':' :: ' ' :: render indent d v

end

/-! ## Reading -/

/-- White space. -/
def isSpace (c : Char) : Bool := c == ' ' || c == '\n' || c == '\t' || c == '\r'

/-- White space is skipped. -/
def skip (s : Text) : Text := s.dropWhile isSpace

/-- A natural number. -/
def readNat (s : Text) : Option (ℕ × Text) :=
  if s.takeWhile Char.isDigit = [] then none
  else some ((s.takeWhile Char.isDigit).foldl (fun n c => 10 * n + (c.toNat - 48)) 0,
    s.dropWhile Char.isDigit)

/-- An integer. -/
def readInt : Text → Option (ℤ × Text)
  | [] => none
  | c :: s =>
    if c = '-' then (readNat s).map (fun p => (-(p.1 : ℤ), p.2))
    else (readNat (c :: s)).map (fun p => ((p.1 : ℤ), p.2))

/-- A number. -/
def readNumber (s : Text) : Option (Json × Text) :=
  (readInt s).bind fun p =>
    match p.2 with
    | '/' :: t => (readNat t).map (fun q => (.real (mkRat p.1 q.1), q.2))
    | t => some (.integer p.1, t)

/-- The value of a hexadecimal digit. -/
def hexValue (c : Char) : ℕ := if c.isDigit then c.toNat - 48 else c.toNat - 87

/-- What follows a backslash. -/
def unescape : Text → Option (Char × Text)
  | 'u' :: '0' :: '0' :: a :: b :: s => some (Char.ofNat (16 * hexValue a + hexValue b), s)
  | 'n' :: s => some ('\n', s)
  | 't' :: s => some ('\t', s)
  | 'r' :: s => some ('\r', s)
  | 'b' :: s => some (Char.ofNat 8, s)
  | 'f' :: s => some (Char.ofNat 12, s)
  | '/' :: s => some ('/', s)
  | '"' :: s => some ('"', s)
  | '\\' :: s => some ('\\', s)
  | _ => none

/-- What follows the opening quote of a string. -/
def readString : ℕ → Text → Option (Text × Text)
  | 0, _ => none
  | _ + 1, [] => none
  | fuel + 1, c :: s =>
    if c = '"' then some ([], s)
    else if c = '\\' then
      (unescape s).bind (fun p => (readString fuel p.2).map (fun q => (p.1 :: q.1, q.2)))
    else (readString fuel s).map (fun q => (c :: q.1, q.2))

mutual

/-- A value. -/
def readValue : ℕ → Text → Option (Json × Text)
  | 0, _ => none
  | fuel + 1, s =>
    match skip s with
    | [] => none
    | c :: t =>
      if c = '"' then (readString (t.length + 1) t).map (fun p => (.string p.1, p.2))
      else if c = '[' then (readElems fuel t).map (fun p => (.array p.1, p.2))
      else if c = '\x7b' then
        (readMembers fuel t).map (fun p =>
          (p.1.foldl (fun o m => o.objectSetNew m.1 (some m.2)) (.object []), p.2))
      else if (c :: t).take 4 = "null".toList then some (.null, t.drop 3)
      else if (c :: t).take 4 = "true".toList then some (.bool true, t.drop 3)
      else if (c :: t).take 5 = "false".toList then some (.bool false, t.drop 4)
      else readNumber (c :: t)

/-- An array after its bracket. -/
def readElems : ℕ → Text → Option (List Json × Text)
  | 0, _ => none
  | fuel + 1, s =>
    match skip s with
    | ']' :: t => some ([], t)
    | t => (readValue fuel t).bind (fun p =>
        (readMoreElems fuel p.2).map (fun q => (p.1 :: q.1, q.2)))

/-- An array after an element. -/
def readMoreElems : ℕ → Text → Option (List Json × Text)
  | 0, _ => none
  | fuel + 1, s =>
    match skip s with
    | ']' :: t => some ([], t)
    | ',' :: t => (readValue fuel t).bind (fun p =>
        (readMoreElems fuel p.2).map (fun q => (p.1 :: q.1, q.2)))
    | _ => none

/-- An object after its brace. -/
def readMembers : ℕ → Text → Option (List (Text × Json) × Text)
  | 0, _ => none
  | fuel + 1, s =>
    match skip s with
    | '\x7d' :: t => some ([], t)
    | t => (readMember fuel t).bind (fun p =>
        (readMoreMembers fuel p.2).map (fun q => (p.1 :: q.1, q.2)))

/-- An object after a member. -/
def readMoreMembers : ℕ → Text → Option (List (Text × Json) × Text)
  | 0, _ => none
  | fuel + 1, s =>
    match skip s with
    | '\x7d' :: t => some ([], t)
    | ',' :: t => (readMember fuel t).bind (fun p =>
        (readMoreMembers fuel p.2).map (fun q => (p.1 :: q.1, q.2)))
    | _ => none

/-- A member. -/
def readMember : ℕ → Text → Option ((Text × Json) × Text)
  | 0, _ => none
  | fuel + 1, s =>
    match skip s with
    | '"' :: t => (readString (t.length + 1) t).bind (fun p =>
        match skip p.2 with
        | ':' :: t => (readValue fuel t).map (fun q => ((p.1, q.1), q.2))
        | _ => none)
    | _ => none

end

/-- A document: an array or an object, and nothing but white space after it. -/
def loads (s : Text) : Option Json :=
  match readValue (s.length + 1) s with
  | some (v, t) => if v.isContainer ∧ skip t = [] then some v else none
  | none => none

/-- Whether the bytes are valid UTF-8 where `n` continuation bytes are due, the
first of them between `lo` and `hi`: no stray or missing ones, no overlong
forms, no surrogates. -/
def utf8From : ℕ → ℕ → ℕ → Text → Bool
  | n, _, _, [] => n == 0
  | 0, lo, hi, c :: s =>
    if c.toNat < 0x80 then utf8From 0 lo hi s
    else if c.toNat < 0xC2 then false
    else if c.toNat < 0xE0 then utf8From 1 0x80 0xBF s
    else if c.toNat < 0xF0 then
      utf8From 2 (if c.toNat = 0xE0 then 0xA0 else 0x80) (if c.toNat = 0xED then 0x9F else 0xBF) s
    else if c.toNat < 0xF5 then
      utf8From 3 (if c.toNat = 0xF0 then 0x90 else 0x80) (if c.toNat = 0xF4 then 0x8F else 0xBF) s
    else false
  | n + 1, lo, hi, c :: s => lo ≤ c.toNat && c.toNat ≤ hi && utf8From n 0x80 0xBF s

/-- Whether the bytes are valid UTF-8. -/
def utf8 (s : Text) : Bool := utf8From 0 0 0 s

/-- **The library made of the two.** -/
def codec : Jansson := ⟨utf8, loads, fun indent v => render indent 0 v⟩

/-! ## Numbers -/

theorem digit_spec : ∀ d < 10, (digit d).isDigit = true ∧ (digit d).toNat - 48 = d
    ∧ digit d ≠ '\x00' := by decide

/-- The digits of a number are digits, there is one at least, and they are read
back as the number. -/
theorem natDigits_spec : ∀ {fuel n : ℕ}, n < fuel →
    (∀ c ∈ natDigits fuel n, c.isDigit = true ∧ c ≠ '\x00') ∧ natDigits fuel n ≠ []
      ∧ (natDigits fuel n).foldl (fun n c => 10 * n + (c.toNat - 48)) 0 = n := by
  intro fuel
  induction fuel with
  | zero => exact fun h => absurd h (Nat.not_lt_zero _)
  | succ fuel ih =>
    intro n hn
    unfold natDigits
    by_cases h : n < 10
    · obtain ⟨h1, h2, h3⟩ := digit_spec n h
      simp [h, h1, h2, h3]
    · obtain ⟨h1, h2, h3⟩ := digit_spec (n % 10) (Nat.mod_lt _ (by decide))
      obtain ⟨hall, -, hval⟩ := @ih (n / 10) (by omega)
      rw [if_neg h]
      refine ⟨?_, by simp, ?_⟩
      · intro c hc
        rcases List.mem_append.mp hc with hc | hc
        · exact hall c hc
        · rw [List.mem_singleton.mp hc]
          exact ⟨h1, h3⟩
      · rw [List.foldl_append, hval, List.foldl_cons, List.foldl_nil, h2]
        exact Nat.div_add_mod n 10

theorem natText_spec (n : ℕ) :
    (∀ c ∈ natText n, c.isDigit = true ∧ c ≠ '\x00') ∧ natText n ≠ []
      ∧ (natText n).foldl (fun n c => 10 * n + (c.toNat - 48)) 0 = n :=
  natDigits_spec (Nat.lt_succ_self n)

theorem length_natDigits_le {k : ℕ} : ∀ {fuel n : ℕ}, n < 10 ^ (k + 1) →
    (natDigits fuel n).length ≤ k + 1 := by
  induction k with
  | zero =>
    intro fuel n hn
    cases fuel with
    | zero => exact Nat.zero_le _
    | succ fuel =>
      unfold natDigits
      rw [if_pos (by simpa using hn)]
      exact Nat.le_refl _
  | succ k ih =>
    intro fuel n hn
    cases fuel with
    | zero => exact Nat.zero_le _
    | succ fuel =>
      unfold natDigits
      split
      · exact Nat.succ_le_succ (Nat.zero_le _)
      · rw [List.length_append, List.length_singleton]
        exact Nat.succ_le_succ (ih (Nat.div_lt_of_lt_mul (by rwa [pow_succ'] at hn)))

/-- A number below a power of ten has no more digits than that. -/
theorem length_natText_le {k n : ℕ} (h : n < 10 ^ (k + 1)) : (natText n).length ≤ k + 1 :=
  length_natDigits_le h

/-- The text does not go on with a digit or the bar of a fraction. -/
def Delimited (rest : Text) : Prop := ∀ c t, rest = c :: t → c.isDigit = false ∧ c ≠ '/'

/-- A number is read up to the first character that is no digit. -/
theorem readNat_natText (n : ℕ) {rest : Text}
    (h : ∀ c t, rest = c :: t → c.isDigit = false) :
    readNat (natText n ++ rest) = some (n, rest) := by
  obtain ⟨hall, hne, hval⟩ := natText_spec n
  have htake : (natText n ++ rest).takeWhile Char.isDigit = natText n := by
    rw [List.takeWhile_append_of_pos (fun c hc => (hall c hc).1)]
    cases rest with
    | nil => simp
    | cons c t => simp [h c t rfl]
  have hdrop : (natText n ++ rest).dropWhile Char.isDigit = rest := by
    rw [List.dropWhile_append_of_pos (fun c hc => (hall c hc).1)]
    cases rest with
    | nil => rfl
    | cons c t => simp [h c t rfl]
  unfold readNat
  rw [htake, hdrop, if_neg hne, hval]

/-- An integer starts with a sign or a digit. -/
theorem intText_head (i : ℤ) : ∃ c t, intText i = c :: t ∧ (c = '-' ∨ c.isDigit = true) := by
  obtain ⟨hall, hne, -⟩ := natText_spec i.natAbs
  unfold intText
  split
  · exact ⟨'-', _, rfl, .inl rfl⟩
  · obtain ⟨c, t, hct⟩ := List.exists_cons_of_ne_nil hne
    exact ⟨c, t, hct, .inr (hall c (hct ▸ List.mem_cons_self)).1⟩

theorem readInt_intText (i : ℤ) {rest : Text}
    (h : ∀ c t, rest = c :: t → c.isDigit = false) :
    readInt (intText i ++ rest) = some (i, rest) := by
  unfold intText
  by_cases hi : i < 0
  · rw [if_pos hi, List.cons_append, readInt, if_pos rfl, readNat_natText _ h]
    simp only [Option.map_some]
    rw [Int.ofNat_natAbs_of_nonpos (le_of_lt hi), neg_neg]
  · rw [if_neg hi]
    obtain ⟨hall, hne, -⟩ := natText_spec i.natAbs
    obtain ⟨c, t, hct⟩ := List.exists_cons_of_ne_nil hne
    have hc : c ≠ '-' := by
      rintro rfl
      exact absurd (hall '-' (hct ▸ List.mem_cons_self)).1 (by decide)
    have hread := readNat_natText i.natAbs h
    rw [hct, List.cons_append] at hread ⊢
    rw [readInt, if_neg hc, hread, Option.map_some,
      Int.natAbs_of_nonneg (not_lt.mp hi)]

theorem readNumber_integer (i : ℤ) {rest : Text} (h : Delimited rest) :
    readNumber (intText i ++ rest) = some (.integer i, rest) := by
  unfold readNumber
  rw [readInt_intText i (fun c t hc => (h c t hc).1), Option.bind_some]
  split
  · rename_i t ht
    exact absurd rfl (h '/' t ht).2
  · rfl

theorem readNumber_real (r : ℚ) {rest : Text} (h : Delimited rest) :
    readNumber (intText r.num ++ '/' :: natText r.den ++ rest) = some (.real r, rest) := by
  unfold readNumber
  have hbar : ∀ c t, '/' :: natText r.den ++ rest = c :: t → c.isDigit = false := by
    rintro c t ⟨⟩
    decide
  rw [List.append_assoc, readInt_intText r.num hbar, Option.bind_some]
  show (readNat (natText r.den ++ rest)).map _ = _
  rw [readNat_natText r.den (fun c t hc => (h c t hc).1), Option.map_some, Rat.mkRat_self]

/-! ## Strings -/

theorem hexValue_hexDigit : ∀ d < 16, hexValue (hexDigit d) = d := by decide

theorem readString_backslash (fuel : ℕ) (s : Text) :
    readString (fuel + 1) ('\\' :: s) = (unescape s).bind (fun p =>
      (readString fuel p.2).map (fun q => (p.1 :: q.1, q.2))) := rfl

/-- A character of a string is read back. -/
theorem readString_escape (fuel : ℕ) (c : Char) (rest : Text) :
    readString (fuel + 1) (escape c ++ rest)
      = (readString fuel rest).map (fun q => (c :: q.1, q.2)) := by
  unfold escape
  split
  · rename_i hc
    have hesc : unescape (c :: rest) = some (c, rest) := by
      rcases hc with rfl | rfl <;> rfl
    rw [List.cons_append, readString_backslash, List.cons_append, List.nil_append, hesc,
      Option.bind_some]
  · rename_i hc
    split
    · rename_i hlt
      have h1 := hexValue_hexDigit (c.toNat / 16) (by omega)
      have h2 := hexValue_hexDigit (c.toNat % 16) (Nat.mod_lt _ (by decide))
      have hesc : unescape ('u' :: '0' :: '0' :: hexDigit (c.toNat / 16)
          :: hexDigit (c.toNat % 16) :: rest) = some (c, rest) := by
        show some (Char.ofNat (16 * hexValue _ + hexValue _), rest) = _
        rw [h1, h2, Nat.div_add_mod, Char.ofNat_toNat]
      rw [List.cons_append, readString_backslash]
      exact congrArg (fun o => Option.bind o _) hesc
    · obtain ⟨hq, hb⟩ := not_or.mp hc
      rw [List.singleton_append, readString, if_neg hq, if_neg hb]

theorem escape_length_pos (c : Char) : 0 < (escape c).length := by
  unfold escape
  split
  · exact Nat.succ_pos _
  · split <;> exact Nat.succ_pos _

/-- A string is read up to its closing quote. -/
theorem readString_stringBody (s : Text) {rest : Text} : ∀ {fuel : ℕ},
    (stringBody s).length ≤ fuel → readString fuel (stringBody s ++ rest) = some (s, rest) := by
  induction s with
  | nil =>
    intro fuel h
    obtain ⟨fuel, rfl⟩ := Nat.exists_eq_succ_of_ne_zero (Nat.ne_zero_of_lt h)
    rfl
  | cons c s ih =>
    intro fuel h
    have hbody : stringBody (c :: s) = escape c ++ stringBody s := by
      rw [stringBody, List.flatMap_cons, List.append_assoc, ← stringBody]
    rw [hbody, List.length_append] at h
    have hpos := escape_length_pos c
    obtain ⟨fuel, rfl⟩ := Nat.exists_eq_succ_of_ne_zero (show fuel ≠ 0 by omega)
    rw [hbody, List.append_assoc, readString_escape, ih (by omega), Option.map_some]

/-! ## Values -/

/-- White space before a text that starts with none is skipped. -/
theorem skip_append {ws rest : Text} (hws : ∀ c ∈ ws, isSpace c = true)
    (hrest : ∀ c t, rest = c :: t → isSpace c = false) : skip (ws ++ rest) = rest := by
  unfold skip
  rw [List.dropWhile_append_of_pos hws]
  cases rest with
  | nil => rfl
  | cons c t => simp [hrest c t rfl]

theorem isSpace_newline (indent d : ℕ) : ∀ c ∈ newline indent d, isSpace c = true := by
  intro c hc
  unfold newline at hc
  split at hc
  · exact absurd hc List.not_mem_nil
  · rcases List.mem_cons.mp hc with rfl | hc
    · rfl
    · rw [List.eq_of_mem_replicate hc]
      rfl

theorem isSpace_gap (indent d : ℕ) : ∀ c ∈ gap indent d, isSpace c = true := by
  intro c hc
  unfold gap at hc
  split at hc
  · rw [List.mem_singleton.mp hc]
    rfl
  · exact isSpace_newline indent d c hc

/-- What a value starts with. -/
def Opens (c : Char) : Prop := isSpace c = false ∧ c ≠ ']' ∧ c ≠ ','

theorem opens_of_number {c : Char} (h : c = '-' ∨ c.isDigit = true) : Opens c := by
  rcases h with rfl | h
  · exact ⟨rfl, by decide, by decide⟩
  · refine ⟨?_, ?_, ?_⟩
    · unfold isSpace
      simp only [Bool.or_eq_false_iff, beq_eq_false_iff_ne]
      refine ⟨⟨⟨?_, ?_⟩, ?_⟩, ?_⟩ <;> (rintro rfl; exact absurd h (by decide))
    · rintro rfl
      exact absurd h (by decide)
    · rintro rfl
      exact absurd h (by decide)

theorem render_head (indent d : ℕ) (v : Json) :
    ∃ c t, render indent d v = c :: t ∧ Opens c := by
  cases v with
  | null => exact ⟨'n', _, rfl, rfl, by decide, by decide⟩
  | bool b => cases b <;> exact ⟨_, _, rfl, rfl, by decide, by decide⟩
  | integer i =>
    obtain ⟨c, t, hct, hc⟩ := intText_head i
    exact ⟨c, t, hct, opens_of_number hc⟩
  | real r =>
    obtain ⟨c, t, hct, hc⟩ := intText_head r.num
    exact ⟨c, t ++ _, by rw [render, hct, List.cons_append], opens_of_number hc⟩
  | string s => exact ⟨'"', _, rfl, rfl, by decide, by decide⟩
  | array es => exact ⟨'[', _, rfl, rfl, by decide, by decide⟩
  | object ms => exact ⟨'\x7b', _, rfl, rfl, by decide, by decide⟩

theorem skip_render {ws : Text} (hws : ∀ c ∈ ws, isSpace c = true) (indent d : ℕ) (v : Json)
    (rest : Text) : skip (ws ++ (render indent d v ++ rest)) = render indent d v ++ rest := by
  obtain ⟨c, t, hct, hc, -⟩ := render_head indent d v
  refine skip_append hws (fun c' t' h => ?_)
  rw [hct, List.cons_append, List.cons.injEq] at h
  exact h.1 ▸ hc

/-- A value that starts like a number is read as one. -/
theorem readValue_number {fuel : ℕ} {c : Char} {t : Text} (h : c = '-' ∨ c.isDigit = true) :
    readValue (fuel + 1) (c :: t) = readNumber (c :: t) := by
  have hne : ∀ c', c'.isDigit = false → c' ≠ '-' → c ≠ c' := by
    rintro c' h1 h2 rfl
    rcases h with rfl | h
    · exact h2 rfl
    · rw [h] at h1
      exact absurd h1 (by decide)
  have hskip : skip (c :: t) = c :: t := by
    refine skip_append (List.forall_mem_nil _) ?_
    rintro _ _ ⟨⟩
    exact (opens_of_number h).1
  have htake : ∀ (n : ℕ) (c' : Char) (s : Text), c'.isDigit = false → c' ≠ '-' →
      (c :: t).take (n + 1) ≠ c' :: s := by
    intro n c' s h1 h2 heq
    rw [List.take_succ_cons, List.cons.injEq] at heq
    exact hne c' h1 h2 heq.1
  rw [readValue, hskip]
  dsimp only
  rw [if_neg (hne _ (by decide) (by decide)), if_neg (hne _ (by decide) (by decide)),
    if_neg (hne _ (by decide) (by decide)), if_neg (show _ ≠ "null".toList from htake 3 'n' _ (by decide) (by decide)),
    if_neg (show _ ≠ "true".toList from htake 3 't' _ (by decide) (by decide)),
    if_neg (show _ ≠ "false".toList from htake 4 'f' _ (by decide) (by decide))]

/-- What is read back: the value, whatever comes after it. -/
def ReadsBack (v : Json) : Prop :=
  ∀ (indent d fuel : ℕ) (rest : Text), Delimited rest →
    (render indent d v).length ≤ fuel →
    readValue fuel (render indent d v ++ rest) = some (v, rest)

theorem delimited_cons {c : Char} (h : c.isDigit = false ∧ c ≠ '/') (rest : Text) :
    Delimited (c :: rest) := by
  rintro c' t ⟨⟩
  exact h

theorem delimited_newline (indent d : ℕ) {rest : Text} (h : Delimited rest) :
    Delimited (newline indent d ++ rest) := by
  unfold newline
  split
  · exact h
  · exact delimited_cons (by decide) _

theorem delimited_moreElems (indent d : ℕ) (es : List Json) (rest : Text) :
    Delimited (renderMoreElems indent d es ++ rest) := by
  cases es with
  | nil =>
    rw [renderMoreElems, List.append_assoc]
    exact delimited_newline indent (d - 1) (delimited_cons (by decide) _)
  | cons e es => exact delimited_cons (by decide) _

theorem delimited_moreMembers (indent d : ℕ) (ms : List (Text × Json)) (rest : Text) :
    Delimited (renderMoreMembers indent d ms ++ rest) := by
  cases ms with
  | nil =>
    rw [renderMoreMembers, List.append_assoc]
    exact delimited_newline indent (d - 1) (delimited_cons (by decide) _)
  | cons m ms => exact delimited_cons (by decide) _

/-- A value may have white space before it. -/
theorem ReadsBack.after_space {v : Json} (h : ReadsBack v) {ws : Text}
    (hws : ∀ c ∈ ws, isSpace c = true) (indent d fuel : ℕ) {rest : Text}
    (hrest : Delimited rest) (hfuel : (render indent d v).length ≤ fuel) :
    readValue fuel (ws ++ (render indent d v ++ rest)) = some (v, rest) := by
  rw [← h indent d fuel rest hrest hfuel]
  cases fuel with
  | zero => rfl
  | succ fuel =>
    have hskip : skip (ws ++ (render indent d v ++ rest)) = skip (render indent d v ++ rest) := by
      rw [skip_render hws]
      exact (skip_render (List.forall_mem_nil _) indent d v rest).symm
    simp only [readValue, hskip]

theorem render_length_pos (indent d : ℕ) (v : Json) : 0 < (render indent d v).length := by
  obtain ⟨c, t, hct, -⟩ := render_head indent d v
  rw [hct]
  exact Nat.succ_pos _

/-- The elements after the first one are read back. -/
theorem readMoreElems_render (indent d : ℕ) (rest : Text) {es : List Json}
    (h : ∀ e ∈ es, ReadsBack e) : ∀ fuel : ℕ,
    (renderMoreElems indent d es).length ≤ fuel →
    readMoreElems fuel (renderMoreElems indent d es ++ rest) = some (es, rest) := by
  induction es with
  | nil =>
    intro fuel hfuel
    rw [renderMoreElems, List.length_append, List.length_singleton] at hfuel
    obtain ⟨fuel, rfl⟩ := Nat.exists_eq_succ_of_ne_zero (show fuel ≠ 0 by omega)
    rw [renderMoreElems, readMoreElems, List.append_assoc,
      skip_append (isSpace_newline _ _) (by rintro _ _ ⟨⟩; rfl)]
    rfl
  | cons e es ih =>
    intro fuel hfuel
    rw [renderMoreElems, List.length_append, List.length_append, List.length_cons] at hfuel
    have hpos := render_length_pos indent d e
    obtain ⟨fuel, rfl⟩ := Nat.exists_eq_succ_of_ne_zero (show fuel ≠ 0 by omega)
    have hvalue := (h e List.mem_cons_self).after_space (isSpace_gap indent d)
      indent d fuel (delimited_moreElems indent d es rest) (by omega)
    have hmore := ih (fun e he => h e (List.mem_cons_of_mem _ he)) fuel (by omega)
    rw [renderMoreElems, List.append_assoc, List.append_assoc, List.cons_append]
    show (readValue fuel (gap indent d ++ (render indent d e
      ++ (renderMoreElems indent d es ++ rest)))).bind _ = _
    rw [hvalue, Option.bind_some, hmore, Option.map_some]

/-- The elements are read back. -/
theorem readElems_render (indent d : ℕ) (rest : Text) {es : List Json}
    (h : ∀ e ∈ es, ReadsBack e) {fuel : ℕ}
    (hfuel : (renderElems indent d es).length ≤ fuel) :
    readElems fuel (renderElems indent d es ++ rest) = some (es, rest) := by
  cases es with
  | nil =>
    obtain ⟨fuel, rfl⟩ := Nat.exists_eq_succ_of_ne_zero (Nat.ne_zero_of_lt hfuel)
    rfl
  | cons e es =>
    rw [renderElems, List.length_append, List.length_append] at hfuel
    have hpos := render_length_pos indent d e
    have hpos' : 0 < (renderMoreElems indent d es).length := by
      cases es with
      | nil => rw [renderMoreElems]; simp
      | cons e es => exact Nat.succ_pos _
    obtain ⟨fuel, rfl⟩ := Nat.exists_eq_succ_of_ne_zero (show fuel ≠ 0 by omega)
    have hvalue := h e List.mem_cons_self indent d fuel _
      (delimited_moreElems indent d es rest) (by omega)
    have hmore := readMoreElems_render indent d rest
      (fun e he => h e (List.mem_cons_of_mem _ he)) fuel (by omega)
    rw [renderElems, List.append_assoc, List.append_assoc, readElems,
      skip_render (isSpace_newline indent d)]
    obtain ⟨c, t, hct, -, hc, -⟩ := render_head indent d e
    rw [hct, List.cons_append] at hvalue ⊢
    split
    · rename_i heq
      exact absurd (List.cons.inj heq).1 hc
    · rw [hvalue, Option.bind_some, hmore, Option.map_some]

/-- A member is read back, whatever white space comes before it. -/
theorem readMember_render {m : Text × Json} (h : ReadsBack m.2) {ws : Text}
    (hws : ∀ c ∈ ws, isSpace c = true) (indent d fuel : ℕ) {rest : Text}
    (hrest : Delimited rest) (hfuel : (renderMember indent d m).length ≤ fuel) :
    readMember fuel (ws ++ (renderMember indent d m ++ rest)) = some (m, rest) := by
  obtain ⟨k, v⟩ := m
  change ReadsBack v at h
  simp only [renderMember, List.length_append, List.length_cons] at hfuel
  obtain ⟨fuel, rfl⟩ := Nat.exists_eq_succ_of_ne_zero (show fuel ≠ 0 by omega)
  have hskip : skip (ws ++ (renderMember indent d (k, v) ++ rest))
      = '"' :: (stringBody k ++ (':' :: ([' '] ++ (render indent d v ++ rest)))) := by
    rw [skip_append hws (by rw [renderMember]; rintro _ _ ⟨⟩; rfl), renderMember]
    simp only [List.cons_append, List.append_assoc, List.nil_append]
  have hblank : ∀ c ∈ [' '], isSpace c = true := by simp [isSpace]
  have hvalue := h.after_space hblank indent d fuel hrest (by omega)
  rw [readMember, hskip]
  show (readString _ (stringBody k ++ (':' :: ([' '] ++ (render indent d v ++ rest))))).bind _ = _
  rw [readString_stringBody k (by rw [List.length_append]; omega), Option.bind_some]
  show (readValue fuel ([' '] ++ (render indent d v ++ rest))).map _ = _
  rw [hvalue, Option.map_some]

theorem renderMember_head (indent d : ℕ) (m : Text × Json) :
    ∃ t, renderMember indent d m = '"' :: t := by
  obtain ⟨k, v⟩ := m
  exact ⟨_, rfl⟩

/-- The members after the first one are read back. -/
theorem readMoreMembers_render (indent d : ℕ) (rest : Text) {ms : List (Text × Json)}
    (h : ∀ m ∈ ms, ReadsBack m.2) : ∀ fuel : ℕ,
    (renderMoreMembers indent d ms).length ≤ fuel →
    readMoreMembers fuel (renderMoreMembers indent d ms ++ rest) = some (ms, rest) := by
  induction ms with
  | nil =>
    intro fuel hfuel
    rw [renderMoreMembers, List.length_append, List.length_singleton] at hfuel
    obtain ⟨fuel, rfl⟩ := Nat.exists_eq_succ_of_ne_zero (show fuel ≠ 0 by omega)
    rw [renderMoreMembers, readMoreMembers, List.append_assoc,
      skip_append (isSpace_newline _ _) (by rintro _ _ ⟨⟩; rfl)]
    rfl
  | cons m ms ih =>
    intro fuel hfuel
    simp only [renderMoreMembers, List.length_append, List.length_cons] at hfuel
    obtain ⟨fuel, rfl⟩ := Nat.exists_eq_succ_of_ne_zero (show fuel ≠ 0 by omega)
    have hmember := readMember_render (h m List.mem_cons_self) (isSpace_gap indent d)
      indent d fuel (delimited_moreMembers indent d ms rest) (by omega)
    obtain ⟨t, ht⟩ := renderMember_head indent d m
    have hmore := ih (fun m hm => h m (List.mem_cons_of_mem _ hm)) fuel
      (by have := congrArg List.length ht; rw [List.length_cons] at this; omega)
    rw [renderMoreMembers, List.append_assoc, List.append_assoc, List.cons_append]
    show (readMember fuel (gap indent d ++ (renderMember indent d m
      ++ (renderMoreMembers indent d ms ++ rest)))).bind _ = _
    rw [hmember, Option.bind_some, hmore, Option.map_some]

/-- The members are read back. -/
theorem readMembers_render (indent d : ℕ) (rest : Text) {ms : List (Text × Json)}
    (h : ∀ m ∈ ms, ReadsBack m.2) {fuel : ℕ}
    (hfuel : (renderMembers indent d ms).length ≤ fuel) :
    readMembers fuel (renderMembers indent d ms ++ rest) = some (ms, rest) := by
  cases ms with
  | nil =>
    obtain ⟨fuel, rfl⟩ := Nat.exists_eq_succ_of_ne_zero (Nat.ne_zero_of_lt hfuel)
    rfl
  | cons m ms =>
    simp only [renderMembers, List.length_append] at hfuel
    obtain ⟨t, ht⟩ := renderMember_head indent d m
    have hpos : (renderMember indent d m).length = t.length + 1 := congrArg List.length ht
    have hpos' : 0 < (renderMoreMembers indent d ms).length := by
      cases ms with
      | nil => simp [renderMoreMembers]
      | cons m ms => exact Nat.succ_pos _
    obtain ⟨fuel, rfl⟩ := Nat.exists_eq_succ_of_ne_zero (show fuel ≠ 0 by omega)
    have hmember := readMember_render (h m List.mem_cons_self) (List.forall_mem_nil _)
      indent d fuel (delimited_moreMembers indent d ms rest) (by omega)
    have hmore := readMoreMembers_render indent d rest
      (fun m hm => h m (List.mem_cons_of_mem _ hm)) fuel (by omega)
    have hskip : skip (newline indent d ++ (renderMember indent d m
        ++ (renderMoreMembers indent d ms ++ rest)))
        = renderMember indent d m ++ (renderMoreMembers indent d ms ++ rest) :=
      skip_append (isSpace_newline indent d) (by rw [ht]; rintro _ _ ⟨⟩; rfl)
    rw [renderMembers, List.append_assoc, List.append_assoc, readMembers, hskip]
    rw [List.nil_append] at hmember
    rw [ht, List.cons_append] at hmember ⊢
    show (readMember fuel _).bind _ = _
    rw [hmember, Option.bind_some, hmore, Option.map_some]

/-- Members of distinct keys, set one after the other, are the object. -/
theorem foldl_setMember {ms : List (Text × Json)} : ∀ {acc : List (Text × Json)},
    ((acc ++ ms).map Prod.fst).Nodup →
    ms.foldl (fun o m => o.objectSetNew m.1 (some m.2)) (Json.object acc)
      = .object (acc ++ ms) := by
  induction ms with
  | nil => exact fun _ => by rw [List.append_nil]; rfl
  | cons m ms ih =>
    intro acc h
    have hsplit : acc ++ m :: ms = acc ++ [m] ++ ms := by simp
    have hnew : Json.setMember m.1 m.2 acc = acc ++ [m] := by
      have hm : ∀ a ∈ acc, a.1 ≠ m.1 := by
        intro a ha heq
        rw [List.map_append, List.nodup_append] at h
        exact h.2.2 _ (List.mem_map_of_mem ha) _ (List.mem_map_of_mem List.mem_cons_self) heq
      clear h hsplit
      induction acc with
      | nil => rfl
      | cons a acc iha =>
        rw [Json.setMember, if_neg (hm a List.mem_cons_self),
          iha (fun b hb => hm b (List.mem_cons_of_mem _ hb))]
        rfl
    rw [List.foldl_cons, hsplit, ← ih (hsplit ▸ h), ← hnew]
    rfl

/-- **A value is read back from its text.** -/
theorem readValue_render {v : Json} (h : v.Valid) : ReadsBack v := by
  induction v using Json.nestedInduction with
  | null =>
    intro indent d fuel rest _ hfuel
    obtain ⟨fuel, rfl⟩ := Nat.exists_eq_succ_of_ne_zero (Nat.ne_zero_of_lt hfuel)
    rfl
  | bool b =>
    intro indent d fuel rest _ hfuel
    have hpos := render_length_pos indent d (.bool b)
    obtain ⟨fuel, rfl⟩ := Nat.exists_eq_succ_of_ne_zero (show fuel ≠ 0 by omega)
    cases b <;> rfl
  | integer i =>
    intro indent d fuel rest hrest hfuel
    have hpos := render_length_pos indent d (.integer i)
    obtain ⟨fuel, rfl⟩ := Nat.exists_eq_succ_of_ne_zero (show fuel ≠ 0 by omega)
    obtain ⟨c, t, hct, hc⟩ := intText_head i
    rw [render, ← readNumber_integer i hrest, hct, List.cons_append, readValue_number hc]
  | real r =>
    intro indent d fuel rest hrest hfuel
    have hpos := render_length_pos indent d (.real r)
    obtain ⟨fuel, rfl⟩ := Nat.exists_eq_succ_of_ne_zero (show fuel ≠ 0 by omega)
    obtain ⟨c, t, hct, hc⟩ := intText_head r.num
    rw [render, ← readNumber_real r hrest, hct, List.cons_append, List.cons_append,
      readValue_number hc]
  | string s =>
    intro indent d fuel rest _ hfuel
    obtain ⟨fuel, rfl⟩ := Nat.exists_eq_succ_of_ne_zero (Nat.ne_zero_of_lt hfuel)
    rw [render, List.cons_append]
    show (readString _ (stringBody s ++ rest)).map _ = _
    rw [readString_stringBody s (by rw [List.length_append]; omega), Option.map_some]
  | array es ih =>
    intro indent d fuel rest _ hfuel
    rw [render, List.length_cons] at hfuel
    obtain ⟨fuel, rfl⟩ := Nat.exists_eq_succ_of_ne_zero (show fuel ≠ 0 by omega)
    rw [render, List.cons_append]
    show (readElems fuel (renderElems indent (d + 1) es ++ rest)).map _ = _
    rw [readElems_render _ _ _ (fun e he => ih e he (h.elems e he)) (by omega),
      Option.map_some]
  | object ms ih =>
    intro indent d fuel rest _ hfuel
    rw [render, List.length_cons] at hfuel
    obtain ⟨fuel, rfl⟩ := Nat.exists_eq_succ_of_ne_zero (show fuel ≠ 0 by omega)
    cases h with
    | object nodup hms =>
      rw [render, List.cons_append]
      show (readMembers fuel (renderMembers indent (d + 1) ms ++ rest)).map _ = _
      rw [readMembers_render _ _ _ (fun m hm => ih m hm (hms m hm)) (by omega),
        Option.map_some, foldl_setMember (by rwa [List.nil_append]), List.nil_append]

/-- **A document is read back from its text.** -/
theorem loads_render (indent : ℕ) {v : Json} (h : v.Valid) (hc : v.isContainer = true) :
    loads (render indent 0 v) = some v := by
  have hread := readValue_render h indent 0 ((render indent 0 v).length + 1) []
    (by rintro _ _ ⟨⟩) (Nat.le_succ _)
  rw [List.append_nil] at hread
  unfold loads
  rw [hread]
  exact if_pos ⟨hc, rfl⟩

/-! ## The laws -/

/-- An object made of valid members is valid. -/
theorem foldl_valid {ms : List (Text × Json)} (h : ∀ m ∈ ms, m.2.Valid) :
    (ms.foldl (fun o m => o.objectSetNew m.1 (some m.2)) (Json.object [])).Valid := by
  suffices ∀ o : Json, o.Valid →
      (ms.foldl (fun o m => o.objectSetNew m.1 (some m.2)) o).Valid from
    this _ (.object List.nodup_nil (List.forall_mem_nil _))
  induction ms with
  | nil => exact fun _ ho => ho
  | cons m ms ih =>
    refine fun o ho => ih (fun m hm => h m (List.mem_cons_of_mem _ hm)) _ ?_
    refine ho.objectSetNew m.1 ?_
    rintro _ ⟨⟩
    exact h m List.mem_cons_self

theorem readNumber_valid {s : Text} {p : Json × Text} (h : readNumber s = some p) :
    p.1.Valid := by
  unfold readNumber at h
  obtain ⟨q, -, h⟩ := Option.bind_eq_some_iff.mp h
  split at h
  · obtain ⟨q', -, rfl⟩ := Option.map_eq_some_iff.mp h
    exact .real _
  · exact Option.some.inj h ▸ .integer _

/-- What a reader of a list returns after its bracket or after a comma. -/
theorem bind_map_cons {α β : Type} {f : Option (α × β)} {g : β → Option (List α × β)}
    {P : α → Prop} (hf : ∀ p, f = some p → P p.1)
    (hg : ∀ t p, g t = some p → ∀ a ∈ p.1, P a) {p : List α × β}
    (h : (f.bind fun x => (g x.2).map fun q => (x.1 :: q.1, q.2)) = some p) :
    ∀ a ∈ p.1, P a := by
  obtain ⟨x, hx, h⟩ := Option.bind_eq_some_iff.mp h
  obtain ⟨q, hq, rfl⟩ := Option.map_eq_some_iff.mp h
  exact List.forall_mem_cons.mpr ⟨hf x hx, hg _ q hq⟩

/-- **No key occurs twice in what the reader returns**: a member that is read
twice replaces the first one. -/
theorem read_valid : ∀ fuel : ℕ,
    (∀ s p, readValue fuel s = some p → p.1.Valid)
      ∧ (∀ s p, readElems fuel s = some p → ∀ e ∈ p.1, e.Valid)
      ∧ (∀ s p, readMoreElems fuel s = some p → ∀ e ∈ p.1, e.Valid)
      ∧ (∀ s p, readMembers fuel s = some p → ∀ m ∈ p.1, m.2.Valid)
      ∧ (∀ s p, readMoreMembers fuel s = some p → ∀ m ∈ p.1, m.2.Valid)
      ∧ (∀ s p, readMember fuel s = some p → p.1.2.Valid) := by
  intro fuel
  induction fuel with
  | zero =>
    refine ⟨?_, ?_, ?_, ?_, ?_, ?_⟩ <;>
      exact fun _ _ h => absurd h (by simp [readValue, readElems, readMoreElems, readMembers,
        readMoreMembers, readMember])
  | succ fuel ih =>
    obtain ⟨hvalue, helems, hmoreElems, hmembers, hmoreMembers, hmember⟩ := ih
    refine ⟨fun s p h => ?_, fun s p h => ?_, fun s p h => ?_, fun s p h => ?_,
      fun s p h => ?_, fun s p h => ?_⟩
    · rw [readValue] at h
      split at h
      · exact absurd h (by simp)
      · split at h
        · obtain ⟨q, -, rfl⟩ := Option.map_eq_some_iff.mp h
          exact .string _
        split at h
        · obtain ⟨q, hq, rfl⟩ := Option.map_eq_some_iff.mp h
          exact .array (helems _ q hq)
        split at h
        · obtain ⟨q, hq, rfl⟩ := Option.map_eq_some_iff.mp h
          exact foldl_valid (hmembers _ q hq)
        split at h
        · exact Option.some.inj h ▸ .null
        split at h
        · exact Option.some.inj h ▸ .bool true
        split at h
        · exact Option.some.inj h ▸ .bool false
        · exact readNumber_valid h
    · rw [readElems] at h
      split at h
      · exact Option.some.inj h ▸ List.forall_mem_nil _
      · exact bind_map_cons (hvalue _) hmoreElems h
    · rw [readMoreElems] at h
      split at h
      · exact Option.some.inj h ▸ List.forall_mem_nil _
      · exact bind_map_cons (hvalue _) hmoreElems h
      · exact absurd h (by simp)
    · rw [readMembers] at h
      split at h
      · exact Option.some.inj h ▸ List.forall_mem_nil _
      · exact bind_map_cons (hmember _) hmoreMembers h
    · rw [readMoreMembers] at h
      split at h
      · exact Option.some.inj h ▸ List.forall_mem_nil _
      · exact bind_map_cons (hmember _) hmoreMembers h
      · exact absurd h (by simp)
    · rw [readMember] at h
      split at h
      · obtain ⟨q, -, h⟩ := Option.bind_eq_some_iff.mp h
        split at h
        · obtain ⟨q', hq', rfl⟩ := Option.map_eq_some_iff.mp h
          exact hvalue _ q' hq'
        · exact absurd h (by simp)
      · exact absurd h (by simp)

theorem loads_valid {s : Text} {v : Json} (h : loads s = some v) :
    v.Valid ∧ v.isContainer = true := by
  unfold loads at h
  split at h
  · rename_i hread
    split at h
    · rename_i hc
      exact Option.some.inj h ▸ ⟨(read_valid _).1 _ _ hread, hc.1⟩
    · exact absurd h (by simp)
  · exact absurd h (by simp)

theorem nul_not_mem_natText (n : ℕ) : '\x00' ∉ natText n :=
  fun h => ((natText_spec n).1 _ h).2 rfl

theorem nul_not_mem_intText (i : ℤ) : '\x00' ∉ intText i := by
  unfold intText
  split
  · simp [nul_not_mem_natText]
  · exact nul_not_mem_natText _

theorem hexDigit_ne_nul : ∀ d < 16, hexDigit d ≠ '\x00' := by decide

theorem nul_not_mem_stringBody (s : Text) : '\x00' ∉ stringBody s := by
  have hescape : ∀ c : Char, '\x00' ∉ escape c := by
    intro c
    unfold escape
    split
    · rename_i h
      rcases h with rfl | rfl <;> decide
    · split
      · rename_i hlt
        have h1 := hexDigit_ne_nul (c.toNat / 16) (by omega)
        have h2 := hexDigit_ne_nul (c.toNat % 16) (Nat.mod_lt _ (by decide))
        simp [h1.symm, h2.symm]
      · rename_i hlt
        intro h
        rw [← List.mem_singleton.mp h] at hlt
        exact hlt (by decide)
  simp [stringBody, hescape]

theorem nul_not_mem_newline (indent d : ℕ) : '\x00' ∉ newline indent d := by
  intro h
  exact absurd (isSpace_newline indent d _ h) (by decide)

theorem nul_not_mem_gap (indent d : ℕ) : '\x00' ∉ gap indent d := by
  intro h
  exact absurd (isSpace_gap indent d _ h) (by decide)

/-- A text is free of NULs. -/
theorem nul_not_mem_render (indent : ℕ) (v : Json) : ∀ d, '\x00' ∉ render indent d v := by
  induction v using Json.nestedInduction with
  | null => exact fun _ => by simp [render]
  | bool b => intro d; cases b <;> simp [render]
  | integer i => exact fun _ => nul_not_mem_intText i
  | real r => exact fun _ => by simp [render, nul_not_mem_intText, nul_not_mem_natText]
  | string s => exact fun _ => by simp [render, nul_not_mem_stringBody]
  | array es ih =>
    have hmore : ∀ (es : List Json), (∀ e ∈ es, ∀ d, '\x00' ∉ render indent d e) →
        ∀ d, '\x00' ∉ renderMoreElems indent d es := by
      intro es
      induction es with
      | nil => exact fun _ d => by simp [renderMoreElems, nul_not_mem_newline]
      | cons e es ihe =>
        intro h d
        have he := h e List.mem_cons_self d
        have hes := ihe (fun e he => h e (List.mem_cons_of_mem _ he)) d
        simp [renderMoreElems, nul_not_mem_gap, he, hes]
    intro d
    cases es with
    | nil => simp [render, renderElems]
    | cons e es =>
      have he := ih e List.mem_cons_self (d + 1)
      have hes := hmore es (fun e he => ih e (List.mem_cons_of_mem _ he)) (d + 1)
      simp [render, renderElems, nul_not_mem_newline, he, hes]
  | object ms ih =>
    have hmember : ∀ (m : Text × Json), (∀ d, '\x00' ∉ render indent d m.2) →
        ∀ d, '\x00' ∉ renderMember indent d m := by
      rintro ⟨k, v⟩ h d
      simp [renderMember, nul_not_mem_stringBody, h d]
    have hmore : ∀ (ms : List (Text × Json)), (∀ m ∈ ms, ∀ d, '\x00' ∉ render indent d m.2) →
        ∀ d, '\x00' ∉ renderMoreMembers indent d ms := by
      intro ms
      induction ms with
      | nil => exact fun _ d => by simp [renderMoreMembers, nul_not_mem_newline]
      | cons m ms ihm =>
        intro h d
        have hm := hmember m (h m List.mem_cons_self) d
        have hms := ihm (fun m hm => h m (List.mem_cons_of_mem _ hm)) d
        simp [renderMoreMembers, nul_not_mem_gap, hm, hms]
    intro d
    cases ms with
    | nil => simp [render, renderMembers]
    | cons m ms =>
      have hm := hmember m (ih m List.mem_cons_self) (d + 1)
      have hms := hmore ms (fun m hm => ih m (List.mem_cons_of_mem _ hm)) (d + 1)
      simp [render, renderMembers, nul_not_mem_newline, hm, hms]

/-- **The laws the services rely on are those of a library that can be run.** -/
theorem codec_lawful : codec.Lawful where
  utf8_ascii := by
    intro s
    induction s with
    | nil => exact fun _ => rfl
    | cons c s ih =>
      intro h
      show utf8From 0 0 0 (c :: s) = true
      rw [List.all_cons, Bool.and_eq_true, decide_eq_true_iff] at h
      rw [utf8From, if_pos h.1]
      exact ih h.2
  loads_array := loads_render 0 (.array (List.forall_mem_nil _)) rfl
  loads_object := loads_render 0 (@Json.Valid.object [] List.nodup_nil (List.forall_mem_nil _)) rfl
  loads_container := fun h => (loads_valid h).2
  loads_valid := fun h => (loads_valid h).1
  loads_text := fun indent v hv hc =>
    ⟨v, loads_render indent hv hc, Json.equal_refl hv⟩
  text_nul := fun indent v => nul_not_mem_render indent v 0

/-- The library that can be run gives back what it has written. -/
theorem codec_loads_text (indent : ℕ) {v : Json} (h : v.Valid) (hc : v.isContainer = true) :
    codec.loads (codec.text indent v) = some v := loads_render indent h hc

/-- The library that can be run refuses a text that holds no document. -/
theorem codec_strict : codec.Strict where
  loads_empty := by
    show loads [] = none
    rw [loads, readValue]
    rfl
  loads_null := by
    show loads "null".toList = none
    rw [loads, readValue, show skip "null".toList = ['n', 'u', 'l', 'l'] by decide]
    rfl

theorem codec_keywords : codec.Keywords where
  text_null := rfl
  text_true := rfl
  text_false := rfl
  loads_true := by
    show loads "true".toList = none
    rw [loads, readValue, show skip "true".toList = ['t', 'r', 'u', 'e'] by decide]
    rfl
  loads_false := by
    show loads "false".toList = none
    rw [loads, readValue, show skip "false".toList = ['f', 'a', 'l', 's', 'e'] by decide]
    rfl

end JsonText
