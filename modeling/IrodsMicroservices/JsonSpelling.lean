import IrodsMicroservices.JsonText

/-!
# Texts that spell a value

A JSON text need not be one that `json_dumps` has written. A program that puts a document
together from pieces of text writes its objects and arrays without white space, its keys as
they are, and its strings in an escaped form of its own.

A text spells a value where it is read as that value, whatever comes after it (`Spells`).
Objects and arrays are spelled by texts that spell what is in them.
-/

namespace JsonText

/-- **A text spells a value.** -/
structure Spells (t : Text) (v : Json) : Prop where
  opens : ∃ c s, t = c :: s ∧ Opens c
  reads : ∀ fuel rest, Delimited rest → t.length ≤ fuel →
    readValue fuel (t ++ rest) = some (v, rest)

/-- Nothing in a text has to be escaped. -/
def Plain (s : Text) : Prop := ∀ c ∈ s, c ≠ '"' ∧ c ≠ '\\' ∧ 0x20 ≤ c.toNat

instance (s : Text) : Decidable (Plain s) :=
  List.decidableBAll (fun c => c ≠ '"' ∧ c ≠ '\\' ∧ 0x20 ≤ c.toNat) s

/-- A text between quotes is read as a string. -/
def ReadsString (body s : Text) : Prop :=
  ∀ fuel rest, body.length < fuel → readString fuel (body ++ '"' :: rest) = some (s, rest)

/-- A plain text is read as it is. -/
theorem readsString_plain {s : Text} (h : Plain s) : ReadsString s s := by
  induction s with
  | nil =>
    intro fuel rest hfuel
    obtain ⟨fuel, rfl⟩ := Nat.exists_eq_succ_of_ne_zero (Nat.ne_zero_of_lt hfuel)
    rfl
  | cons c s ih =>
    intro fuel rest hfuel
    obtain ⟨fuel, rfl⟩ := Nat.exists_eq_succ_of_ne_zero (Nat.ne_zero_of_lt hfuel)
    obtain ⟨⟨hquote, hslash, -⟩, hs⟩ := List.forall_mem_cons.mp h
    rw [List.cons_append, readString, if_neg hquote, if_neg hslash,
      ih hs fuel rest (Nat.lt_of_succ_lt_succ hfuel), Option.map_some]

/-- Text that is read as a string, in quotes. -/
theorem spells_string {body s : Text} (h : ReadsString body s) :
    Spells ('"' :: body ++ ['"']) (.string s) where
  opens := ⟨'"', body ++ ['"'], rfl, by decide, by decide, by decide⟩
  reads fuel rest _ hfuel := by
    obtain ⟨fuel, rfl⟩ := Nat.exists_eq_succ_of_ne_zero (Nat.ne_zero_of_lt hfuel)
    rw [List.append_assoc, List.cons_append, List.singleton_append]
    show (readString _ (body ++ '"' :: rest)).map _ = _
    rw [h _ rest (by rw [List.length_append]; omega)]
    rfl

theorem spells_integer (i : ℤ) : Spells (intText i) (.integer i) where
  opens := by
    obtain ⟨c, t, ht, hc⟩ := intText_head i
    exact ⟨c, t, ht, opens_of_number hc⟩
  reads fuel rest hrest hfuel := by
    obtain ⟨c, t, ht, hc⟩ := intText_head i
    rw [ht, List.length_cons] at hfuel
    obtain ⟨fuel, rfl⟩ := Nat.exists_eq_succ_of_ne_zero (Nat.ne_zero_of_lt hfuel)
    have hnumber := readNumber_integer i hrest
    rw [ht, List.cons_append] at hnumber ⊢
    rw [readValue_number hc, hnumber]

/-- A text that spells a value is not skipped. -/
theorem Spells.skip {t : Text} {v : Json} (h : Spells t v) (rest : Text) :
    skip (t ++ rest) = t ++ rest := by
  obtain ⟨c, s, rfl, hc⟩ := h.opens
  have hblank : ∀ c ∈ ([] : Text), isSpace c = true := List.forall_mem_nil _
  exact skip_append hblank (by rintro _ _ ⟨⟩; exact hc.1)

/-! ## Objects -/

/-- A member: the key, the text of the value, and the value. -/
abbrev SpelledMember := Text × Text × Json

/-- The text of a member. -/
def memberText (m : SpelledMember) : Text := '"' :: m.1 ++ '"' :: ':' :: m.2.1

/-- The text of the members after the first one. -/
def moreMembersText : List SpelledMember → Text
  | [] => ['\x7d']
  | m :: ms => ',' :: memberText m ++ moreMembersText ms

/-- The text of an object. -/
def objectText (m : SpelledMember) (ms : List SpelledMember) : Text :=
  '\x7b' :: memberText m ++ moreMembersText ms

def Spelled (m : SpelledMember) : Prop := Plain m.1 ∧ Spells m.2.1 m.2.2

theorem readMember_spelled {m : SpelledMember} (h : Spelled m) {fuel : ℕ} {rest : Text}
    (hrest : Delimited rest) (hfuel : (memberText m).length ≤ fuel) :
    readMember fuel (memberText m ++ rest) = some ((m.1, m.2.2), rest) := by
  obtain ⟨hplain, hspells⟩ := h
  simp only [memberText, List.length_append, List.length_cons] at hfuel
  obtain ⟨fuel, rfl⟩ := Nat.exists_eq_succ_of_ne_zero (show fuel ≠ 0 by omega)
  have htext : memberText m ++ rest = '"' :: (m.1 ++ '"' :: (':' :: (m.2.1 ++ rest))) := by
    simp [memberText]
  rw [htext]
  show (readString _ (m.1 ++ '"' :: (':' :: (m.2.1 ++ rest)))).bind _ = _
  rw [readsString_plain hplain _ _ (by rw [List.length_append]; omega), Option.bind_some]
  show (readValue fuel (m.2.1 ++ rest)).map _ = _
  rw [hspells.reads fuel rest hrest (by omega), Option.map_some]

theorem delimited_moreMembersText (ms : List SpelledMember) (rest : Text) :
    Delimited (moreMembersText ms ++ rest) := by
  cases ms with
  | nil => exact delimited_cons (by decide) _
  | cons m ms => exact delimited_cons (by decide) _

theorem readMoreMembers_spelled {ms : List SpelledMember} (h : ∀ m ∈ ms, Spelled m)
    (rest : Text) : ∀ fuel, (moreMembersText ms).length ≤ fuel →
      readMoreMembers fuel (moreMembersText ms ++ rest)
        = some (ms.map (fun m => (m.1, m.2.2)), rest) := by
  induction ms with
  | nil =>
    intro fuel hfuel
    obtain ⟨fuel, rfl⟩ := Nat.exists_eq_succ_of_ne_zero (Nat.ne_zero_of_lt hfuel)
    rfl
  | cons m ms ih =>
    intro fuel hfuel
    obtain ⟨hm, hms⟩ := List.forall_mem_cons.mp h
    simp only [moreMembersText, List.length_append, List.length_cons] at hfuel
    obtain ⟨fuel, rfl⟩ := Nat.exists_eq_succ_of_ne_zero (show fuel ≠ 0 by omega)
    have hpos : 0 < (memberText m).length := Nat.succ_pos _
    rw [moreMembersText, List.append_assoc, List.cons_append]
    show (readMember fuel (memberText m ++ (moreMembersText ms ++ rest))).bind _ = _
    rw [readMember_spelled hm (delimited_moreMembersText ms rest) (by omega), Option.bind_some,
      ih hms fuel (by omega)]
    rfl

/-- **An object is spelled by its members**, where their keys are all different. -/
theorem spells_object {m : SpelledMember} {ms : List SpelledMember}
    (h : ∀ m' ∈ m :: ms, Spelled m') (hkeys : ((m :: ms).map Prod.fst).Nodup) :
    Spells (objectText m ms) (.object ((m :: ms).map (fun m => (m.1, m.2.2)))) where
  opens := ⟨'\x7b', _, rfl, by decide, by decide, by decide⟩
  reads fuel rest _ hfuel := by
    obtain ⟨hm, hms⟩ := List.forall_mem_cons.mp h
    simp only [objectText, List.length_append, List.length_cons] at hfuel
    have hpos : 0 < (memberText m).length := Nat.succ_pos _
    have hpos' : 0 < (moreMembersText ms).length := by
      cases ms with
      | nil => exact Nat.succ_pos _
      | cons m' ms => exact Nat.succ_pos _
    obtain ⟨fuel, rfl⟩ := Nat.exists_eq_add_of_le' (show 2 ≤ fuel by omega)
    have hmembers : readMembers (fuel + 1) (memberText m ++ (moreMembersText ms ++ rest))
        = some ((m :: ms).map (fun m => (m.1, m.2.2)), rest) := by
      show (readMember fuel (memberText m ++ (moreMembersText ms ++ rest))).bind _ = _
      rw [readMember_spelled hm (delimited_moreMembersText ms rest) (by omega), Option.bind_some,
        readMoreMembers_spelled hms rest fuel (by omega)]
      rfl
    rw [objectText, List.append_assoc, List.cons_append]
    show (readMembers (fuel + 1) (memberText m ++ (moreMembersText ms ++ rest))).map _ = _
    rw [hmembers, Option.map_some]
    have hdistinct : (([] ++ (m :: ms).map (fun m : SpelledMember => (m.1, m.2.2))).map
        Prod.fst).Nodup := by
      rw [List.nil_append, List.map_map]
      exact hkeys
    exact congrArg (fun v => some (v, rest)) (foldl_setMember hdistinct)

/-! ## Arrays -/

/-- The text of the elements after the first one. -/
def moreElemsText : List (Text × Json) → Text
  | [] => [']']
  | e :: es => ',' :: e.1 ++ moreElemsText es

/-- The text of an array. -/
def arrayText (e : Text × Json) (es : List (Text × Json)) : Text := '[' :: e.1 ++ moreElemsText es

theorem delimited_moreElemsText (es : List (Text × Json)) (rest : Text) :
    Delimited (moreElemsText es ++ rest) := by
  cases es with
  | nil => exact delimited_cons (by decide) _
  | cons e es => exact delimited_cons (by decide) _

theorem readMoreElems_spelled {es : List (Text × Json)} (h : ∀ e ∈ es, Spells e.1 e.2)
    (rest : Text) : ∀ fuel, (moreElemsText es).length ≤ fuel →
      readMoreElems fuel (moreElemsText es ++ rest) = some (es.map Prod.snd, rest) := by
  induction es with
  | nil =>
    intro fuel hfuel
    obtain ⟨fuel, rfl⟩ := Nat.exists_eq_succ_of_ne_zero (Nat.ne_zero_of_lt hfuel)
    rfl
  | cons e es ih =>
    intro fuel hfuel
    obtain ⟨he, hes⟩ := List.forall_mem_cons.mp h
    simp only [moreElemsText, List.length_append, List.length_cons] at hfuel
    obtain ⟨fuel, rfl⟩ := Nat.exists_eq_succ_of_ne_zero (show fuel ≠ 0 by omega)
    obtain ⟨c, s, hopens, -⟩ := he.opens
    have hpos : 0 < e.1.length := by
      rw [hopens]
      exact Nat.succ_pos _
    rw [moreElemsText, List.append_assoc, List.cons_append]
    show (readValue fuel (e.1 ++ (moreElemsText es ++ rest))).bind _ = _
    rw [he.reads fuel _ (delimited_moreElemsText es rest) (by omega), Option.bind_some,
      ih hes fuel (by omega)]
    rfl

/-- **An array is spelled by its elements.** -/
theorem spells_array {e : Text × Json} {es : List (Text × Json)}
    (h : ∀ e' ∈ e :: es, Spells e'.1 e'.2) :
    Spells (arrayText e es) (.array ((e :: es).map Prod.snd)) where
  opens := ⟨'[', _, rfl, by decide, by decide, by decide⟩
  reads fuel rest _ hfuel := by
    obtain ⟨he, hes⟩ := List.forall_mem_cons.mp h
    simp only [arrayText, List.length_append, List.length_cons] at hfuel
    obtain ⟨c, s, hopens, hc⟩ := he.opens
    have hpos : 0 < e.1.length := by
      rw [hopens]
      exact Nat.succ_pos _
    have hpos' : 0 < (moreElemsText es).length := by
      cases es with
      | nil => exact Nat.succ_pos _
      | cons e' es => exact Nat.succ_pos _
    obtain ⟨fuel, rfl⟩ := Nat.exists_eq_add_of_le' (show 2 ≤ fuel by omega)
    have helems : readElems (fuel + 1) (e.1 ++ (moreElemsText es ++ rest))
        = some ((e :: es).map Prod.snd, rest) := by
      unfold readElems
      rw [he.skip]
      split
      · rename_i t heq
        rw [hopens] at heq
        exact absurd (List.cons.inj heq).1 hc.2.1
      · rw [he.reads fuel _ (delimited_moreElemsText es rest) (by omega), Option.bind_some,
          readMoreElems_spelled hes rest fuel (by omega)]
        rfl
    rw [arrayText, List.append_assoc, List.cons_append]
    show (readElems (fuel + 1) (e.1 ++ (moreElemsText es ++ rest))).map _ = _
    rw [helems]
    rfl

/-- **A text that spells a container is a document.** -/
theorem loads_of_spells {t : Text} {v : Json} (h : Spells t v) (hv : v.isContainer = true) :
    loads t = some v := by
  have hread := h.reads (t.length + 1) [] (by rintro _ _ ⟨⟩) (Nat.le_succ _)
  rw [List.append_nil] at hread
  unfold loads
  rw [hread]
  exact if_pos ⟨hv, rfl⟩

end JsonText
