import Mathlib

/-!
# Strings of a JSON text

How a JSON string is scanned, byte by byte: what follows its opening quote is bytes that
stand for themselves and escapes, up to the quote that ends it. An escape of four
hexadecimal digits is a unit of UTF-16, and two of them may be needed for one character,
which is written in UTF-8. A byte that stands for itself must be neither a quote nor a
backslash nor a control character; whether bytes are valid UTF-8 is not looked at.

The scanner is a step on states (`JsonString.step`), and a text that leads from the plain
state back to it is the escaped form of what it has put out (`IsEscaped`). Escaped forms
can be joined, and the scanner stops behind one exactly at the quote that follows
(`IsEscaped.scan`).

The same steps cut a whole text into tokens, each string being one (`tokens`).
-/

namespace JsonString

/-! ## The scanner -/

/-- The value of a hexadecimal digit. -/
def hexValue (c : Char) : Option ℕ :=
  if '0' ≤ c ∧ c ≤ '9' then some (c.toNat - 48)
  else if 'a' ≤ c ∧ c ≤ 'f' then some (c.toNat - 87)
  else if 'A' ≤ c ∧ c ≤ 'F' then some (c.toNat - 55)
  else none

/-- A character in UTF-8. -/
def utf8 (n : ℕ) : List Char :=
  if n < 0x80 then [Char.ofNat n]
  else if n < 0x800 then [Char.ofNat (0xC0 + n / 0x40), Char.ofNat (0x80 + n % 0x40)]
  else if n < 0x10000 then
    [Char.ofNat (0xE0 + n / 0x1000), Char.ofNat (0x80 + n / 0x40 % 0x40),
      Char.ofNat (0x80 + n % 0x40)]
  else
    [Char.ofNat (0xF0 + n / 0x40000), Char.ofNat (0x80 + n / 0x1000 % 0x40),
      Char.ofNat (0x80 + n / 0x40 % 0x40), Char.ofNat (0x80 + n % 0x40)]

/-- The escapes of one letter, and what they stand for. -/
def letters : List (Char × Char) :=
  [('"', '"'), ('\\', '\\'), ('/', '/'), ('b', '\x08'), ('f', '\x0c'), ('n', '\n'), ('r', '\r'),
    ('t', '\t')]

/-- What a letter after a backslash stands for. -/
def letter (c : Char) : Option Char := (letters.find? (fun e => e.1 = c)).map Prod.snd

/-- Where a scan is within a string. -/
inductive State
  | plain
  /-- After a backslash. -/
  | escape
  /-- In a unit of UTF-16, after some of its digits. There is a first half where this is to
  be the second of a pair. -/
  | unit (high : Option ℕ) (digits value : ℕ)
  /-- After the first half of a pair. -/
  | low (high : ℕ)
  /-- After the first half of a pair and a backslash. -/
  | lowEscape (high : ℕ)
  deriving DecidableEq

/-- A unit of UTF-16 is complete. -/
def unitDone (high : Option ℕ) (n : ℕ) : Option (List Char × State) :=
  match high with
  | none =>
    if 0xD800 ≤ n ∧ n < 0xDC00 then some ([], .low n)
    else if 0xDC00 ≤ n ∧ n < 0xE000 then none
    else some (utf8 n, .plain)
  | some h =>
    if 0xDC00 ≤ n ∧ n < 0xE000 then
      some (utf8 (0x10000 + (h - 0xD800) * 0x400 + (n - 0xDC00)), .plain)
    else none

/-- **One byte within a string**: what it puts out, and the next state. -/
def step : State → Char → Option (List Char × State)
  | .plain, c =>
    if c = '"' ∨ c.toNat < 0x20 then none
    else if c = '\\' then some ([], .escape)
    else some ([c], .plain)
  | .escape, c =>
    if c = 'u' then some ([], .unit none 0 0) else (letter c).map fun x => ([x], .plain)
  | .unit high digits value, c =>
    (hexValue c).bind fun v =>
      if digits = 3 then unitDone high (16 * value + v)
      else some ([], .unit high (digits + 1) (16 * value + v))
  | .low high, c => if c = '\\' then some ([], .lowEscape high) else none
  | .lowEscape high, c => if c = 'u' then some ([], .unit (some high) 0 0) else none

/-- What is scanned from a state on, and what follows the closing quote. -/
def scanFrom : State → List Char → Option (List Char × List Char)
  | _, [] => none
  | st, c :: s =>
    if st = .plain ∧ c = '"' then some ([], s)
    else (step st c).bind fun p => (scanFrom p.2 s).map fun q => (p.1 ++ q.1, q.2)

/-- **The scan of a string** after its opening quote. -/
def scan (s : List Char) : Option (List Char × List Char) := scanFrom .plain s

/-! ## Escaped forms -/

/-- The steps for a text none of whose bytes closes the string. -/
def feed : State → List Char → Option (List Char × State)
  | st, [] => some ([], st)
  | st, c :: s => (step st c).bind fun p => (feed p.2 s).map fun q => (p.1 ++ q.1, q.2)

/-- **A text is an escaped form of another.** -/
def IsEscaped (t out : List Char) : Prop := feed .plain t = some (out, .plain)

instance (t out : List Char) : Decidable (IsEscaped t out) := inferInstanceAs (Decidable (_ = _))

theorem feed_append (st : State) (s t : List Char) :
    feed st (s ++ t)
      = (feed st s).bind fun p => (feed p.2 t).map fun q => (p.1 ++ q.1, q.2) := by
  induction s generalizing st with
  | nil =>
    show feed st t = (feed st t).map fun q => ([] ++ q.1, q.2)
    cases feed st t <;> rfl
  | cons c s ih =>
    show (step st c).bind (fun p => (feed p.2 (s ++ t)).map _) = _
    show _ = ((step st c).bind fun p => (feed p.2 s).map fun q => (p.1 ++ q.1, q.2)).bind _
    cases step st c with
    | none => rfl
    | some p =>
      rw [Option.bind_some, Option.bind_some, ih]
      cases feed p.2 s with
      | none => rfl
      | some q =>
        rw [Option.bind_some, Option.map_some, Option.bind_some]
        dsimp only
        cases feed q.2 t with
        | none => rfl
        | some r =>
          simp only [Option.map_some, List.append_assoc]

/-- A text that is fed begins with a byte that is no closing quote. -/
theorem feed_cons {st st' : State} {c : Char} {t out : List Char}
    (h : feed st (c :: t) = some (out, st')) :
    ¬ (st = .plain ∧ c = '"') ∧ ∃ p rest, step st c = some p ∧ feed p.2 t = some (rest, st')
      ∧ out = p.1 ++ rest := by
  obtain ⟨p, hp, hfeed⟩ := Option.bind_eq_some_iff.mp h
  obtain ⟨q, hq, heq⟩ := Option.map_eq_some_iff.mp hfeed
  obtain ⟨rfl, rfl⟩ := Prod.mk.inj heq
  refine ⟨?_, p, q.1, hp, hq, rfl⟩
  rintro ⟨rfl, rfl⟩
  cases hp

/-- What has been fed is scanned. -/
theorem scanFrom_feed {st st' : State} {t out : List Char} (h : feed st t = some (out, st'))
    (rest : List Char) :
    scanFrom st (t ++ rest) = (scanFrom st' rest).map fun q => (out ++ q.1, q.2) := by
  induction t generalizing st out with
  | nil =>
    obtain ⟨rfl, rfl⟩ := Prod.mk.inj (Option.some.inj h)
    show scanFrom st rest = (scanFrom st rest).map fun q => ([] ++ q.1, q.2)
    cases scanFrom st rest <;> rfl
  | cons c t ih =>
    obtain ⟨hopen, p, q, hp, hq, rfl⟩ := feed_cons h
    rw [List.cons_append, scanFrom, if_neg hopen, hp, Option.bind_some, ih hq, Option.map_map]
    refine congrFun (congrArg _ (funext fun r => ?_)) _
    rw [Function.comp_apply, List.append_assoc]

namespace IsEscaped

theorem nil : IsEscaped [] [] := rfl

theorem append {s t a b : List Char} (hs : IsEscaped s a) (ht : IsEscaped t b) :
    IsEscaped (s ++ t) (a ++ b) := by
  unfold IsEscaped at hs ht ⊢
  rw [feed_append, hs, Option.bind_some, ht, Option.map_some]

/-- A byte that stands for itself. -/
theorem plain {c : Char} (hquote : c ≠ '"') (hslash : c ≠ '\\') (hc : 0x20 ≤ c.toNat) :
    IsEscaped [c] [c] := by
  have hstep : step .plain c = some ([c], .plain) := by
    rw [step, if_neg (not_or.mpr ⟨hquote, not_lt.mpr hc⟩), if_neg hslash]
  show (step .plain c).bind _ = _
  rw [hstep]
  rfl

/-- **A text escaped byte by byte.** -/
theorem flatMap {f : Char → List Char} {s : List Char} (h : ∀ c ∈ s, IsEscaped (f c) [c]) :
    IsEscaped (s.flatMap f) s := by
  induction s with
  | nil => exact nil
  | cons c s ih =>
    rw [List.forall_mem_cons] at h
    rw [List.flatMap_cons]
    exact append h.1 (ih h.2)

/-- **The scan of an escaped form** stops at the quote behind it. -/
theorem scan {t s : List Char} (h : IsEscaped t s) (rest : List Char) :
    scan (t ++ '"' :: rest) = some (s, rest) := by
  show scanFrom .plain (t ++ '"' :: rest) = _
  rw [scanFrom_feed h, scanFrom, if_pos ⟨rfl, rfl⟩, Option.map_some, List.append_nil]

end IsEscaped

/-! ## No control characters -/

theorem hexValue_not_control {c : Char} (h : hexValue c ≠ none) : 0x20 ≤ c.toNat := by
  have hle : ∀ {d : Char}, d ≤ c → 0x20 ≤ d.toNat → 0x20 ≤ c.toNat :=
    fun hdc hd => hd.trans (UInt32.le_iff_toNat_le.mp hdc)
  unfold hexValue at h
  split at h
  · rename_i hc
    exact hle hc.1 (by decide)
  · split at h
    · rename_i hc
      exact hle hc.1 (by decide)
    · split at h
      · rename_i hc
        exact hle hc.1 (by decide)
      · exact absurd rfl h

theorem letter_not_control {c x : Char} (h : letter c = some x) : 0x20 ≤ c.toNat := by
  obtain ⟨e, he, -⟩ := Option.map_eq_some_iff.mp h
  have hc : e.1 = c := by simpa using List.find?_some he
  rw [← hc]
  exact (by decide : ∀ e ∈ letters, 0x20 ≤ e.1.toNat) e (List.mem_of_find?_eq_some he)

/-- No state has a step for a control character. -/
theorem step_not_control {st : State} {c : Char} {p : List Char × State}
    (h : step st c = some p) : 0x20 ≤ c.toNat := by
  cases st with
  | plain =>
    rw [step] at h
    split at h
    · exact nomatch h
    · rename_i hc
      exact not_lt.mp (not_or.mp hc).2
  | escape =>
    rw [step] at h
    split at h
    · rename_i hc
      rw [hc]
      decide
    · obtain ⟨x, hx, -⟩ := Option.map_eq_some_iff.mp h
      exact letter_not_control hx
  | unit high digits value =>
    obtain ⟨v, hv, -⟩ := Option.bind_eq_some_iff.mp h
    exact hexValue_not_control (by simp [hv])
  | low high =>
    rw [step] at h
    split at h
    · rename_i hc
      rw [hc]
      decide
    · exact nomatch h
  | lowEscape high =>
    rw [step] at h
    split at h
    · rename_i hc
      rw [hc]
      decide
    · exact nomatch h

/-- **No byte of an escaped form is a control character.** The induction is on the text,
from any state. -/
theorem IsEscaped.not_control {t s : List Char} (h : IsEscaped t s) :
    ∀ c ∈ t, 0x20 ≤ c.toNat := by
  have hfeed : ∀ {st : State} {t : List Char} {p : List Char × State}, feed st t = some p →
      ∀ c ∈ t, 0x20 ≤ c.toNat := by
    intro st t
    induction t generalizing st with
    | nil => exact fun _ c hc => absurd hc List.not_mem_nil
    | cons c t ih =>
      intro p h
      obtain ⟨q, hq, hrest⟩ := Option.bind_eq_some_iff.mp h
      obtain ⟨r, hr, -⟩ := Option.map_eq_some_iff.mp hrest
      rw [List.forall_mem_cons]
      exact ⟨step_not_control hq, ih hr⟩
  exact hfeed h

/-! ## Tokens -/

/-- A token: a string, or a byte outside of any. -/
inductive Token
  | char (c : Char)
  | string (s : List Char)
  deriving DecidableEq

/-- The tokens of a text: none outside of a string, or the state within one and what has
been scanned of it. -/
def tokensFrom : Option (State × List Char) → List Char → Option (List Token)
  | none, [] => some []
  | some _, [] => none
  | none, c :: s =>
    if c = '"' then tokensFrom (some (.plain, [])) s else (tokensFrom none s).map (.char c :: ·)
  | some (st, out), c :: s =>
    if st = .plain ∧ c = '"' then (tokensFrom none s).map (.string out :: ·)
    else (step st c).bind fun p => tokensFrom (some (p.2, out ++ p.1)) s

/-- **The tokens of a text**: none where a string is malformed, or does not end. -/
def tokens (s : List Char) : Option (List Token) := tokensFrom none s

theorem tokensFrom_feed {st st' : State} {t out : List Char} (h : feed st t = some (out, st'))
    (before rest : List Char) :
    tokensFrom (some (st, before)) (t ++ rest)
      = tokensFrom (some (st', before ++ out)) rest := by
  induction t generalizing st out before with
  | nil =>
    obtain ⟨rfl, rfl⟩ := Prod.mk.inj (Option.some.inj h)
    rw [List.append_nil, List.nil_append]
  | cons c t ih =>
    obtain ⟨hopen, p, q, hp, hq, rfl⟩ := feed_cons h
    rw [List.cons_append, tokensFrom, if_neg hopen, hp, Option.bind_some, ih hq,
      List.append_assoc]

/-- **An escaped form between quotes is one token**, whatever follows. -/
theorem IsEscaped.tokens {t s : List Char} (h : IsEscaped t s) (rest : List Char) :
    tokens ('"' :: t ++ '"' :: rest) = (tokens rest).map (.string s :: ·) := by
  show tokensFrom (some (.plain, [])) (t ++ '"' :: rest) = _
  rw [tokensFrom_feed h, tokensFrom, if_pos ⟨rfl, rfl⟩]
  rfl

/-- What stands before a token is cut up by itself. -/
theorem tokens_append {s : List Char} {ts : List Token} (h : tokens s = some ts)
    (rest : List Char) : tokens (s ++ rest) = (tokens rest).map (ts ++ ·) := by
  have hfrom : ∀ {s : List Char} {inside : Option (State × List Char)} {ts : List Token},
      tokensFrom inside s = some ts →
      tokensFrom inside (s ++ rest) = (tokensFrom none rest).map (ts ++ ·) := by
    intro s
    induction s with
    | nil =>
      intro inside ts h
      cases inside with
      | none =>
        obtain rfl := Option.some.inj h
        show tokensFrom none rest = (tokensFrom none rest).map ([] ++ ·)
        cases tokensFrom none rest <;> rfl
      | some p => exact nomatch h
    | cons c s ih =>
      intro inside ts h
      cases inside with
      | none =>
        rw [tokensFrom] at h
        rw [List.cons_append, tokensFrom]
        split at h
        · rename_i hc
          rw [if_pos hc]
          exact ih h
        · rename_i hc
          obtain ⟨us, hus, rfl⟩ := Option.map_eq_some_iff.mp h
          rw [if_neg hc, ih hus, Option.map_map]
          rfl
      | some p =>
        obtain ⟨st, out⟩ := p
        rw [tokensFrom] at h
        rw [List.cons_append, tokensFrom]
        split at h
        · rename_i hc
          obtain ⟨us, hus, rfl⟩ := Option.map_eq_some_iff.mp h
          rw [if_pos hc, ih hus, Option.map_map]
          rfl
        · rename_i hc
          obtain ⟨q, hq, hrest⟩ := Option.bind_eq_some_iff.mp h
          rw [if_neg hc, hq, Option.bind_some]
          exact ih hrest
  exact hfrom h

end JsonString
