import IrodsMicroservices.JsonObjOrder

/-!
# The search in a JSON array

What a call of `msi_json_arrayops` does to a document depends on the document and the
value alone. The search behind `add`, `find` and `rm` is one (`found`): it goes through as
many elements as an `int` counts (`searched`), from the front, and what it finds depends
on the elements up to `json_equal` only (`found_equal`). What each operation makes of what
is found is said once (`applyOp_add`, `applyOp_find_eq`, `applyOp_rm`), and so is what a
call does to a text that holds an array (`callArray_eq`, `holdsArray_text`).
-/

/-! ## The search -/

/-- The elements the search goes through. -/
def searched (es : List Json) : List Json := es.take (intOfSize es.length).toNat

/-- **The position the search finds**: of the first element it goes through that is equal
to the value. -/
def found (es : List Json) (jval : Option Json) : Option ℕ :=
  (searched es).findIdx? (equalVal jval)

/-- What an `int` makes of a size. -/
theorem intOfSize_spec (n : ℕ) : intOfSize n ≤ n ∧ intOfSize n < 2 ^ 31 ∧ -2 ^ 31 ≤ intOfSize n := by
  unfold intOfSize
  rw [BitVec.toInt_eq_toNat_cond, BitVec.toNat_ofNat]
  split <;> omega

theorem sizeOfInt_of_nonneg {i : ℤ} (h : 0 ≤ i) (hlt : i < 2 ^ 31) : sizeOfInt i = i.toNat := by
  unfold sizeOfInt
  rw [BitVec.toNat_ofInt]
  omega

theorem toNat_le_sizeOfInt {i : ℤ} (hlt : i < 2 ^ 31) : i.toNat ≤ sizeOfInt i := by
  by_cases h : 0 ≤ i
  · exact (sizeOfInt_of_nonneg h hlt).ge
  · rw [Int.toNat_eq_zero.mpr (le_of_not_ge h)]
    exact Nat.zero_le _

theorem length_searched (es : List Json) :
    (searched es).length = (intOfSize es.length).toNat := by
  have hle := (intOfSize_spec es.length).1
  rw [searched, List.length_take]
  omega

/-- An array whose size is an `int` is searched to its end. -/
theorem searched_of_lt {es : List Json} (h : es.length < 2 ^ 31) : searched es = es := by
  rw [searched, intOfSize_of_lt h, Int.toNat_natCast, List.take_length]

theorem mem_of_mem_searched {es : List Json} {e : Json} (h : e ∈ searched es) : e ∈ es :=
  List.mem_of_mem_take h

section Search

variable {es fs : List Json} {jval : Option Json} {i : ℕ}

theorem found_eq_none_iff : found es jval = none ↔ ∀ e ∈ searched es, equalVal jval e = false :=
  List.findIdx?_eq_none_iff

/-- What is found is an element that is equal, and none before it is. -/
theorem found_eq_some_iff : found es jval = some i ↔ i < (searched es).length
    ∧ (∃ e, es[i]? = some e ∧ equalVal jval e = true)
    ∧ ∀ j < i, ∀ e, es[j]? = some e → equalVal jval e = false := by
  have hget : ∀ {j}, j < (searched es).length → (searched es)[j]? = es[j]? := by
    intro j hj
    rw [length_searched] at hj
    exact List.getElem?_take_of_lt hj
  unfold found
  rw [List.findIdx?_eq_some_iff_getElem]
  constructor
  · rintro ⟨hlt, hhit, hbefore⟩
    refine ⟨hlt, ⟨_, (hget hlt).symm.trans (List.getElem?_eq_getElem hlt), hhit⟩, ?_⟩
    intro j hj e he
    have hj' := hj.trans hlt
    rw [← hget hj', List.getElem?_eq_getElem hj'] at he
    obtain rfl := Option.some.inj he
    exact Bool.eq_false_of_not_eq_true (hbefore j hj)
  · rintro ⟨hlt, ⟨e, he, hhit⟩, hbefore⟩
    rw [← hget hlt, List.getElem?_eq_getElem hlt] at he
    obtain rfl := Option.some.inj he
    refine ⟨hlt, hhit, fun j hj h => ?_⟩
    have hj' := hj.trans hlt
    have hmiss := hbefore j hj _ ((hget hj').symm.trans (List.getElem?_eq_getElem hj'))
    exact absurd (h.symm.trans hmiss) (by simp)

theorem found_lt (h : found es jval = some i) : i < es.length :=
  (found_eq_some_iff.mp h).1.trans_le (List.length_take_le' _ _)

/-- Something is found exactly where an element it goes through is equal. -/
theorem found_ne_none_iff : found es jval ≠ none ↔ ∃ e ∈ searched es, equalVal jval e = true := by
  rw [ne_eq, found_eq_none_iff]
  simp

/-- What is found is where the first hit is. -/
theorem findsLeast_of_found (h : found es jval = some i) :
    FindsLeast (es.map (equalVal jval)) i := by
  obtain ⟨-, ⟨e, he, hhit⟩, hbefore⟩ := found_eq_some_iff.mp h
  refine .inl ⟨i, rfl, by rw [List.getElem?_map, he, Option.map_some, hhit], fun j hj => ?_⟩
  have hj' : j < es.length := hj.trans (found_lt h)
  rw [List.getElem?_map, List.getElem?_eq_getElem hj', Option.map_some]
  exact congrArg some (hbefore j hj _ (List.getElem?_eq_getElem hj'))

/-- What is found depends on which elements are hit. -/
theorem found_eq_findIdx_hits : found es jval
    = ((es.map (equalVal jval)).take (intOfSize es.length).toNat).findIdx? id := by
  rw [← List.map_take, List.findIdx?_map, Function.id_comp]
  rfl

/-- In equal arrays the same position is found. -/
theorem found_equal (jval : Option Json) (h : EqualElems es fs) (hes : ∀ e ∈ es, e.Valid)
    (hfs : ∀ f ∈ fs, f.Valid) : found es jval = found fs jval := by
  rw [found_eq_findIdx_hits, found_eq_findIdx_hits, map_equalVal jval h hes hfs, h.length_eq]

/-- The position `findMatch` returns is the one that is found, and else the size. -/
theorem findMatch_eq : findMatch es jval (intOfSize es.length)
    = (found es jval).getD (sizeOfInt (intOfSize es.length)) := by
  have hlen := length_searched es
  unfold findMatch
  dsimp only
  rw [← searched, ← hlen]
  cases h : found es jval with
  | none =>
    rw [List.findIdx?_eq_none_iff_findIdx_eq.mp h, if_neg (Nat.lt_irrefl _), Option.getD_none]
  | some i =>
    obtain ⟨hlt, hidx⟩ := List.findIdx?_eq_some_iff_findIdx_eq.mp h
    rw [hidx, if_pos hlt, Option.getD_some]

theorem found_lt_size (h : found es jval = some i) : i < sizeOfInt (intOfSize es.length) := by
  have hlt := (found_eq_some_iff.mp h).1
  rw [length_searched] at hlt
  exact hlt.trans_le (toNat_le_sizeOfInt (intOfSize_spec _).2.1)

theorem intOfSize_found (h : found es jval = some i) : intOfSize i = i := by
  have hlt := (found_eq_some_iff.mp h).1
  have hint := (intOfSize_spec es.length).2.1
  rw [length_searched] at hlt
  exact intOfSize_of_lt (by omega)

end Search

/-! ## The operations -/

/-- What `add` makes of the elements: a boolean, and what is not found, is appended. -/
def afterAdd (es : List Json) (jval : Option Json) : List Json :=
  if isBooleanVal jval = true ∨ found es jval = none then Json.appendNew es jval else es

/-- What `rm` makes of the elements. -/
def afterRm (es : List Json) (jval : Option Json) : List Json :=
  match found es jval with
  | some i => es.eraseIdx i
  | none => es

section ApplyOp

variable {J : Jansson} {inIdx : ℤ} {es : List Json} {jval : Option Json}

theorem applyOp_add : applyOp J "add".toList inIdx es jval
    = some ⟨afterAdd es jval, none, intOfSize (afterAdd es jval).length⟩ := by
  have hcond : findMatch es jval (intOfSize es.length) = sizeOfInt (intOfSize es.length)
      ↔ found es jval = none := by
    rw [findMatch_eq]
    cases h : found es jval with
    | none => exact iff_of_true rfl rfl
    | some i => exact iff_of_false (Nat.ne_of_lt (found_lt_size h)) (fun h => nomatch h)
  unfold applyOp afterAdd
  dsimp only
  rw [if_pos rfl, if_congr (or_congr_right hcond) rfl rfl]
  split <;> rfl

theorem applyOp_find_eq : applyOp J "find".toList inIdx es jval
    = some ⟨es, none, (found es jval).elim (-1) (fun i => (i : ℤ))⟩ := by
  unfold applyOp
  dsimp only
  rw [if_neg (by decide), if_pos (.inl rfl), findMatch_eq]
  cases h : found es jval with
  | none =>
    rw [Option.getD_none, if_neg (Nat.lt_irrefl _), if_pos rfl]
    rfl
  | some i =>
    rw [Option.getD_some, if_pos (found_lt_size h), if_neg (by decide), intOfSize_found h]
    rfl

theorem applyOp_rm : applyOp J "rm".toList inIdx es jval
    = some ⟨afterRm es jval, none, intOfSize (afterRm es jval).length⟩ := by
  unfold applyOp afterRm
  dsimp only
  rw [if_neg (by decide), if_pos (.inr rfl), findMatch_eq]
  cases h : found es jval with
  | none => rw [Option.getD_none, if_neg (Nat.lt_irrefl _), if_neg (by decide)]
  | some i => rw [Option.getD_some, if_pos (found_lt_size h), if_pos rfl]

theorem valid_afterAdd (hes : ∀ e ∈ es, e.Valid) (hjval : ∀ v, jval = some v → v.Valid) :
    ∀ e ∈ afterAdd es jval, e.Valid := by
  unfold afterAdd
  split
  · exact (appendNew_valid hes hjval).elems
  · exact hes

theorem valid_afterRm (jval : Option Json) (hes : ∀ e ∈ es, e.Valid) : ∀ e ∈ afterRm es jval, e.Valid := by
  unfold afterRm
  split
  · exact fun e he => hes e (List.mem_of_mem_eraseIdx he)
  · exact hes

/-- In equal arrays the same is removed. -/
theorem afterRm_equal (jval : Option Json) {fs : List Json} (h : EqualElems es fs)
    (hes : ∀ e ∈ es, e.Valid) (hfs : ∀ f ∈ fs, f.Valid) : EqualElems (afterRm es jval) (afterRm fs jval) := by
  unfold afterRm
  rw [found_equal jval h hes hfs]
  split
  · rw [List.eraseIdx_eq_take_drop_succ, List.eraseIdx_eq_take_drop_succ]
    exact List.rel_append (List.forall₂_take _ h) (List.forall₂_drop _ h)
  · exact h

end ApplyOp

/-! ## A call on a document -/

/-- **A document**: a text from which an array is read. -/
structure HoldsArray (J : Jansson) (doc : Text) (es : List Json) : Prop where
  ne_null : doc ≠ "null".toList
  loads : J.loads (if doc = [] then "[]".toList else doc) = some (.array es)

section Call

variable {J : Jansson} {doc v : Text} {es fs : List Json} {inIdx : ℤ}

theorem HoldsArray.valid (hJ : J.Lawful) (h : HoldsArray J doc es) : ∀ e ∈ es, e.Valid :=
  (hJ.loads_valid h.loads).elems

/-- **What is stored of an array is a document that holds it.** -/
theorem holdsArray_text (hJ : J.Lawful) (hstrict : J.Strict) (hes : ∀ e ∈ es, e.Valid) :
    ∃ fs, HoldsArray J (J.text 0 (.array es)) fs ∧ EqualElems es fs := by
  obtain ⟨w, hw, hequal⟩ := hJ.loads_text 0 (.array hes) rfl
  obtain ⟨hempty, hnull⟩ := Jansson.Strict.text_ne hJ hstrict 0 (.array hes) rfl
  cases w with
  | array fs =>
    exact ⟨fs, ⟨hnull, by rw [if_neg hempty]; exact hw⟩, (Json.equal_array _ _).mp hequal⟩
  | _ => exact nomatch hequal

/-- **A call on a document** does what its operation does. -/
theorem msiJsonArrayops_eq {jsonStr val ops : MsParam} {o : Text} (inIdx : ℤ)
    (hdoc : jsonStr.parseMspForStr = some doc) (h : HoldsArray J doc es)
    (hops : ops.parseMspForStr = some o) (hval : val.parseMspForStr = some v) :
    msiJsonArrayops J jsonStr val ops inIdx
      = match applyOp J o inIdx es (decodeVal J v) with
        | none => ⟨.named .sysInvalidInputParam, none, none, none⟩
        | some r => ⟨.num 0, some (J.text 0 (.array r.elems)), r.val, some r.sizeOrIndex⟩ := by
  unfold msiJsonArrayops
  dsimp only
  rw [hdoc, hops, hval]
  dsimp only
  rw [h.loads]
  rfl

/-- A call with an operation, on a document. -/
def callArray (J : Jansson) (doc v ops : Text) (inIdx : ℤ) : ArrayopsResult :=
  msiJsonArrayops J (.ofText doc) (.ofText v) (.ofText ops) inIdx

theorem callArray_eq (h : HoldsArray J doc es) (hv : v ≠ "null".toList) {ops : Text}
    (hops : ops ≠ "null".toList) : callArray J doc v ops inIdx
      = match applyOp J ops inIdx es (decodeVal J v) with
        | none => ⟨.named .sysInvalidInputParam, none, none, none⟩
        | some r => ⟨.num 0, some (J.text 0 (.array r.elems)), r.val, some r.sizeOrIndex⟩ :=
  msiJsonArrayops_eq _ (MsParam.parseMspForStr_ofText h.ne_null) h
    (MsParam.parseMspForStr_ofText hops) (MsParam.parseMspForStr_ofText hv)

theorem callArray_add (h : HoldsArray J doc es) (hv : v ≠ "null".toList) :
    callArray J doc v "add".toList inIdx
      = ⟨.num 0, some (J.text 0 (.array (afterAdd es (decodeVal J v)))), none,
        some (intOfSize (afterAdd es (decodeVal J v)).length)⟩ := by
  rw [callArray_eq h hv (by decide), applyOp_add]

theorem callArray_find (h : HoldsArray J doc es) (hv : v ≠ "null".toList) :
    callArray J doc v "find".toList inIdx
      = ⟨.num 0, some (J.text 0 (.array es)), none,
        some ((found es (decodeVal J v)).elim (-1) (fun i => (i : ℤ)))⟩ := by
  rw [callArray_eq h hv (by decide), applyOp_find_eq]

theorem callArray_rm (h : HoldsArray J doc es) (hv : v ≠ "null".toList) :
    callArray J doc v "rm".toList inIdx
      = ⟨.num 0, some (J.text 0 (.array (afterRm es (decodeVal J v)))), none,
        some (intOfSize (afterRm es (decodeVal J v)).length)⟩ := by
  rw [callArray_eq h hv (by decide), applyOp_rm]

/-- A call whose value is the text `null` is refused. -/
theorem callArray_null (J : Jansson) (doc ops : Text) (inIdx : ℤ) :
    callArray J doc "null".toList ops inIdx = ⟨.named .sysInvalidInputParam, none, none, none⟩ := by
  unfold callArray msiJsonArrayops
  rw [show (MsParam.ofText "null".toList).parseMspForStr = none from rfl]
  dsimp only
  split
  · rename_i h
    exact nomatch h
  · rfl

end Call
