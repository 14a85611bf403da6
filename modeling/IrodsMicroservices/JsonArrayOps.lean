import IrodsMicroservices.JsonText
import IrodsMicroservices.Status

/-!
# Operations on a JSON array

`msi_json_arrayops` keeps a list of values as the text of a JSON array. Every
call reads the text, carries out an operation on it and writes it again. A value
is added only where no element is equal to it – booleans excepted – so that the
array is a set but for its booleans (`ElemsOk`), through any run of calls.

The size of the array is held in an `int`. `arrayops_run` is about runs in which
no document reaches `2^31` elements; `size_overflows` is the run in which one
does.
-/

/-- `(int) n`, for a `size_t`. -/
def intOfSize (n : ℕ) : ℤ := (BitVec.ofNat 32 n).toInt

/-- An `int` where a `size_t` is expected. -/
def sizeOfInt (i : ℤ) : ℕ := (BitVec.ofInt 64 i).toNat

theorem intOfSize_of_lt {n : ℕ} (h : n < 2 ^ 31) : intOfSize n = n := by
  have hnat : (BitVec.ofNat 32 n).toNat = n := by
    rw [BitVec.toNat_ofNat]
    omega
  unfold intOfSize
  rw [BitVec.toInt_eq_toNat_of_lt (by rw [hnat]; omega), hnat]

theorem sizeOfInt_of_lt {n : ℕ} (h : n < 2 ^ 31) : sizeOfInt n = n := by
  unfold sizeOfInt
  rw [BitVec.toNat_ofInt]
  omega

/-! ## The code -/

/-- The value of an argument: NULL for a text that is not valid UTF-8. -/
def decodeVal (J : Jansson) (inVal : Text) : Option Json :=
  if inVal = "null".toList then some .null
  else if inVal = "true".toList then some (.bool true)
  else if inVal = "false".toList then some (.bool false)
  else match J.loads inVal with
    | some v => some v
    | none => J.string inVal

/-- `json_equal(e, jval)`: nothing is equal to NULL. -/
def equalVal (jval : Option Json) (e : Json) : Bool :=
  match jval with
  | none => false
  | some v => e.equal v

/-- `json_is_boolean(jval)`. -/
def isBooleanVal (jval : Option Json) : Bool := (jval.map Json.isBoolean).getD false

/-- The position of the first element that is equal to the value, among as many as
the `int` counts, and else that `int`. -/
def findMatch (es : List Json) (jval : Option Json) (size : ℤ) : ℕ :=
  let i := (es.take size.toNat).findIdx (equalVal jval)
  if i < size.toNat then i else sizeOfInt size

/-- What an operation leaves. -/
structure OpResult where
  elems : List Json
  /-- What is stored in the value parameter. -/
  val : Option Text
  sizeOrIndex : ℤ

/-- An operation on the elements of the array: none where there is no element to
get. -/
def applyOp (J : Jansson) (ops : Text) (inIdx : ℤ) (es : List Json) (jval : Option Json) :
    Option OpResult :=
  let size := intOfSize es.length
  let iMatch := findMatch es jval size
  if ops = "add".toList then
    -- a boolean is appended even where it is already in the array
    if isBooleanVal jval = true ∨ iMatch = sizeOfInt size then
      some ⟨Json.appendNew es jval, none, intOfSize (Json.appendNew es jval).length⟩
    else some ⟨es, none, size⟩
  else if ops = "find".toList ∨ ops = "rm".toList then
    if iMatch < sizeOfInt size then
      if ops = "rm".toList then
        some ⟨es.eraseIdx iMatch, none, intOfSize (es.eraseIdx iMatch).length⟩
      else some ⟨es, none, intOfSize iMatch⟩
    else if ops = "find".toList then some ⟨es, none, -1⟩
    else some ⟨es, none, size⟩
  else if ops = "size".toList then some ⟨es, none, intOfSize es.length⟩
  else if ops = "get".toList then
    -- a negative index is far beyond the end as an unsigned one
    match es[sizeOfInt inIdx]? with
    | none => none
    | some (.string s) => some ⟨es, some s, inIdx⟩
    | some e => some ⟨es, some (J.dumpsAny e), inIdx⟩
  else some ⟨es, none, size⟩

/-- What a call leaves: its status, and what it has stored in its parameters. -/
structure ArrayopsResult where
  status : Status
  jsonStr : Option Text
  val : Option Text
  sizeOrIndex : Option ℤ

/-- **`msi_json_arrayops`**, with the number read from the last parameter. -/
def msiJsonArrayops (J : Jansson) (jsonStr val ops : MsParam) (inIdx : ℤ) : ArrayopsResult :=
  let refused : ArrayopsResult := ⟨.named .sysInvalidInputParam, none, none, none⟩
  match jsonStr.parseMspForStr, ops.parseMspForStr, val.parseMspForStr with
  | some inJsonStr, some inOps, some inVal =>
    match J.loads (if inJsonStr = [] then "[]".toList else inJsonStr) with
    | some (.array es) =>
      match applyOp J inOps inIdx es (decodeVal J inVal) with
      | none => refused
      | some r => ⟨.num 0, J.dumps 0 (.array r.elems), r.val, some r.sizeOrIndex⟩
    | _ => refused
  | _, _, _ => refused

/-! ## Lists of values -/

/-- **A list of values that have been added**: none is null or a number, and two that
are equal are booleans. -/
structure ElemsOk (es : List Json) : Prop where
  valid : ∀ e ∈ es, e.Valid
  kinds : ∀ e ∈ es, e.isNull = false ∧ e.isNumber = false
  distinct : es.Pairwise (fun a b => a.equal b = true → a.isBoolean = true ∧ b.isBoolean = true)

namespace ElemsOk

theorem nil : ElemsOk [] :=
  ⟨List.forall_mem_nil _, List.forall_mem_nil _, List.Pairwise.nil⟩

/-- What is left of such a list is one. -/
theorem sublist {es fs : List Json} (h : ElemsOk es) (hsub : fs.Sublist es) : ElemsOk fs :=
  ⟨fun e he => h.valid e (hsub.subset he), fun e he => h.kinds e (hsub.subset he),
    h.distinct.sublist hsub⟩

/-- A value can be added that is a boolean, or is not there. -/
theorem concat {es : List Json} (h : ElemsOk es) {v : Json} (hv : v.Valid)
    (hkind : v.isNull = false ∧ v.isNumber = false)
    (hnew : v.isBoolean = true ∨ ∀ e ∈ es, e.equal v = false) : ElemsOk (es ++ [v]) := by
  refine ⟨?_, ?_, List.pairwise_append.mpr ⟨h.distinct, List.pairwise_singleton _ _, ?_⟩⟩
  · exact List.forall_mem_append.mpr ⟨h.valid, List.forall_mem_singleton.mpr hv⟩
  · exact List.forall_mem_append.mpr ⟨h.kinds, List.forall_mem_singleton.mpr hkind⟩
  · intro e he w hw hew
    obtain rfl := List.mem_singleton.mp hw
    rcases hnew with hbool | hnew
    · exact ⟨(Json.isBoolean_of_equal hew).trans hbool, hbool⟩
    · exact absurd (hew.symm.trans (hnew e he)) (by simp)

/-- **Equal values in the place of the elements are as good.** -/
theorem of_equal {es fs : List Json} (h : ElemsOk es)
    (heq : List.Forall₂ (fun a b => a.equal b = true) es fs) (hvalid : ∀ f ∈ fs, f.Valid) :
    ElemsOk fs := by
  induction heq with
  | nil => exact nil
  | @cons a b as bs hab hrest ih =>
    have hbs := ih (h.sublist (List.sublist_cons_self a as))
      (fun f hf => hvalid f (List.mem_cons_of_mem b hf))
    refine ⟨hvalid, List.forall_mem_cons.mpr ⟨?_, hbs.kinds⟩,
      List.pairwise_cons.mpr ⟨fun b' hb' hbb' => ?_, hbs.distinct⟩⟩
    · rw [← Json.isNull_of_equal hab, ← Json.isNumber_of_equal hab]
      exact h.kinds a List.mem_cons_self
    · obtain ⟨i, hi, rfl⟩ := List.mem_iff_getElem.mp hb'
      have hi' : i < as.length := hrest.length_eq ▸ hi
      have ha' : as[i].equal bs[i] = true := (List.forall₂_iff_get.mp hrest).2 i hi' hi
      have hmem : as[i] ∈ as := List.getElem_mem hi'
      have hback := Json.equal_symm (h.valid _ (List.mem_cons_of_mem a hmem))
        (hvalid _ (List.mem_cons_of_mem b hb')) ha'
      have hboth := (List.pairwise_cons.mp h.distinct).1 _ hmem
        (Json.equal_trans (Json.equal_trans hab hbb') hback)
      rw [Json.isBoolean_of_equal hab, Json.isBoolean_of_equal ha'] at hboth
      exact hboth

/-- Two elements at different positions that are equal are booleans. -/
theorem unique {es : List Json} (h : ElemsOk es) {i j : ℕ} {a b : Json} (hij : i ≠ j)
    (ha : es[i]? = some a) (hb : es[j]? = some b) (heq : a.equal b = true) :
    a.isBoolean = true ∧ b.isBoolean = true := by
  obtain ⟨hi, rfl⟩ := List.getElem?_eq_some_iff.mp ha
  obtain ⟨hj, rfl⟩ := List.getElem?_eq_some_iff.mp hb
  have hpair := List.pairwise_iff_getElem.mp h.distinct
  rcases Nat.lt_or_gt_of_ne hij with hlt | hgt
  · exact hpair i j hi hj hlt heq
  · have hsymm := Json.equal_symm (h.valid _ (List.getElem_mem hi))
      (h.valid _ (List.getElem_mem hj)) heq
    exact (hpair j i hj hi hgt hsymm).symm

end ElemsOk

/-! ## One call -/

/-- Where the first hit is, or -1 where there is none. -/
def FindsLeast (hits : List Bool) (out : ℤ) : Prop :=
  (∃ i : ℕ, out = i ∧ hits[i]? = some true ∧ ∀ j < i, hits[j]? = some false)
    ∨ out = -1 ∧ ∀ b ∈ hits, b = false

/-- Equal elements are hit alike. -/
theorem map_equalVal {es fs : List Json} (jval : Option Json)
    (heq : List.Forall₂ (fun a b => a.equal b = true) es fs) (hes : ∀ e ∈ es, e.Valid)
    (hfs : ∀ f ∈ fs, f.Valid) : es.map (equalVal jval) = fs.map (equalVal jval) := by
  induction heq with
  | nil => rfl
  | @cons a b as bs hab _ ih =>
    rw [List.forall_mem_cons] at hes hfs
    rw [List.map_cons, List.map_cons, ih hes.2 hfs.2]
    refine congrArg (· :: _) ?_
    cases jval with
    | none => rfl
    | some v =>
      refine Bool.eq_iff_iff.mpr ⟨fun h => ?_, fun h => Json.equal_trans hab h⟩
      exact Json.equal_trans (Json.equal_symm hes.1 hfs.1 hab) h

/-- **What the search finds**, in an array whose size is an `int`. -/
theorem findMatch_spec {es : List Json} (jval : Option Json) (h : es.length < 2 ^ 31) :
    (findMatch es jval (intOfSize es.length) < es.length
        ∧ FindsLeast (es.map (equalVal jval)) (findMatch es jval (intOfSize es.length) : ℕ))
      ∨ findMatch es jval (intOfSize es.length) = es.length
        ∧ ∀ e ∈ es, equalVal jval e = false := by
  unfold findMatch
  rw [intOfSize_of_lt h, Int.toNat_natCast, List.take_length, sizeOfInt_of_lt h]
  dsimp only
  by_cases hi : es.findIdx (equalVal jval) < es.length
  · rw [if_pos hi]
    refine .inl ⟨hi, .inl ⟨_, rfl, ?_, fun j hj => ?_⟩⟩
    · rw [List.getElem?_map, List.getElem?_eq_getElem hi, Option.map_some]
      exact congrArg some List.findIdx_getElem
    · have hj' : j < es.length := hj.trans hi
      rw [List.getElem?_map, List.getElem?_eq_getElem hj', Option.map_some]
      exact congrArg some (List.not_of_lt_findIdx hj)
  · rw [if_neg hi]
    refine .inr ⟨rfl, fun e he => ?_⟩
    by_contra hne
    exact hi (List.findIdx_lt_length_of_exists ⟨e, he, Bool.eq_true_of_not_eq_false hne⟩)

section ApplyOp

variable {J : Jansson} {ops : Text} {inIdx : ℤ} {es : List Json} {jval : Option Json}
  {r : OpResult}

/-- What an operation does to the elements: nothing, or it adds the value, or it
removes one. -/
theorem applyOp_elems (h : applyOp J ops inIdx es jval = some r) :
    r.elems = es
      ∨ ((isBooleanVal jval = true
          ∨ findMatch es jval (intOfSize es.length) = sizeOfInt (intOfSize es.length))
        ∧ r.elems = Json.appendNew es jval)
      ∨ ∃ i, r.elems = es.eraseIdx i := by
  unfold applyOp at h
  dsimp only at h
  split at h
  · split at h
    · rename_i hcond
      obtain rfl := Option.some.inj h
      exact .inr (.inl ⟨hcond, rfl⟩)
    · obtain rfl := Option.some.inj h
      exact .inl rfl
  · split at h
    · split at h
      · split at h
        · obtain rfl := Option.some.inj h
          exact .inr (.inr ⟨_, rfl⟩)
        · obtain rfl := Option.some.inj h
          exact .inl rfl
      · split at h <;> (obtain rfl := Option.some.inj h; exact .inl rfl)
    · split at h
      · obtain rfl := Option.some.inj h
        exact .inl rfl
      · split at h
        · split at h
          · exact nomatch h
          · obtain rfl := Option.some.inj h
            exact .inl rfl
          · obtain rfl := Option.some.inj h
            exact .inl rfl
        · obtain rfl := Option.some.inj h
          exact .inl rfl

/-- **An operation keeps the elements apart.** -/
theorem applyOp_elemsOk (hes : ElemsOk es) (hsmall : es.length < 2 ^ 31)
    (hval : ∀ v, jval = some v → v.Valid ∧ v.isNull = false ∧ v.isNumber = false)
    (h : applyOp J ops inIdx es jval = some r) : ElemsOk r.elems := by
  rcases applyOp_elems h with heq | ⟨hcond, heq⟩ | ⟨i, heq⟩
  · rwa [heq]
  · rw [heq]
    cases jval with
    | none => rwa [show Json.appendNew es none = es from List.append_nil _]
    | some v =>
      obtain ⟨hvalid, hkind⟩ := hval v rfl
      refine hes.concat hvalid hkind (hcond.imp_right fun hnone => ?_)
      rw [intOfSize_of_lt hsmall, sizeOfInt_of_lt hsmall, ← intOfSize_of_lt hsmall] at hnone
      rcases findMatch_spec (some v) hsmall with ⟨hlt, -⟩ | ⟨-, hnew⟩
      · exact absurd hnone (Nat.ne_of_lt hlt)
      · exact hnew
  · rw [heq]
    exact hes.sublist (List.eraseIdx_sublist _ _)

/-- **Adding, removing and asking for the size return the number of elements.** -/
theorem applyOp_size (hops : ops = "add".toList ∨ ops = "rm".toList ∨ ops = "size".toList)
    (hsmall : r.elems.length < 2 ^ 31) (h : applyOp J ops inIdx es jval = some r) :
    r.sizeOrIndex = r.elems.length := by
  have hint : r.sizeOrIndex = intOfSize r.elems.length := by
    rcases hops with rfl | rfl | rfl
    · change (if _ then _ else _) = some r at h
      split at h <;> (obtain rfl := Option.some.inj h; rfl)
    · change (if _ then some _ else some _) = some r at h
      split at h <;> (obtain rfl := Option.some.inj h; rfl)
    · obtain rfl := Option.some.inj h
      rfl
  rw [hint, intOfSize_of_lt hsmall]

/-- **Finding a value returns its least position**, and changes nothing. -/
theorem applyOp_find (hsmall : es.length < 2 ^ 31)
    (h : applyOp J "find".toList inIdx es jval = some r) :
    r.elems = es ∧ FindsLeast (es.map (equalVal jval)) r.sizeOrIndex := by
  change (if findMatch es jval (intOfSize es.length) < sizeOfInt (intOfSize es.length)
    then some ⟨es, none, intOfSize (findMatch es jval (intOfSize es.length))⟩
    else some ⟨es, none, -1⟩) = some r at h
  rw [show sizeOfInt (intOfSize es.length) = es.length by
    rw [intOfSize_of_lt hsmall, sizeOfInt_of_lt hsmall]] at h
  rcases findMatch_spec jval hsmall with ⟨hlt, hfound⟩ | ⟨heq, hnone⟩
  · rw [if_pos hlt, intOfSize_of_lt (hlt.trans hsmall)] at h
    obtain rfl := Option.some.inj h
    exact ⟨rfl, hfound⟩
  · rw [if_neg (by omega)] at h
    obtain rfl := Option.some.inj h
    exact ⟨rfl, .inr ⟨rfl, List.forall_mem_map.mpr hnone⟩⟩

end ApplyOp

/-! ## A run of calls -/

/-- The arguments of a call, besides the document. -/
structure ArrayopsCall where
  val : MsParam
  ops : MsParam
  /-- What `parseMspForPosInt` returns for the last parameter. -/
  inIdx : ℤ

namespace ArrayopsCall

/-- The value of the argument. -/
def value (J : Jansson) (c : ArrayopsCall) : Option Json :=
  c.val.parseMspForStr.bind (decodeVal J)

/-- The call on a document. -/
def on (J : Jansson) (doc : Text) (c : ArrayopsCall) : ArrayopsResult :=
  msiJsonArrayops J (.ofText doc) c.val c.ops c.inIdx

end ArrayopsCall

/-- The document after some calls, from the empty one on. A call that fails leaves it. -/
def runArrayops (J : Jansson) (calls : List ArrayopsCall) : Text :=
  calls.foldl (fun doc c => (c.on J doc).jsonStr.getD doc) []

theorem runArrayops_concat (J : Jansson) (calls : List ArrayopsCall) (c : ArrayopsCall) :
    runArrayops J (calls ++ [c])
      = (c.on J (runArrayops J calls)).jsonStr.getD (runArrayops J calls) := by
  unfold runArrayops
  rw [List.foldl_append]
  rfl

/-- The document holds less than `2^31` elements. -/
def SmallDoc (J : Jansson) (doc : Text) : Prop :=
  ∀ v, J.loads doc = some v → v.elems.length < 2 ^ 31

/-- A call that returns 0 has carried out an operation. -/
theorem on_zero {J : Jansson} {doc : Text} {c : ArrayopsCall}
    (h : (c.on J doc).status = .num 0) :
    ∃ (es : List Json) (ops inVal : Text) (r : OpResult),
      J.loads (if doc = [] then "[]".toList else doc) = some (.array es)
      ∧ c.ops.parseMspForStr = some ops ∧ c.val.parseMspForStr = some inVal
      ∧ applyOp J ops c.inIdx es (decodeVal J inVal) = some r
      ∧ (c.on J doc).jsonStr = some (J.text 0 (.array r.elems))
      ∧ (c.on J doc).sizeOrIndex = some r.sizeOrIndex := by
  unfold ArrayopsCall.on msiJsonArrayops at h ⊢
  dsimp only at h ⊢
  split at h
  · rename_i doc' ops inVal hdoc hops hval
    obtain rfl := MsParam.eq_of_parseMspForStr hdoc
    split at h
    · rename_i es hloads
      split at h
      · exact absurd h (by simp)
      · rename_i r hop
        exact ⟨es, ops, inVal, r, hloads, hops, hval, hop, rfl, rfl⟩
    · exact absurd h (by simp)
  · exact absurd h (by simp)

/-- A call that does not return 0 stores no document. -/
theorem on_of_ne_zero {J : Jansson} {doc : Text} {c : ArrayopsCall}
    (h : (c.on J doc).status ≠ .num 0) : (c.on J doc).jsonStr = none := by
  unfold ArrayopsCall.on msiJsonArrayops at h ⊢
  dsimp only at h ⊢
  split at h <;> try rfl
  split at h <;> try rfl
  split at h
  · rfl
  · exact absurd rfl h

/-- A value that is read from an argument can be an element. -/
theorem decodeVal_spec {J : Jansson} (hJ : J.Lawful) {inVal : Text}
    (hnull : inVal ≠ "null".toList) {v : Json} (h : decodeVal J inVal = some v) :
    v.Valid ∧ v.isNull = false ∧ v.isNumber = false := by
  unfold decodeVal at h
  rw [if_neg hnull] at h
  split at h
  · obtain rfl := Option.some.inj h
    exact ⟨.bool _, rfl, rfl⟩
  · split at h
    · obtain rfl := Option.some.inj h
      exact ⟨.bool _, rfl, rfl⟩
    · split at h
      · rename_i w hloads
        obtain rfl := Option.some.inj h
        have hc := hJ.loads_container hloads
        refine ⟨hJ.loads_valid hloads, ?_⟩
        cases w with
        | array es => exact ⟨rfl, rfl⟩
        | object ms => exact ⟨rfl, rfl⟩
        | _ => exact nomatch hc
      · obtain rfl := Jansson.string_eq_some h
        exact ⟨.string _, rfl, rfl⟩

/-- A document of values that have been added, or none yet. -/
def DocOk (J : Jansson) (doc : Text) : Prop :=
  ∃ es, J.loads (if doc = [] then "[]".toList else doc) = some (.array es) ∧ ElemsOk es

theorem DocOk.of_loads {J : Jansson} (hJ : J.Lawful) {doc : Text} {es : List Json}
    (h : J.loads doc = some (.array es)) (hes : ElemsOk es) : DocOk J doc := by
  by_cases hdoc : doc = []
  · exact ⟨[], by rw [if_pos hdoc]; exact hJ.loads_array, .nil⟩
  · exact ⟨es, by rw [if_neg hdoc]; exact h, hes⟩

/-- **What a call does that returns 0**: the document it has written is one of values
that have been added, and the number it has returned is the one its operation is
asked for. -/
theorem on_spec {J : Jansson} (hJ : J.Lawful) {doc : Text} {c : ArrayopsCall}
    (hdoc : DocOk J doc) (hsmall : SmallDoc J doc)
    (hsmall' : SmallDoc J ((c.on J doc).jsonStr.getD doc)) (h : (c.on J doc).status = .num 0) :
    ∃ new es out, (c.on J doc).jsonStr = some new ∧ J.loads new = some (.array es)
      ∧ ElemsOk es ∧ (c.on J doc).sizeOrIndex = some out
      ∧ (c.ops.parseMspForStr = some "add".toList ∨ c.ops.parseMspForStr = some "rm".toList
          ∨ c.ops.parseMspForStr = some "size".toList → out = es.length)
      ∧ (c.ops.parseMspForStr = some "find".toList →
          FindsLeast (es.map (equalVal (c.value J))) out) := by
  obtain ⟨es, ops, inVal, r, hloads, hops, hval, hop, hstr, hout⟩ := on_zero h
  obtain ⟨es', hloads', hes⟩ := hdoc
  obtain rfl := Json.array.inj (Option.some.inj (hloads.symm.trans hloads'))
  have hlen : es.length < 2 ^ 31 := by
    by_cases hnil : doc = []
    · rw [if_pos hnil, hJ.loads_array] at hloads
      rw [← Json.array.inj (Option.some.inj hloads)]
      exact Nat.two_pow_pos 31
    · rw [if_neg hnil] at hloads
      exact hsmall _ hloads
  have hjval : ∀ v, decodeVal J inVal = some v →
      v.Valid ∧ v.isNull = false ∧ v.isNumber = false := by
    intro v hv
    refine decodeVal_spec hJ ?_ hv
    rintro rfl
    exact MsParam.parse_ne_null hval
  have hkeep := applyOp_elemsOk hes hlen hjval hop
  obtain ⟨w, hw, hequal⟩ := hJ.loads_text 0 (.array hkeep.valid) rfl
  obtain ⟨fs, rfl⟩ : ∃ fs, w = .array fs := by
    cases w with
    | array fs => exact ⟨fs, rfl⟩
    | _ => exact absurd hequal (by simp [Json.equal])
  have hforall := (Json.equal_array _ _).mp hequal
  have hfs : ∀ f ∈ fs, f.Valid := (hJ.loads_valid hw).elems
  have hfslen : r.elems.length < 2 ^ 31 := by
    rw [hstr] at hsmall'
    rw [hforall.length_eq]
    exact hsmall' _ hw
  refine ⟨_, fs, r.sizeOrIndex, hstr, hw, hkeep.of_equal hforall hfs, hout, ?_, ?_⟩
  · rw [hops, Option.some_inj, Option.some_inj, Option.some_inj, ← hforall.length_eq]
    exact fun hop' => applyOp_size hop' hfslen hop
  · rw [hops, Option.some_inj]
    rintro rfl
    obtain ⟨heq, hfinds⟩ := applyOp_find hlen hop
    rw [ArrayopsCall.value, hval, Option.bind_some,
      ← map_equalVal _ hforall hkeep.valid hfs, heq]
    exact hfinds

/-- **The document of a run** is one of values that have been added. -/
theorem runArrayops_ok {J : Jansson} (hJ : J.Lawful) {calls : List ArrayopsCall}
    (hsmall : ∀ pre, pre <+: calls → SmallDoc J (runArrayops J pre)) :
    DocOk J (runArrayops J calls) := by
  induction calls using List.reverseRecOn with
  | nil => exact ⟨[], hJ.loads_array, .nil⟩
  | append_singleton calls c ih =>
    have hdoc := ih (fun pre hpre => hsmall pre (hpre.trans (List.prefix_append _ _)))
    have hlast := hsmall _ List.prefix_rfl
    rw [runArrayops_concat] at hlast ⊢
    by_cases hstatus : (c.on J (runArrayops J calls)).status = .num 0
    · obtain ⟨new, es, out, hstr, hloads, hes, -⟩ :=
        on_spec hJ hdoc (hsmall _ (List.prefix_append _ _)) hlast hstatus
      rw [hstr]
      exact .of_loads hJ hloads hes
    · rw [on_of_ne_zero hstatus]
      exact hdoc

/-- **What a call that returns 0 leaves**: of two elements at different positions that
are equal both are booleans, no element is null or a number, adding, removing and
asking for the size return the number of elements, and finding returns the least
position of an element equal to the value, or -1. -/
def ArrayopsCall.Correct (J : Jansson) (doc : Text) (c : ArrayopsCall) : Prop :=
  ∃ (new : Text) (es : List Json) (out : ℤ), (c.on J doc).jsonStr = some new
    ∧ J.loads new = some (.array es)
    ∧ (∀ (i j : ℕ) (a b : Json), i ≠ j → es[i]? = some a → es[j]? = some b →
        a.equal b = true → a.isBoolean = true ∧ b.isBoolean = true)
    ∧ (∀ e ∈ es, e.isNull = false ∧ e.isNumber = false)
    ∧ (c.on J doc).sizeOrIndex = some out
    ∧ (c.ops.parseMspForStr = some "add".toList ∨ c.ops.parseMspForStr = some "rm".toList
        ∨ c.ops.parseMspForStr = some "size".toList → out = es.length)
    ∧ (c.ops.parseMspForStr = some "find".toList →
        FindsLeast (es.map (equalVal (c.value J))) out)

/-- **Every call of a run keeps the elements unique** and returns what it is asked for,
in a run in which no document reaches `2^31` elements. -/
theorem arrayops_run {J : Jansson} (hJ : J.Lawful) (calls : List ArrayopsCall) (c : ArrayopsCall)
    (hsmall : ∀ pre, pre <+: calls ++ [c] → SmallDoc J (runArrayops J pre))
    (h : (c.on J (runArrayops J calls)).status = .num 0) :
    c.Correct J (runArrayops J calls) := by
  have hdoc : DocOk J (runArrayops J calls) :=
    runArrayops_ok hJ (fun pre hpre => hsmall pre (hpre.trans (List.prefix_append _ _)))
  have hlast := hsmall _ List.prefix_rfl
  rw [runArrayops_concat] at hlast
  obtain ⟨new, es, out, hstr, hloads, hes, hout, hsize, hfind⟩ :=
    on_spec hJ hdoc (hsmall _ (List.prefix_append _ _)) hlast h
  exact ⟨new, es, out, hstr, hloads, fun i j a b hij => hes.unique hij, hes.kinds, hout, hsize,
    hfind⟩

/-! ## A run without end -/

namespace ManyElems

open JsonText (codec)

/-- As many different arrays. -/
def elems (n : ℕ) : List Json := (List.range n).map (fun i : ℕ => .array [.integer i])

/-- The call that adds the next one. -/
def add (n : ℕ) : ArrayopsCall :=
  ⟨.ofText (codec.text 0 (.array [.integer n])), .ofText "add".toList, 0⟩

/-- The document after as many calls. -/
def doc : ℕ → Text
  | 0 => []
  | n + 1 => codec.text 0 (.array (elems (n + 1)))

theorem elems_succ (n : ℕ) : elems (n + 1) = elems n ++ [.array [.integer n]] := by
  rw [elems, List.range_succ, List.map_append]
  rfl

@[simp] theorem length_elems (n : ℕ) : (elems n).length = n := by
  rw [elems, List.length_map, List.length_range]

theorem elems_valid (n : ℕ) : (Json.array (elems n)).Valid := by
  refine .array (fun e he => ?_)
  obtain ⟨i, -, rfl⟩ := List.mem_map.mp he
  exact .array (List.forall_mem_singleton.mpr (.integer _))

/-- The text of an array starts with a bracket. -/
theorem text_array (es : List Json) : ∃ t, codec.text 0 (.array es) = '[' :: t := ⟨_, rfl⟩

theorem ne_of_bracket {es : List Json} {t : Text} (ht : t.head? ≠ some '[') :
    codec.text 0 (.array es) ≠ t := by
  obtain ⟨u, hu⟩ := text_array es
  rw [hu]
  rintro rfl
  exact ht rfl

theorem loads_doc_succ (n : ℕ) : codec.loads (doc (n + 1)) = some (.array (elems (n + 1))) :=
  JsonText.loads_render 0 (elems_valid _) rfl

theorem loads_doc (n : ℕ) :
    codec.loads (if doc n = [] then "[]".toList else doc n) = some (.array (elems n)) := by
  cases n with
  | zero => exact JsonText.codec_lawful.loads_array
  | succ n =>
    have hne : doc (n + 1) ≠ [] := ne_of_bracket (by decide)
    rw [if_neg hne]
    exact loads_doc_succ n

theorem doc_ne_null (n : ℕ) : doc n ≠ "null".toList := by
  cases n with
  | zero => exact fun h => nomatch h
  | succ n => exact ne_of_bracket (by decide)

/-- The value of the next call. -/
theorem decodeVal_add (n : ℕ) :
    decodeVal codec (codec.text 0 (.array [.integer n])) = some (.array [.integer n]) := by
  have hloads : codec.loads (codec.text 0 (.array [.integer n])) = some (.array [.integer n]) :=
    JsonText.loads_render 0 (.array (List.forall_mem_singleton.mpr (.integer _))) rfl
  unfold decodeVal
  rw [if_neg (ne_of_bracket (by decide)), if_neg (ne_of_bracket (by decide)),
    if_neg (ne_of_bracket (by decide)), hloads]

/-- The value of the next call is not there. -/
theorem not_equal_add (n : ℕ) :
    ∀ e ∈ elems n, equalVal (some (.array [.integer n])) e = false := by
  intro e he
  obtain ⟨i, hi, rfl⟩ := List.mem_map.mp he
  have hne : ((i : ℤ) == n) = false := by
    rw [List.mem_range] at hi
    exact beq_false_of_ne (by omega)
  simp only [equalVal, Json.equal, Json.equalElems, hne, Bool.false_and]

/-- **The next call adds its value.** -/
theorem add_on {n : ℕ} (hn : n < 2 ^ 31) : (add n).on codec (doc n)
    = ⟨.num 0, some (doc (n + 1)), none, some (intOfSize (n + 1))⟩ := by
  have hnew := not_equal_add n
  have hmatch : findMatch (elems n) (some (.array [.integer n])) (intOfSize (elems n).length)
      = sizeOfInt (intOfSize (elems n).length) := by
    rw [length_elems, show sizeOfInt (intOfSize n) = n by
      rw [intOfSize_of_lt hn, sizeOfInt_of_lt hn]]
    rcases findMatch_spec (some (.array [.integer n])) (by rw [length_elems]; exact hn) with
      ⟨-, ⟨i, -, hi, -⟩ | ⟨hi, -⟩⟩ | ⟨heq, -⟩
    · obtain ⟨e, he, hhit⟩ := List.mem_map.mp (List.mem_of_getElem? hi)
      exact absurd (hhit.symm.trans (hnew e he)) (by simp)
    · exact absurd hi (by omega)
    · rw [length_elems] at heq
      exact heq
  have hop : applyOp codec "add".toList 0 (elems n) (some (.array [.integer n]))
      = some ⟨elems (n + 1), none, intOfSize (n + 1)⟩ := by
    have happend : Json.appendNew (elems n) (some (.array [.integer n])) = elems (n + 1) :=
      (elems_succ n).symm
    rw [applyOp, if_pos rfl, if_pos (.inr hmatch), happend, length_elems]
  unfold ArrayopsCall.on msiJsonArrayops
  rw [MsParam.parseMspForStr_ofText (doc_ne_null n)]
  dsimp only [add]
  rw [MsParam.parseMspForStr_ofText (by decide),
    MsParam.parseMspForStr_ofText (ne_of_bracket (by decide))]
  dsimp only
  rw [loads_doc]
  dsimp only
  rw [decodeVal_add, hop]
  rfl

/-- **The document after as many calls**, as long as the size is an `int`. -/
theorem run_add : ∀ {n : ℕ}, n ≤ 2 ^ 31 →
    runArrayops codec ((List.range n).map add) = doc n := by
  intro n
  induction n with
  | zero => exact fun _ => rfl
  | succ n ih =>
    intro hn
    rw [List.range_succ, List.map_append]
    exact (runArrayops_concat ..).trans (by rw [ih (by omega), add_on (by omega)]; rfl)

/-- The documents of the run are small. -/
theorem small_doc {n : ℕ} (hn : n < 2 ^ 31) : SmallDoc codec (doc n) := by
  intro v hv
  cases n with
  | zero => cases (show none = some v from hv)
  | succ n =>
    rw [loads_doc_succ] at hv
    obtain rfl := Option.some.inj hv
    rw [Json.elems, length_elems]
    exact hn

/-- The call that looks for one of them. -/
def find (n : ℕ) : ArrayopsCall := { add n with ops := .ofText "find".toList }

/-- The second of two elements is found. -/
theorem find_on : (find 1).on codec (doc 2) = ⟨.num 0, some (doc 2), none, some 1⟩ := by
  unfold ArrayopsCall.on msiJsonArrayops
  rw [MsParam.parseMspForStr_ofText (doc_ne_null 2)]
  dsimp only [find, add]
  rw [MsParam.parseMspForStr_ofText (by decide),
    MsParam.parseMspForStr_ofText (ne_of_bracket (by decide))]
  dsimp only
  rw [loads_doc]
  dsimp only
  rw [decodeVal_add]
  rfl

end ManyElems

/-- Two elements are added, and the second one is looked for. -/
theorem arrayops_run_sample :
    (ManyElems.find 1).Correct JsonText.codec
      (runArrayops JsonText.codec [ManyElems.add 0, ManyElems.add 1]) := by
  have hrun : ∀ n ≤ 2, runArrayops JsonText.codec ((List.range n).map ManyElems.add)
      = ManyElems.doc n := fun n hn => ManyElems.run_add (hn.trans (by decide))
  have hfind := ManyElems.find_on
  rw [← hrun 2 le_rfl] at hfind
  refine arrayops_run JsonText.codec_lawful [ManyElems.add 0, ManyElems.add 1]
    (ManyElems.find 1) (fun pre hpre => ?_) (congrArg ArrayopsResult.status hfind)
  rcases List.prefix_concat_iff.mp hpre with rfl | hpre
  · have hlast := runArrayops_concat JsonText.codec [ManyElems.add 0, ManyElems.add 1]
      (ManyElems.find 1)
    rw [show (ManyElems.find 1).on _ (runArrayops _ [ManyElems.add 0, ManyElems.add 1]) = _
      from hfind, Option.getD_some] at hlast
    rw [hlast]
    exact ManyElems.small_doc (show 2 < 2 ^ 31 by decide)
  · -- an earlier document is that of the additions so far
    obtain ⟨n, hn, rfl⟩ : ∃ n ≤ 2, pre = (List.range n).map ManyElems.add := by
      simp only [← List.mem_inits, List.inits, List.map, List.mem_cons, List.not_mem_nil,
        or_false] at hpre
      rcases hpre with rfl | rfl | rfl
      · exact ⟨0, by decide, rfl⟩
      · exact ⟨1, by decide, rfl⟩
      · exact ⟨2, by decide, rfl⟩
    rw [hrun n hn]
    exact ManyElems.small_doc (lt_of_le_of_lt hn (by decide))

/-- **The element number `2^31` overflows the size**: the call returns 0 and a number
that is not the number of elements. -/
theorem size_overflows :
    ¬ ∀ (J : Jansson) (calls : List ArrayopsCall) (c : ArrayopsCall), J.Lawful →
      (c.on J (runArrayops J calls)).status = .num 0 → c.Correct J (runArrayops J calls) := by
  intro h
  have hrun := ManyElems.run_add (n := 2 ^ 31 - 1) (by omega)
  have hon := ManyElems.add_on (n := 2 ^ 31 - 1) (by omega)
  rw [← hrun] at hon
  obtain ⟨new, es, out, hstr, hloads, -, -, hout, hsize, -⟩ :=
    h JsonText.codec _ (ManyElems.add (2 ^ 31 - 1)) JsonText.codec_lawful
      (congrArg ArrayopsResult.status hon)
  rw [hon] at hstr hout
  obtain rfl := Option.some.inj hstr
  rw [ManyElems.loads_doc_succ] at hloads
  have hbad := hsize (.inl rfl)
  rw [← Option.some.inj hout, ← Json.array.inj (Option.some.inj hloads),
    ManyElems.length_elems] at hbad
  exact absurd hbad (by decide)
