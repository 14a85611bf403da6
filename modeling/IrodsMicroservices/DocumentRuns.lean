import IrodsMicroservices.JsonObjOrder

/-!
# Documents over a run

A rule builds a document up by one call of `msi_json_objops` after the other, each on the
text that the one before has stored. The document is a store of registers: what stands
under a key at the end is what the edits of this key alone have made of what stood there at
the start, up to `json_equal` (`runDocument_registers`).

So of a run no more can be told from its document than, for every key, the edits of this key
in their order. How they are distributed over the calls, and what happens to other keys in
between, makes no difference (`document_runs_agree`).
-/

/-! ## Members that are equal -/

/-- Two members that cannot be told apart. -/
structure SameMember (a b : Option Json) : Prop where
  equal : Json.EqualMember a b
  left : ∀ v, a = some v → v.Valid
  right : ∀ v, b = some v → v.Valid

section SameMember

variable {J : Jansson} {a b jval : Option Json}

theorem SameMember.refl (h : ∀ v, a = some v → v.Valid) : SameMember a a := ⟨.refl h, h, h⟩

theorem SameMember.symm (h : SameMember a b) : SameMember b a := by
  obtain ⟨hequal, hv, hw⟩ := h
  refine ⟨?_, hw, hv⟩
  cases hequal with
  | none => exact .none
  | some hequal => exact .some (Json.equal_symm (hv _ rfl) (hw _ rfl) hequal)

theorem SameMember.trans {c : Option Json} (h : SameMember a b) (h' : SameMember b c) :
    SameMember a c := ⟨h.equal.trans h'.equal, h.left, h'.right⟩

theorem sameMember_some {v w : Json} (hequal : v.equal w = true) (hv : v.Valid) (hw : w.Valid) :
    SameMember (some v) (some w) :=
  ⟨.some hequal, fun _ h => Option.some.inj h ▸ hv, fun _ h => Option.some.inj h ▸ hw⟩

/-- **The members that are the same**: none, equal arrays, or equal values that are none. -/
theorem SameMember.cases (h : SameMember a b) :
    (a = none ∧ b = none)
      ∨ (∃ es fs, a = some (.array es) ∧ b = some (.array fs)
        ∧ List.Forall₂ (fun v w => v.equal w = true) es fs
        ∧ (∀ e ∈ es, e.Valid) ∧ ∀ f ∈ fs, f.Valid)
      ∨ ∃ v w, a = some v ∧ b = some w ∧ v.isArray = false ∧ w.isArray = false
        ∧ v.equal w = true ∧ v.Valid ∧ w.Valid := by
  obtain ⟨hequal, hv, hw⟩ := h
  cases hequal with
  | none => exact .inl ⟨rfl, rfl⟩
  | @some v w hequal =>
    have hkind : v.isArray = w.isArray := by
      cases v <;> cases w <;> simp_all [Json.equal, Json.isArray]
    cases v with
    | array es =>
      cases w with
      | array fs =>
        exact .inr (.inl ⟨es, fs, rfl, rfl, (Json.equal_array _ _).mp hequal,
          (hv _ rfl).elems, (hw _ rfl).elems⟩)
      | _ => cases hkind
    | _ => exact .inr (.inr ⟨_, w, rfl, rfl, rfl, hkind.symm, hequal, hv _ rfl, hw _ rfl⟩)

/-- Equal values are compared alike. -/
theorem equalVal_congr {v w : Json} (h : v.equal w = true) (hv : v.Valid) (hw : w.Valid)
    (jval : Option Json) : equalVal jval v = equalVal jval w := by
  have hmap := map_equalVal jval (.cons h .nil) (List.forall_mem_singleton.mpr hv)
    (List.forall_mem_singleton.mpr hw)
  exact (List.cons.inj hmap).1

theorem setAfter_congr (hjval : ∀ v, jval = some v → v.Valid) (key : Text)
    (h : SameMember a b) : SameMember (setAfter J key jval a) (setAfter J key jval b) := by
  unfold setAfter
  split
  · cases jval with
    | none => exact h
    | some v => exact .refl hjval
  · exact h

theorem addAfter_of_not_array {v : Json} (hv : v.isArray = false) (key : Text) :
    addAfter J key jval (some v) = setAfter J key jval (some v) := by
  cases v with
  | array es => cases hv
  | _ => rfl

theorem rmAfter_of_not_array {v : Json} (hv : v.isArray = false) :
    rmAfter jval (some v) = if equalVal jval v then none else some v := by
  cases v with
  | array es => cases hv
  | _ => rfl

theorem addAfter_congr (hjval : ∀ v, jval = some v → v.Valid) (key : Text)
    (h : SameMember a b) : SameMember (addAfter J key jval a) (addAfter J key jval b) := by
  rcases h.cases with ⟨rfl, rfl⟩ | ⟨es, fs, rfl, rfl, hequal, hes, hfs⟩
    | ⟨v, w, rfl, rfl, hv, hw, -⟩
  · exact setAfter_congr hjval key h
  · refine sameMember_some ?_ (appendNew_valid hes hjval) (appendNew_valid hfs hjval)
    rw [Json.equal_array]
    refine List.rel_append hequal ?_
    cases jval with
    | none => exact .nil
    | some x => exact .cons (Json.equal_refl (hjval x rfl)) .nil
  · rw [addAfter_of_not_array hv, addAfter_of_not_array hw]
    exact setAfter_congr hjval key h

theorem rmAfter_congr (h : SameMember a b) : SameMember (rmAfter jval a) (rmAfter jval b) := by
  rcases h.cases with ⟨rfl, rfl⟩ | ⟨es, fs, rfl, rfl, hequal, hes, hfs⟩
    | ⟨v, w, rfl, rfl, hv, hw, hequal, hvalid, hvalid'⟩
  · exact h
  · refine sameMember_some ?_ (removeMatch_valid hes jval) (removeMatch_valid hfs jval)
    rw [Json.equal_array]
    exact removeMatch_equal hequal hes hfs
  · rw [rmAfter_of_not_array hv, rmAfter_of_not_array hw, equalVal_congr hequal hvalid hvalid']
    split
    · exact .refl (fun _ hnone => absurd hnone (by simp))
    · exact h

/-- **An operation makes the same of equal members.** -/
theorem memberAfter_congr (hJ : J.Lawful) (ops key inVal : Text) (h : SameMember a b) :
    SameMember (memberAfter J ops key inVal a) (memberAfter J ops key inVal b) := by
  have hjval : ∀ v, decodeText J inVal = some v → v.Valid := fun _ => decodeText_valid hJ
  unfold memberAfter
  dsimp only
  split
  · exact h
  split
  · exact addAfter_congr hjval key h
  split
  · exact setAfter_congr hjval key h
  split
  · exact rmAfter_congr h
  · exact h

end SameMember

/-! ## Registers -/

/-- A call: its operation, and its pairs. -/
abbrev DocumentCall := Text × KeyVals

/-- The edits of a key in a run: for every pair that has it, the operation and the value. -/
def editsOf (key : Text) (calls : List DocumentCall) : List (Text × Option Text) :=
  calls.flatMap (fun c => (c.2.filter (fun p => p.1 = key)).map (fun p => (c.1, p.2)))

/-- **What some edits make of a register.** -/
def registerAfter (J : Jansson) (key : Text) (edits : List (Text × Option Text))
    (data : Option Json) : Option Json :=
  edits.foldl (fun data e => memberAfterPair J e.1 (key, e.2) data) data

section Registers

variable {J : Jansson} {key : Text}

theorem registerAfter_append (edits edits' : List (Text × Option Text)) (data : Option Json) :
    registerAfter J key (edits ++ edits') data
      = registerAfter J key edits' (registerAfter J key edits data) := by
  rw [registerAfter, List.foldl_append]
  rfl

theorem registerAfter_congr (hJ : J.Lawful) (edits : List (Text × Option Text)) :
    ∀ {a b : Option Json}, SameMember a b →
      SameMember (registerAfter J key edits a) (registerAfter J key edits b) := by
  induction edits with
  | nil => exact fun h => h
  | cons e edits ih =>
    intro a b h
    refine ih ?_
    obtain ⟨ops, value⟩ := e
    cases value with
    | none => exact h
    | some inVal => exact memberAfter_congr hJ ops key inVal h

/-- **One call**: what stands under a key is what the edits of this key have made. -/
theorem objectGet_foldl_afterPair {root : Json} (hobj : root.isObject = true) (c : DocumentCall) :
    (c.2.foldl (afterPair J c.1) root).objectGet key
      = registerAfter J key (editsOf key [c]) (root.objectGet key) := by
  rw [(keyedStep_afterPair J c.1).get_foldl_filter c.2 key hobj, editsOf, List.flatMap_singleton,
    registerAfter, List.foldl_map]
  refine List.foldl_ext _ _ _ (fun data p hp => ?_)
  have hkey : p.1 = key := by simpa using (List.mem_filter.mp hp).2
  rw [← hkey]

end Registers

/-! ## Runs -/

/-- **A run of calls**, each on the text that the one before has stored: the text of the
last one, and none where a call fails. -/
def runDocument (J : Jansson) : Text → List DocumentCall → Option Text
  | doc, [] => some doc
  | doc, c :: calls =>
    match msiJsonObjops J (.ofText doc) (.ofPairs c.2) (.ofText c.1) with
    | .ok r => if r.status = .num 0 then r.jsonStr.bind (fun t => runDocument J t calls) else none
    | .error _ => none

/-- The operation and the values of a call can be read. -/
def ReadableCall (c : DocumentCall) : Prop := c.1 ≠ "null".toList ∧ ∀ p ∈ c.2, p.2 ≠ none

section Runs

variable {J : Jansson}

/-- **The document of a run is a store of registers.** Every call succeeds, and what stands
under a key at the end is what the edits of this key have made of what stood there. -/
theorem runDocument_registers (hJ : J.Lawful) (hstrict : J.Strict) {calls : List DocumentCall}
    (hcalls : ∀ c ∈ calls, ReadableCall c) :
    ∀ {doc : Text} {root : Json}, callRoot J (.ofText doc) = some root → root.isObject = true →
      ∃ t new, runDocument J doc calls = some t ∧ callRoot J (.ofText t) = some new
        ∧ new.isObject = true
        ∧ ∀ key, SameMember (registerAfter J key (editsOf key calls) (root.objectGet key))
          (new.objectGet key) := by
  induction calls with
  | nil =>
    intro doc root hroot hobj
    have hvalid := (callRoot_spec hJ hroot).1
    exact ⟨doc, root, rfl, hroot, hobj, fun key => .refl (fun v hv => hvalid.objectGet hv)⟩
  | cons c calls ih =>
    intro doc root hroot hobj
    obtain ⟨⟨hops, htexts⟩, hcalls⟩ := List.forall_mem_cons.mp hcalls
    set made := c.2.foldl (afterPair J c.1) root with hmade
    have hvalid : made.Valid := valid_foldl_afterPair hJ c.1 c.2 (callRoot_spec hJ hroot).1
    have hmadeObj : made.isObject = true := (keyedStep_afterPair J c.1).foldl_keeps c.2 hobj
    have hmadeC := Json.isContainer_of_isObject hmadeObj
    have hcall : msiJsonObjops J (.ofText doc) (.ofPairs c.2) (.ofText c.1)
        = .ok ⟨.num 0, some (J.text 0 made), some (valuesAfter J c.1 root c.2)⟩ :=
      call_eq hJ hroot (MsParam.parseMspForStr_ofText hops) htexts
    -- the next call reads a document that is equal to the one written
    obtain ⟨hne, hnull⟩ := hstrict.text_ne hJ 0 hvalid hmadeC
    obtain ⟨now, hnow, hequal⟩ := hJ.loads_text 0 hvalid hmadeC
    have hnowRoot := (callRoot_text hnull hne).trans hnow
    have hnowObj : now.isObject = true := (Json.isObject_of_equal hequal).symm.trans hmadeObj
    obtain ⟨t, new, hrun, hnew, hnewObj, hregisters⟩ := ih hcalls hnowRoot hnowObj
    refine ⟨t, new, ?_, hnew, hnewObj, fun key => ?_⟩
    · rw [runDocument, hcall]
      exact (if_pos rfl).trans hrun
    · have hnowValid := hJ.loads_valid hnow
      have hsame : SameMember (registerAfter J key (editsOf key [c]) (root.objectGet key))
          (now.objectGet key) := by
        rw [← objectGet_foldl_afterPair hobj c]
        exact ⟨Json.equalMember_of_equal hvalid hnowValid hequal key,
          fun v hv => hvalid.objectGet hv, fun v hv => hnowValid.objectGet hv⟩
      have hedits : editsOf key (c :: calls) = editsOf key [c] ++ editsOf key calls := by
        rw [editsOf, List.flatMap_cons, editsOf, List.flatMap_singleton]
        rfl
      rw [hedits, registerAfter_append]
      exact (registerAfter_congr hJ _ hsame).trans (hregisters key)

/-- **Runs with the same edits under every key agree**: two runs of calls from one object,
each of which has the same edits of every key in the same order, in whatever calls and with
whatever edits of other keys in between, both succeed and store equal documents. What stands
under a key then is what the edits of this key make of what stood there. -/
theorem document_runs_agree (hJ : J.Lawful) (hstrict : J.Strict) {calls calls' : List DocumentCall}
    (hcalls : ∀ c ∈ calls, ReadableCall c) (hcalls' : ∀ c ∈ calls', ReadableCall c)
    (hedits : ∀ key, editsOf key calls = editsOf key calls') {doc : Text} {root : Json}
    (hroot : callRoot J (.ofText doc) = some root) (hobj : root.isObject = true) :
    ∃ t t' new new', runDocument J doc calls = some t ∧ runDocument J doc calls' = some t'
      ∧ callRoot J (.ofText t) = some new ∧ callRoot J (.ofText t') = some new'
      ∧ new.equal new' = true
      ∧ ∀ key, Json.EqualMember
          (registerAfter J key (editsOf key calls) (root.objectGet key)) (new.objectGet key) := by
  obtain ⟨t, new, hrun, hnew, hnewObj, hregisters⟩ :=
    runDocument_registers hJ hstrict hcalls hroot hobj
  obtain ⟨t', new', hrun', hnew', hnewObj', hregisters'⟩ :=
    runDocument_registers hJ hstrict hcalls' hroot hobj
  refine ⟨t, t', new, new', hrun, hrun', hnew, hnew', ?_, fun key => (hregisters key).equal⟩
  refine Json.equal_of_equalMember (callRoot_spec hJ hnew).1 (callRoot_spec hJ hnew').1 hnewObj
    hnewObj' (fun key => ?_)
  exact ((hregisters key).symm.trans (hedits key ▸ hregisters' key)).equal

end Runs

namespace Sample

/-- Two keys set in one call, and one of them added to. -/
def together : List DocumentCall :=
  [("set".toList, [("a".toList, some "x".toList), ("b".toList, some "[]".toList)]),
    ("add".toList, [("b".toList, some "y".toList)])]

/-- The same, one after the other. -/
def apart : List DocumentCall :=
  [("set".toList, [("b".toList, some "[]".toList)]),
    ("add".toList, [("b".toList, some "y".toList)]),
    ("set".toList, [("a".toList, some "x".toList)])]

theorem editsOf_together (key : Text) : editsOf key together = editsOf key apart := by
  unfold editsOf together apart
  by_cases ha : "a".toList = key
  · subst ha
    decide
  · by_cases hb : "b".toList = key
    · subst hb
      decide
    · have ha' : ¬ ['a'] = key := ha
      have hb' : ¬ ['b'] = key := hb
      simp [ha', hb']

end Sample

/-- Two runs of the sample edits. -/
theorem document_runs_agree_sample :
    ∃ t t' new new', runDocument JsonText.codec [] Sample.together = some t
      ∧ runDocument JsonText.codec [] Sample.apart = some t'
      ∧ callRoot JsonText.codec (.ofText t) = some new
      ∧ callRoot JsonText.codec (.ofText t') = some new' ∧ new.equal new' = true
      ∧ ∀ key, Json.EqualMember (registerAfter JsonText.codec key
          (editsOf key Sample.together) ((Json.object []).objectGet key)) (new.objectGet key) := by
  have htogether : ∀ c ∈ Sample.together, ReadableCall c := by
    unfold ReadableCall Sample.together
    decide
  have hapart : ∀ c ∈ Sample.apart, ReadableCall c := by
    unfold ReadableCall Sample.apart
    decide
  exact document_runs_agree JsonText.codec_lawful JsonText.codec_strict htogether hapart
    Sample.editsOf_together (callRoot_empty JsonText.codec_lawful) rfl
