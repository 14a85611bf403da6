import IrodsMicroservices.JsonObjOps

/-!
# What the pairs of a call do to each other

Nothing, when their keys are distinct: a call makes the same of a document and of
its list whatever the order of the pairs (`key_order`).

Removing a value takes back adding it, as far as `add` and `rm` choose alike between
the member and its elements (`rm_undoes_add`). They do not for a value that is itself
an array, under a key that is not there: adding makes it the member, and removing
looks for it among its elements.
-/

/-! ## The order of the pairs -/

/-- Two documents that have been stored cannot be told apart. -/
def SameDoc (J : Jansson) : Option Text → Option Text → Prop
  | none, none => True
  | some t₁, some t₂ => ∃ v₁ v₂, J.loads t₁ = some v₁ ∧ J.loads t₂ = some v₂ ∧ v₁.equal v₂ = true
  | _, _ => False

/-- **Two calls do the same**: they fail alike, or return the same status and store
equal documents, and leave the same text for every key. -/
def SameOutcome (J : Jansson) : Except Fault ObjopsResult → Except Fault ObjopsResult → Prop
  | .error e₁, .error e₂ => e₁ = e₂
  | .ok r₁, .ok r₂ => r₁.status = r₂.status ∧ SameDoc J r₁.jsonStr r₂.jsonStr
      ∧ ∃ l₁ l₂, r₁.kvp = some l₁ ∧ r₂.kvp = some l₂ ∧ l₁.Perm l₂
  | _, _ => False

/-- **A call leaves what it is not asked about**: the keys of the list, the members whose
key is not in it, and the document, where the operation is none that changes one. -/
def LeavesRest (J : Jansson) (jsonStr : MsParam) (kvs : KeyVals) (ops : MsParam)
    (r : ObjopsResult) : Prop :=
  (∃ left, r.kvp = some left ∧ left.map Prod.fst = kvs.map Prod.fst)
    ∧ ∀ root t, callRoot J jsonStr = some root → r.jsonStr = some t →
      ∃ new, J.loads t = some new
        ∧ (∀ k ∉ kvs.map Prod.fst, Json.EqualMember (root.objectGet k) (new.objectGet k))
        ∧ (ops.parseMspForStr ≠ some "add".toList → ops.parseMspForStr ≠ some "set".toList →
            ops.parseMspForStr ≠ some "rm".toList → root.equal new = true)

section Order

variable {J : Jansson} {ops : Text} {root : Json} {kvs ps qs : KeyVals}

/-- **The document does not depend on the order of the pairs.** -/
theorem equal_foldl_perm (hJ : J.Lawful) (ops : Text) (hroot : root.Valid) (hps : (ps.map Prod.fst).Nodup)
    (hperm : ps.Perm qs) :
    (ps.foldl (afterPair J ops) root).equal (qs.foldl (afterPair J ops) root) = true := by
  have hvps := valid_foldl_afterPair hJ ops ps hroot
  have hvqs := valid_foldl_afterPair hJ ops qs hroot
  cases hobj : root.isObject with
  | true =>
    have hstep := keyedStep_afterPair J ops
    refine Json.equal_of_equalMember hvps hvqs (hstep.foldl_keeps ps hobj)
      (hstep.foldl_keeps qs hobj) (fun k => ?_)
    rw [← hstep.get_foldl_perm hps hperm hobj k]
    exact .refl (fun v hv => hvps.objectGet hv)
  | false =>
    rw [foldl_afterPair_of_not_object hobj, foldl_afterPair_of_not_object hobj]
    exact Json.equal_refl hroot

/-- **The texts do not depend on the order of the pairs.** -/
theorem valuesAfter_perm (hperm : ps.Perm qs) :
    (valuesAfter J ops root ps).Perm (valuesAfter J ops root qs) := by
  unfold valuesAfter
  split
  · exact hperm.map _
  · exact hperm

theorem map_fst_valuesAfter : (valuesAfter J ops root kvs).map Prod.fst = kvs.map Prod.fst := by
  unfold valuesAfter
  split
  · rw [List.map_map]
    rfl
  · rfl

/-- An operation that changes no document. -/
theorem foldl_afterPair_of_reading (hadd : ops ≠ "add".toList) (hset : ops ≠ "set".toList)
    (hrm : ops ≠ "rm".toList) : kvs.foldl (afterPair J ops) root = root := by
  have hpair : ∀ p, afterPair J ops root p = root := by
    rintro ⟨k, _ | v⟩
    · rfl
    · show (applyPair J ops root k v).1 = root
      unfold applyPair
      dsimp only
      rw [if_neg hadd, if_neg hset, if_neg hrm]
      split <;> rfl
  induction kvs with
  | nil => rfl
  | cons p kvs ih => rw [List.foldl_cons, hpair p, ih]

/-- What a call leaves that returns. -/
theorem leavesRest_call (hJ : J.Lawful) (jsonStr ops : MsParam) (kvs : KeyVals)
    {r : ObjopsResult} (h : msiJsonObjops J jsonStr (.ofPairs kvs) ops = .ok r) :
    LeavesRest J jsonStr kvs ops r := by
  cases hroot : callRoot J jsonStr with
  | none =>
    obtain rfl := Except.ok.inj ((call_of_no_root hroot).symm.trans h)
    exact ⟨⟨kvs, rfl, rfl⟩, fun root t h => nomatch hroot.symm.trans h⟩
  | some root =>
    cases hops : ops.parseMspForStr with
    | none =>
      obtain rfl := Except.ok.inj ((call_of_no_ops hops).symm.trans h)
      exact ⟨⟨kvs, rfl, rfl⟩, fun _ t _ ht => nomatch ht⟩
    | some strOps =>
      by_cases hnull : ∃ p ∈ kvs, p.2 = none
      · rw [call_eq_loop hroot hops, objopsLoop_of_null hnull] at h
        exact nomatch h
      · have htexts : ∀ p ∈ kvs, p.2 ≠ none := fun p hp hp' => hnull ⟨p, hp, hp'⟩
        obtain rfl := Except.ok.inj ((call_eq hJ hroot hops htexts).symm.trans h)
        refine ⟨⟨_, rfl, map_fst_valuesAfter⟩, fun root' t hroot' ht => ?_⟩
        obtain rfl := Option.some.inj (hroot.symm.trans hroot')
        obtain rfl := Option.some.inj ht
        obtain ⟨hvalid, hc⟩ := callRoot_spec hJ hroot
        have hmade := valid_foldl_afterPair hJ strOps kvs hvalid
        obtain ⟨new, hnew, hequal⟩ := hJ.loads_text 0 hmade (isContainer_foldl_afterPair hc kvs)
        have hmembers := Json.equalMember_of_equal hmade (hJ.loads_valid hnew) hequal
        refine ⟨new, hnew, fun k hk => ?_, fun hadd hset hrm => ?_⟩
        · cases hobj : root.isObject with
          | true =>
            rw [← (keyedStep_afterPair J strOps).get_foldl_of_not_mem hk hobj]
            exact hmembers k
          | false =>
            have hsame := hmembers k
            rwa [foldl_afterPair_of_not_object hobj] at hsame
        · rw [hops, ne_eq, Option.some_inj] at hadd hset hrm
          rwa [foldl_afterPair_of_reading hadd hset hrm] at hequal

/-- **The order of the pairs does not matter**, where their keys are distinct. -/
theorem sameOutcome_perm (hJ : J.Lawful) (jsonStr ops : MsParam)
    (hps : (ps.map Prod.fst).Nodup) (hperm : ps.Perm qs) :
    SameOutcome J (msiJsonObjops J jsonStr (.ofPairs ps) ops)
      (msiJsonObjops J jsonStr (.ofPairs qs) ops) := by
  cases hroot : callRoot J jsonStr with
  | none =>
    rw [call_of_no_root hroot, call_of_no_root hroot]
    exact ⟨rfl, trivial, ps, qs, rfl, rfl, hperm⟩
  | some root =>
    cases hops : ops.parseMspForStr with
    | none =>
      rw [call_of_no_ops hops, call_of_no_ops hops]
      exact ⟨rfl, trivial, ps, qs, rfl, rfl, hperm⟩
    | some strOps =>
      by_cases hnull : ∃ p ∈ ps, p.2 = none
      · have hnull' : ∃ p ∈ qs, p.2 = none := by
          obtain ⟨p, hp, hp'⟩ := hnull
          exact ⟨p, hperm.subset hp, hp'⟩
        rw [call_eq_loop hroot hops, call_eq_loop hroot hops, objopsLoop_of_null hnull,
          objopsLoop_of_null hnull']
        rfl
      · have hps' : ∀ p ∈ ps, p.2 ≠ none := fun p hp hp' => hnull ⟨p, hp, hp'⟩
        have hqs' : ∀ p ∈ qs, p.2 ≠ none := fun p hp => hps' p (hperm.symm.subset hp)
        rw [call_eq hJ hroot hops hps', call_eq hJ hroot hops hqs']
        obtain ⟨hvalid, hc⟩ := callRoot_spec hJ hroot
        have hvps := valid_foldl_afterPair hJ strOps ps hvalid
        have hvqs := valid_foldl_afterPair hJ strOps qs hvalid
        obtain ⟨v₁, hv₁, h₁⟩ := hJ.loads_text 0 hvps (isContainer_foldl_afterPair hc ps)
        obtain ⟨v₂, hv₂, h₂⟩ := hJ.loads_text 0 hvqs (isContainer_foldl_afterPair hc qs)
        have hequal := equal_foldl_perm hJ strOps hvalid hps hperm
        have hback := Json.equal_symm hvps (hJ.loads_valid hv₁) h₁
        exact ⟨rfl, ⟨v₁, v₂, hv₁, hv₂, Json.equal_trans (Json.equal_trans hback hequal) h₂⟩,
          _, _, rfl, rfl, valuesAfter_perm hperm⟩

end Order

/-- **Key order does not matter**: pairs with distinct keys do the same in every order,
and what they are not about stays. -/
theorem key_order {J : Jansson} (hJ : J.Lawful) (jsonStr ops : MsParam) (ps qs : KeyVals)
    (hps : (ps.map Prod.fst).Nodup) (hperm : ps.Perm qs) :
    SameOutcome J (msiJsonObjops J jsonStr (.ofPairs ps) ops)
        (msiJsonObjops J jsonStr (.ofPairs qs) ops)
      ∧ ∀ r, msiJsonObjops J jsonStr (.ofPairs ps) ops = .ok r →
        LeavesRest J jsonStr ps ops r :=
  ⟨sameOutcome_perm hJ jsonStr ops hps hperm, fun _ h => leavesRest_call hJ jsonStr ops ps h⟩

/-- Two keys, either way round. -/
theorem key_order_sample :
    SameOutcome JsonText.codec
        (msiJsonObjops JsonText.codec (.ofText [])
          (.ofPairs [("a".toList, some "x".toList), ("b".toList, some "y".toList)])
          (.ofText "set".toList))
        (msiJsonObjops JsonText.codec (.ofText [])
          (.ofPairs [("b".toList, some "y".toList), ("a".toList, some "x".toList)])
          (.ofText "set".toList)) :=
  (key_order JsonText.codec_lawful (.ofText []) (.ofText "set".toList) _ _ (by decide)
    (.swap _ _ _)).1

/-! ## Removing what has been added -/

/-- Two lists of values are equal, element by element. -/
abbrev EqualElems : List Json → List Json → Prop :=
  List.Forall₂ (fun a b => a.equal b = true)

/-- **A document as it was, up to the order of the elements under one key**: it is equal
to it, or it holds the elements of that array in another order, where one of them is
equal to the value. -/
def EqualUpToOrder (root : Json) (k : Text) (jval : Option Json) (new : Json) : Prop :=
  root.equal new = true
    ∨ new.isObject = true
      ∧ (∀ k', k' ≠ k → Json.EqualMember (root.objectGet k') (new.objectGet k'))
      ∧ ∃ es fs gs, root.objectGet k = some (.array es) ∧ (∃ e ∈ es, equalVal jval e = true)
        ∧ fs.Perm es ∧ EqualElems fs gs ∧ new.objectGet k = some (.array gs)

/-- **Removing undoes adding**: after a value has been added under a key and removed
again the document is as it was, up to the order of the elements under that key. -/
def RmUndoesAdd (J : Jansson) (doc k v : Text) : Prop :=
  ∃ root r t r' t' new, callRoot J (.ofText doc) = some root
    ∧ msiJsonObjops J (.ofText doc) (.ofPairs [(k, some v)]) (.ofText "add".toList) = .ok r
    ∧ r.status = .num 0 ∧ r.jsonStr = some t
    ∧ msiJsonObjops J (.ofText t) (.ofPairs [(k, some v)]) (.ofText "rm".toList) = .ok r'
    ∧ r'.status = .num 0 ∧ r'.jsonStr = some t' ∧ J.loads t' = some new
    ∧ EqualUpToOrder root k (decodeText J v) new

section RmAdd

variable {J : Jansson} {root : Json} {k v : Text} {jval : Option Json}

theorem EqualElems.trans {as bs cs : List Json} (hab : EqualElems as bs)
    (hbc : EqualElems bs cs) : EqualElems as cs := by
  induction hab generalizing cs with
  | nil => exact hbc
  | cons h _ ih =>
    cases hbc with
    | cons h' hbc => exact .cons (Json.equal_trans h h') (ih hbc)

/-- In equal arrays the same position is removed. -/
theorem removeMatch_equal {as bs : List Json} (h : EqualElems as bs) (has : ∀ a ∈ as, a.Valid)
    (hbs : ∀ b ∈ bs, b.Valid) : EqualElems (removeMatch as jval) (removeMatch bs jval) := by
  have hlen := h.length_eq
  have hidx : (as.take (2 ^ 31)).findIdx (equalVal jval)
      = (bs.take (2 ^ 31)).findIdx (equalVal jval) := by
    have hmap : ∀ es : List Json, (es.take (2 ^ 31)).findIdx (equalVal jval)
        = ((es.map (equalVal jval)).take (2 ^ 31)).findIdx id := by
      intro es
      rw [← List.map_take, List.findIdx_map, Function.id_comp]
    rw [hmap, hmap, map_equalVal jval h has hbs]
  unfold removeMatch
  dsimp only
  rw [hidx, List.length_take, List.length_take, hlen]
  split
  · rw [List.eraseIdx_eq_take_drop_succ, List.eraseIdx_eq_take_drop_succ]
    exact List.rel_append (List.forall₂_take _ h) (List.forall₂_drop _ h)
  · exact h

/-- **What is left of an array** after a value has been added and the first element equal
to it removed: the array, where no element was equal to it, and else the array with the
value in another place. -/
theorem removeMatch_appendNew {es : List Json} (hes : ∀ e ∈ es, e.Valid)
    (hjval : ∀ v, jval = some v → v.Valid)
    (hreach : es.length < 2 ^ 31 ∨ ∃ e ∈ es.take (2 ^ 31), equalVal jval e = true) :
    removeMatch (Json.appendNew es jval) jval = es
      ∨ (∃ e ∈ es, equalVal jval e = true)
        ∧ ∃ fs : List Json, fs.Perm es ∧ EqualElems fs (removeMatch (Json.appendNew es jval) jval) := by
  cases jval with
  | none =>
    refine .inl ?_
    have hidx : (es.take (2 ^ 31)).findIdx (equalVal none) = (es.take (2 ^ 31)).length :=
      List.findIdx_eq_length_of_false (fun _ _ => rfl)
    unfold removeMatch Json.appendNew
    dsimp only
    rw [Option.toList_none, List.append_nil, hidx, if_neg (Nat.lt_irrefl _)]
  | some x =>
    have hx : x.equal x = true := Json.equal_refl (hjval x rfl)
    have happend : Json.appendNew es (some x) = es ++ [x] := rfl
    by_cases hfound : ∃ e ∈ es.take (2 ^ 31), equalVal (some x) e = true
    · -- the element removed is one of the array: the value takes its place, at the end
      set i := (es.take (2 ^ 31)).findIdx (equalVal (some x)) with hi
      have hlt : i < (es.take (2 ^ 31)).length := List.findIdx_lt_length_of_exists hfound
      have hlt' : i < es.length := lt_of_lt_of_le hlt (List.length_take_le' _ _)
      have hhit : (es.take (2 ^ 31))[i].equal x = true := List.findIdx_getElem (w := hlt)
      rw [List.getElem_take] at hhit
      have hremove : removeMatch (es ++ [x]) (some x) = es.eraseIdx i ++ [x] := by
        unfold removeMatch
        dsimp only
        rw [List.take_append, List.findIdx_append, if_pos hlt, ← hi, if_pos (by
          rw [List.length_append]
          exact Nat.lt_add_right _ hlt), List.eraseIdx_append_of_lt_length hlt']
      obtain ⟨e, he, hequal⟩ := hfound
      refine .inr ⟨⟨e, List.mem_of_mem_take he, hequal⟩, es.eraseIdx i ++ [es[i]], ?_, ?_⟩
      · exact (List.perm_append_singleton _ _).trans (List.getElem_cons_eraseIdx_perm hlt')
      · rw [happend, hremove]
        refine List.rel_append (List.forall₂_same.mpr (fun e he => ?_)) (.cons hhit .nil)
        exact Json.equal_refl (hes e (List.mem_of_mem_eraseIdx he))
    · -- no element is equal to the value: the search ends at what has been added
      have hshort : es.length < 2 ^ 31 := hreach.resolve_right hfound
      have htake : es.take (2 ^ 31) = es := List.take_of_length_le hshort.le
      rw [htake] at hfound
      have hnone : es.findIdx (equalVal (some x)) = es.length :=
        List.findIdx_eq_length_of_false (fun e he =>
          Bool.eq_false_of_not_eq_true (fun h => hfound ⟨e, he, h⟩))
      refine .inl ?_
      unfold removeMatch
      dsimp only
      rw [happend, List.take_of_length_le (by rw [List.length_append]; exact hshort),
        List.findIdx_append, hnone, if_neg (Nat.lt_irrefl _)]
      have hlast : List.findIdx (equalVal (some x)) [x] = 0 := by
        rw [List.findIdx_cons, show equalVal (some x) x = true from hx]
        rfl
      rw [hlast, Nat.zero_add, if_pos (by rw [List.length_append]; exact Nat.lt_succ_self _),
        List.eraseIdx_append_of_length_le le_rfl, Nat.sub_self]
      exact List.append_nil es

/-- **What can be taken back**: under a key that is not there a value that is no array,
and in an array that the search does not run out of. -/
def CanTakeBack (J : Jansson) (root : Json) (k v : Text) : Prop :=
  (root.objectGet k = none ∧ ∀ xs, decodeText J v ≠ some (.array xs))
    ∨ ∃ es, root.objectGet k = some (.array es)
      ∧ (es.length < 2 ^ 31 ∨ ∃ e ∈ es.take (2 ^ 31), equalVal (decodeText J v) e = true)

/-- What becomes of a member that is not there. -/
theorem rmAfter_addAfter_none (hJ : J.Lawful) (hdoc : ∀ xs, decodeText J v ≠ some (.array xs))
    {b : Option Json} (hb : ∀ y, b = some y → y.Valid)
    (h : Json.EqualMember (addAfter J k (decodeText J v) none) b) :
    rmAfter (decodeText J v) b = none := by
  have hset : addAfter J k (decodeText J v) none
      = if J.utf8 k then decodeText J v else none := by
    rw [addAfter, setAfter, Option.or_none]
    exact fun es h => by cases h
  rw [hset] at h
  cases b with
  | none => rfl
  | some y =>
    obtain ⟨x, hx, hequal⟩ : ∃ x, decodeText J v = some x ∧ x.equal y = true := by
      split at h
      · generalize hx : decodeText J v = jval at h
        cases h with
        | some hequal => exact ⟨_, rfl, hequal⟩
      · cases h
    have hback := Json.equal_symm (decodeText_valid hJ hx) (hb y rfl) hequal
    rw [hx, rmAfter]
    · exact if_pos hback
    · rintro es rfl
      cases x with
      | array xs => exact hdoc xs hx
      | _ => exact absurd hequal Bool.false_ne_true

/-- **What an add and a rm of one value make of a document.** -/
theorem equalUpToOrder_rm_add (hJ : J.Lawful) (hroot : root.Valid) (hobj : root.isObject = true)
    (hback : CanTakeBack J root k v) {now new : Json} (hnow : now.Valid) (hnew : new.Valid)
    (hadd : ((applyPair J "add".toList root k v).1).equal now = true)
    (hrm : ((applyPair J "rm".toList now k v).1).equal new = true) :
    EqualUpToOrder root k (decodeText J v) new := by
  have hvalid := valid_applyPair hJ hroot "add".toList k v
  have hvalid' := valid_applyPair hJ hnow "rm".toList k v
  have hnowObj : now.isObject = true :=
    (Json.isObject_of_equal hadd).symm.trans ((isObject_applyPair J _ _ _ _).trans hobj)
  have hnewObj : new.isObject = true :=
    (Json.isObject_of_equal hrm).symm.trans ((isObject_applyPair J _ _ _ _).trans hnowObj)
  -- the other members are out of the reach of both operations
  have hothers : ∀ k', k' ≠ k → Json.EqualMember (root.objectGet k') (new.objectGet k') := by
    intro k' hk'
    have h₁ := Json.equalMember_of_equal hvalid hnow hadd k'
    have h₂ := Json.equalMember_of_equal hvalid' hnew hrm k'
    rw [objectGet_applyPair_of_ne hk'] at h₁ h₂
    exact h₁.trans h₂
  have h₁ := Json.equalMember_of_equal hvalid hnow hadd k
  have h₂ := Json.equalMember_of_equal hvalid' hnew hrm k
  rw [objectGet_applyPair hobj] at h₁
  rw [objectGet_applyPair hnowObj] at h₂
  change Json.EqualMember (addAfter J k (decodeText J v) (root.objectGet k)) _ at h₁
  change Json.EqualMember (rmAfter (decodeText J v) (now.objectGet k)) _ at h₂
  have hall : Json.EqualMember (root.objectGet k) (new.objectGet k) →
      root.equal new = true := by
    intro hk
    refine Json.equal_of_equalMember hroot hnew hobj hnewObj (fun k' => ?_)
    by_cases hk' : k' = k
    · exact hk' ▸ hk
    · exact hothers k' hk'
  rcases hback with ⟨hnone, hdoc⟩ | ⟨es, hes, hreach⟩
  · rw [hnone] at h₁ hall
    rw [rmAfter_addAfter_none hJ hdoc (fun y hy => hnow.objectGet hy) h₁] at h₂
    exact .inl (hall h₂)
  · have hesValid : ∀ e ∈ es, e.Valid := (hroot.objectGet hes).elems
    rw [hes, addAfter] at h₁
    generalize hb : now.objectGet k = b at h₁ h₂
    cases h₁ with
    | @some _ bj hequal =>
    -- what is equal to an array is an array, in the document between as in the last one
    obtain ⟨bs, rfl⟩ : ∃ bs, bj = .array bs := by
      cases bj with
      | array bs => exact ⟨bs, rfl⟩
      | _ => exact nomatch hequal
    rw [rmAfter] at h₂
    generalize hc : new.objectGet k = c at h₂
    cases h₂ with
    | @some _ cj hequal' =>
    obtain ⟨gs, rfl⟩ : ∃ gs, cj = .array gs := by
      cases cj with
      | array gs => exact ⟨gs, rfl⟩
      | _ => exact nomatch hequal'
    have hjval : ∀ x, decodeText J v = some x → x.Valid := fun _ => decodeText_valid hJ
    have hremoved : EqualElems (removeMatch (Json.appendNew es (decodeText J v)) (decodeText J v))
        gs :=
      (removeMatch_equal ((Json.equal_array _ _).mp hequal)
        (appendNew_valid hesValid hjval).elems (hnow.objectGet hb).elems).trans
        ((Json.equal_array _ _).mp hequal')
    rcases removeMatch_appendNew hesValid hjval hreach with hsame | ⟨hfound, fs, hperm, hfs⟩
    · rw [hsame] at hremoved
      rw [hes, hc] at hall
      exact .inl (hall (.some ((Json.equal_array _ _).mpr hremoved)))
    · exact .inr ⟨hnewObj, hothers, es, fs, gs, hes, hfound, hperm, hfs.trans hremoved, hc⟩

end RmAdd

/-- **Removing undoes adding** for a key that is not there and a value that is no array,
and for an array that the search does not run out of. -/
theorem rm_undoes_add {J : Jansson} (hJ : J.Lawful) (hstrict : J.Strict) (doc k v : Text)
    (root : Json) (hroot : callRoot J (.ofText doc) = some root) (hobj : root.isObject = true)
    (hback : CanTakeBack J root k v) : RmUndoesAdd J doc k v := by
  have htexts : ∀ p ∈ ([(k, some v)] : KeyVals), p.2 ≠ none := by simp
  obtain ⟨hvalid, -⟩ := callRoot_spec hJ hroot
  have hmade := valid_applyPair hJ hvalid "add".toList k v
  have hmadeC : (applyPair J "add".toList root k v).1.isContainer = true :=
    Json.isContainer_of_isObject ((isObject_applyPair J _ _ _ _).trans hobj)
  obtain ⟨hne, hnull⟩ := hstrict.text_ne hJ 0 hmade hmadeC
  obtain ⟨now, hnow, hadd⟩ := hJ.loads_text 0 hmade hmadeC
  have hnowRoot := (callRoot_text hnull hne).trans hnow
  have hremoved := valid_applyPair hJ (hJ.loads_valid hnow) "rm".toList k v
  have hremovedC : (applyPair J "rm".toList now k v).1.isContainer = true := by
    refine Json.isContainer_of_isObject ((isObject_applyPair J _ _ _ _).trans ?_)
    exact (Json.isObject_of_equal hadd).symm.trans ((isObject_applyPair J _ _ _ _).trans hobj)
  obtain ⟨new, hnew, hrm⟩ := hJ.loads_text 0 hremoved hremovedC
  exact ⟨root, _, _, _, _, new, hroot,
    call_eq hJ hroot (MsParam.parseMspForStr_ofText (by decide)) htexts, rfl, rfl,
    call_eq hJ hnowRoot (MsParam.parseMspForStr_ofText (by decide)) htexts, rfl, rfl, hnew,
    equalUpToOrder_rm_add hJ hvalid hobj hback (hJ.loads_valid hnow) (hJ.loads_valid hnew) hadd
      hrm⟩

/-- Adding a string, to an array and for a new key, and removing it again. -/
theorem rm_undoes_add_sample :
    RmUndoesAdd JsonText.codec (JsonText.codec.text 0 Sample.members) "b".toList "word".toList
      ∧ RmUndoesAdd JsonText.codec (JsonText.codec.text 0 Sample.members) "c".toList
        "word".toList := by
  have hword : decodeText JsonText.codec "word".toList = some (.string "word".toList) := rfl
  constructor
  · refine rm_undoes_add JsonText.codec_lawful JsonText.codec_strict _ _ _ _
      Sample.callRoot_members rfl (.inr ⟨[.integer 5, .bool true], rfl, .inl ?_⟩)
    decide
  · refine rm_undoes_add JsonText.codec_lawful JsonText.codec_strict _ _ _ _
      Sample.callRoot_members rfl (.inl ⟨rfl, fun xs h => ?_⟩)
    rw [hword] at h
    exact nomatch h

/-- In the library that can be run the two calls leave what the two operations make. -/
theorem equalUpToOrder_of_codec {doc k v : Text} {root : Json}
    (hroot : callRoot JsonText.codec (.ofText doc) = some root) (hobj : root.isObject = true)
    (h : RmUndoesAdd JsonText.codec doc k v) :
    EqualUpToOrder root k (decodeText JsonText.codec v)
      (applyPair JsonText.codec "rm".toList
        (applyPair JsonText.codec "add".toList root k v).1 k v).1 := by
  have hJ := JsonText.codec_lawful
  have htexts : ∀ p ∈ ([(k, some v)] : KeyVals), p.2 ≠ none := by simp
  obtain ⟨hvalid, -⟩ := callRoot_spec hJ hroot
  obtain ⟨root', r, t, r', t', new, hroot', hadd, -, ht, hrm, -, ht', hnew, hequal⟩ := h
  obtain rfl := Option.some.inj (hroot.symm.trans hroot')
  obtain rfl := Except.ok.inj ((call_eq hJ hroot
    (MsParam.parseMspForStr_ofText (by decide)) htexts).symm.trans hadd)
  obtain rfl := Option.some.inj ht
  have hmade := valid_applyPair hJ hvalid "add".toList k v
  have hmadeObj := (isObject_applyPair JsonText.codec "add".toList root k v).trans hobj
  have hmadeC := Json.isContainer_of_isObject hmadeObj
  obtain ⟨hne, hnull⟩ := JsonText.codec_strict.text_ne hJ 0 hmade hmadeC
  have hread : JsonText.codec.loads (JsonText.codec.text 0 _) = some _ :=
    JsonText.loads_render 0 hmade hmadeC
  have hnow := (callRoot_text hnull hne).trans hread
  obtain rfl := Except.ok.inj ((call_eq hJ hnow
    (MsParam.parseMspForStr_ofText (by decide)) htexts).symm.trans hrm)
  obtain rfl := Option.some.inj ht'
  have hremoved := valid_applyPair hJ hmade "rm".toList k v
  have hremovedC := Json.isContainer_of_isObject
    ((isObject_applyPair JsonText.codec "rm".toList _ k v).trans hmadeObj)
  obtain rfl := Option.some.inj
    ((JsonText.loads_render 0 hremoved hremovedC).symm.trans hnew)
  exact hequal

/-- A document is not as it was where a member that was not there is left. -/
theorem not_equalUpToOrder_of_none {root new : Json} {k : Text} {jval : Option Json} {w : Json}
    (hroot : root.Valid) (hnew : new.Valid) (hnone : root.objectGet k = none)
    (hsome : new.objectGet k = some w) : ¬ EqualUpToOrder root k jval new := by
  rintro (hequal | ⟨-, -, es, fs, gs, hes, -⟩)
  · have hmember := Json.equalMember_of_equal hroot hnew hequal k
    rw [hnone, hsome] at hmember
    exact nomatch hmember
  · exact nomatch hnone.symm.trans hes

/-- A document is not as it was where an array has another length. -/
theorem not_equalUpToOrder_of_length {root new : Json} {k : Text} {jval : Option Json}
    {es gs : List Json} (hroot : root.Valid) (hnew : new.Valid)
    (hes : root.objectGet k = some (.array es)) (hgs : new.objectGet k = some (.array gs))
    (hlen : es.length ≠ gs.length) : ¬ EqualUpToOrder root k jval new := by
  rintro (hequal | ⟨-, -, es', fs, gs', hes', -, hperm, hfs, hgs'⟩)
  · have hmember := Json.equalMember_of_equal hroot hnew hequal k
    rw [hes, hgs] at hmember
    cases hmember with
    | some h => exact hlen ((Json.equal_array _ _).mp h).length_eq
  · obtain rfl := Json.array.inj (Option.some.inj (hes.symm.trans hes'))
    obtain rfl := Json.array.inj (Option.some.inj (hgs.symm.trans hgs'))
    exact hlen (hperm.length_eq.symm.trans hfs.length_eq)

/-- A value that is not among the elements the search reaches is not removed. -/
theorem removeMatch_of_unreached {es : List Json} {jval : Option Json} {x : Json}
    (hlen : es.length = 2 ^ 31) (hes : ∀ e ∈ es, equalVal jval e = false) :
    removeMatch (es ++ [x]) jval = es ++ [x] := by
  have htake : (es ++ [x]).take (2 ^ 31) = es := List.take_left' hlen
  unfold removeMatch
  dsimp only
  rw [htake, List.findIdx_eq_length_of_false hes, if_neg (Nat.lt_irrefl _)]

/-- What is left of an array under the key: it has not been taken back. -/
theorem not_undone_of_empty :
    ¬ RmUndoesAdd JsonText.codec [] "a".toList "[]".toList := by
  intro h
  have hJ := JsonText.codec_lawful
  have hdecode : decodeText JsonText.codec "[]".toList = some (.array []) := by
    rw [decodeText, if_neg (by decide), hJ.loads_array]
  have hnew := valid_applyPair hJ (valid_applyPair hJ .empty "add".toList "a".toList "[]".toList)
    "rm".toList "a".toList "[]".toList
  suffices hleft : _ = some (Json.array []) from
    not_equalUpToOrder_of_none .empty hnew rfl hleft
      (equalUpToOrder_of_codec (callRoot_empty hJ) rfl h)
  rw [objectGet_applyPair (isObject_applyPair JsonText.codec _ _ _ _), objectGet_applyPair rfl]
  show rmAfter (decodeText JsonText.codec "[]".toList) (addAfter JsonText.codec "a".toList
    (decodeText JsonText.codec "[]".toList) none) = _
  rw [hdecode, addAfter, setAfter, if_pos (hJ.utf8_ascii _ (by decide))]
  · rfl
  · exact fun es h => by cases h

/-- What has been added to an array of `2^31` other elements is not found. -/
theorem not_undone_of_long {es : List Json} (hlen : es.length = 2 ^ 31)
    (hall : ∀ e ∈ es, e = .null) :
    ¬ RmUndoesAdd JsonText.codec (oneMember (.array es)) "a".toList "{}".toList := by
  intro h
  have hJ := JsonText.codec_lawful
  have hvalid : (Json.array es).Valid := .array (fun e he => hall e he ▸ .null)
  have hdecode : decodeText JsonText.codec "{}".toList = some (.object []) := by
    rw [decodeText, if_neg (by decide), hJ.loads_object]
  have hmember : (Json.object [("a".toList, Json.array es)]).objectGet "a".toList
      = some (.array es) := rfl
  have hnew := valid_applyPair hJ (valid_applyPair hJ (oneMember_valid hvalid) "add".toList
    "a".toList "{}".toList) "rm".toList "a".toList "{}".toList
  have hne : es.length ≠ (es ++ [Json.object []]).length := by
    rw [List.length_append, List.length_singleton]
    exact Nat.ne_of_lt (Nat.lt_succ_self _)
  suffices hleft : _ = some (Json.array (es ++ [.object []])) from
    not_equalUpToOrder_of_length (oneMember_valid hvalid) hnew hmember hleft hne
      (equalUpToOrder_of_codec (callRoot_oneMember hvalid) rfl h)
  rw [objectGet_applyPair (isObject_applyPair JsonText.codec _ _ _ _), objectGet_applyPair rfl]
  show rmAfter (decodeText JsonText.codec "{}".toList) (addAfter JsonText.codec "a".toList
    (decodeText JsonText.codec "{}".toList) (some (.array es))) = _
  rw [hdecode]
  show some (Json.array (removeMatch (es ++ [.object []]) (some (.object [])))) = _
  rw [removeMatch_of_unreached hlen (fun e he => hall e he ▸ rfl)]

/-- **Removing does not undo adding an array** under a key that is not there, nor adding to
an array of `2^31` elements. -/
theorem add_not_undone :
    (¬ ∀ (J : Jansson) (doc k v : Text) (root : Json), J.Lawful → J.Strict →
        callRoot J (.ofText doc) = some root → root.isObject = true → J.utf8 v = true →
        root.objectGet k = none → RmUndoesAdd J doc k v)
      ∧ ¬ ∀ (J : Jansson) (doc k v : Text) (root : Json) (es : List Json), J.Lawful → J.Strict →
        callRoot J (.ofText doc) = some root → root.isObject = true → J.utf8 v = true →
        root.objectGet k = some (.array es) → RmUndoesAdd J doc k v := by
  have hJ := JsonText.codec_lawful
  constructor
  · intro h
    exact not_undone_of_empty (h _ _ _ _ _ hJ JsonText.codec_strict (callRoot_empty hJ) rfl
      (hJ.utf8_ascii _ (by decide)) rfl)
  · intro h
    obtain ⟨es, hlen, hall⟩ : ∃ es : List Json, es.length = 2 ^ 31 ∧ ∀ e ∈ es, e = .null :=
      ⟨List.replicate (2 ^ 31) .null, List.length_replicate, fun _ he => List.eq_of_mem_replicate he⟩
    have hvalid : (Json.array es).Valid := .array (fun e he => hall e he ▸ .null)
    exact not_undone_of_long hlen hall (h _ _ _ _ _ es hJ JsonText.codec_strict
      (callRoot_oneMember hvalid) rfl (hJ.utf8_ascii _ (by decide)) rfl)
