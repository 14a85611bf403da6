import IrodsMicroservices.JsonArrayOps
import IrodsMicroservices.KeyedFold

/-!
# Operations on a JSON object

`msi_json_objops` keeps metadata as the text of a JSON object. A call reads the
text, carries out one operation for every pair of a key-value list and writes the
document again. What an operation does to the document it does to the member of
one key (`memberAfter`), so a call is a list of updates of which each touches one
key.

The list is an in-out parameter: getting stores the text of a member in the place
of the value, and that text is NULL where `json_dumps` gives none – for a member
that is not there, and for a number. The next call compares it with `strcmp`.
Setting and adding do not look at what jansson returns: a member that cannot be
set is left as it was, and the call returns 0.
-/

/-- The keys and values of a `keyValPair_t`, a value that is NULL being `none`. -/
abbrev KeyVals := List (Text × Option Text)

/-- A list whose values are texts. -/
def KeyVals.ofTexts (ps : List (Text × Text)) : KeyVals := ps.map (fun p => (p.1, some p.2))

/-- The parameter for the key-value list: its type name, `none` where that pointer
is NULL, and the list its structure holds, `none` where there is no structure. -/
structure KvpParam where
  type : Option MsType
  pairs : Option KeyVals

/-! ## The code -/

/-- `json_object_set_new(root, key, jval)`: without effect also for a key that is not
valid UTF-8. -/
def Jansson.objectSetNew (J : Jansson) (root : Json) (key : Text) (jval : Option Json) : Json :=
  if J.utf8 key then root.objectSetNew key jval else root

/-- The value of a text of the list: NULL for a text that is not valid UTF-8. -/
def decodeText (J : Jansson) (inVal : Text) : Option Json :=
  if inVal = "null".toList then some .null
  else match J.loads inVal with
    | some v => some v
    | none => J.string inVal

/-- The text `get` stores for a member. -/
def encodeMember (J : Jansson) : Option Json → Option Text
  | none => none
  | some .null => some "null".toList
  | some (.bool true) => some "true".toList
  | some (.bool false) => some "false".toList
  | some (.string s) => some s
  | some data => J.dumps 0 data

/-- The elements of a member after the first one has been removed that is equal to
the value. The position is an `int`, so the search ends before it overflows. -/
def removeMatch (es : List Json) (jval : Option Json) : List Json :=
  let iMatch := (es.take (2 ^ 31)).findIdx (equalVal jval)
  if iMatch < (es.take (2 ^ 31)).length then es.eraseIdx iMatch else es

/-- The branch for `add`. -/
def addMember (J : Jansson) (root : Json) (inKey : Text) (jval : Option Json) : Json :=
  match root.objectGet inKey with
  -- the member is an array already: the value becomes its last element
  | some (.array es) => root.objectSetNew inKey (some (.array (Json.appendNew es jval)))
  | _ => J.objectSetNew root inKey jval

/-- The branch for `rm`. -/
def rmMember (root : Json) (inKey : Text) (jval : Option Json) : Json :=
  match root.objectGet inKey with
  | none => root
  -- the array stays, even where its last element is removed
  | some (.array es) => root.objectSetNew inKey (some (.array (removeMatch es jval)))
  | some data => if equalVal jval data then root.objectDel inKey else root

/-- What the loop does for a pair: the document, and the value for the key. -/
def applyPair (J : Jansson) (ops : Text) (root : Json) (inKey inVal : Text) :
    Json × Option Text :=
  let jval := decodeText J inVal
  if ops = "get".toList then (root, encodeMember J (root.objectGet inKey))
  else if ops = "add".toList then (addMember J root inKey jval, some inVal)
  else if ops = "set".toList then (J.objectSetNew root inKey jval, some inVal)
  else if ops = "rm".toList then (rmMember root inKey jval, some inVal)
  else (root, some inVal)

/-- The loop over the pairs. `strcmp` follows the value of a pair. -/
def objopsLoop (J : Jansson) (ops : Text) : Json → KeyVals → Except Fault (Json × KeyVals)
  | root, [] => .ok (root, [])
  | _, (_, none) :: _ => .error .nullPointer
  | root, (inKey, some inVal) :: rest =>
    let (root, val) := applyPair J ops root inKey inVal
    (objopsLoop J ops root rest).map (fun r => (r.1, (inKey, val) :: r.2))

/-- What a call leaves: its status, what it has stored as the document, and the list. -/
structure ObjopsResult where
  status : Status
  jsonStr : Option Text
  kvp : Option KeyVals

/-- The document a text is read as: the empty text is an empty object. -/
def loadRoot (J : Jansson) (inJsonStr : Text) : Option Json :=
  J.loads (if inJsonStr = [] then "{}".toList else inJsonStr)

/-- **`msi_json_objops`**. -/
def msiJsonObjops (J : Jansson) (jsonStr : MsParam) (kvp : KvpParam) (ops : MsParam) :
    Except Fault ObjopsResult :=
  let refused : ObjopsResult := ⟨.named .sysInvalidInputParam, none, kvp.pairs⟩
  match jsonStr.parseMspForStr, ops.parseMspForStr with
  | some inJsonStr, some strOps =>
    match kvp.pairs with
    | some inKVP =>
      if kvp.type = some .keyValPair then
        match loadRoot J inJsonStr with
        | none => .ok refused
        | some root =>
          (objopsLoop J strOps root inKVP).map
            (fun r => ⟨.num 0, J.dumps 0 r.1, some r.2⟩)
      else .ok refused
    | none => .ok refused
  | _, _ => .ok refused

/-! ## What an operation does to a member -/

/-- What `set` makes of a member. -/
def setAfter (J : Jansson) (inKey : Text) (jval data : Option Json) : Option Json :=
  if J.utf8 inKey then jval.or data else data

/-- What `add` makes of a member. -/
def addAfter (J : Jansson) (inKey : Text) (jval data : Option Json) : Option Json :=
  match data with
  | some (.array es) => some (.array (Json.appendNew es jval))
  | _ => setAfter J inKey jval data

/-- What `rm` makes of a member. -/
def rmAfter (jval data : Option Json) : Option Json :=
  match data with
  | none => none
  | some (.array es) => some (.array (removeMatch es jval))
  | some v => if equalVal jval v then none else some v

/-- **What an operation makes of the member of its key**, in an object. -/
def memberAfter (J : Jansson) (ops inKey inVal : Text) (data : Option Json) : Option Json :=
  let jval := decodeText J inVal
  if ops = "get".toList then data
  else if ops = "add".toList then addAfter J inKey jval data
  else if ops = "set".toList then setAfter J inKey jval data
  else if ops = "rm".toList then rmAfter jval data
  else data

/-! ## One pair -/

section ApplyPair

variable {J : Jansson} {ops inKey inVal : Text} {root : Json}

theorem Jansson.isObject_objectSetNew (J : Jansson) (root : Json) (key : Text)
    (jval : Option Json) : (J.objectSetNew root key jval).isObject = root.isObject := by
  unfold Jansson.objectSetNew
  split
  · exact Json.isObject_objectSetNew _ _ _
  · rfl

theorem Jansson.objectGet_objectSetNew (J : Jansson) {root : Json} (hroot : root.isObject = true)
    (key : Text) (jval : Option Json) :
    (J.objectSetNew root key jval).objectGet key
      = setAfter J key jval (root.objectGet key) := by
  unfold Jansson.objectSetNew setAfter
  split
  · exact Json.objectGet_objectSetNew_self hroot jval
  · rfl

theorem Jansson.objectGet_objectSetNew_of_ne (J : Jansson) {key k : Text} (h : k ≠ key)
    (root : Json) (jval : Option Json) :
    (J.objectSetNew root key jval).objectGet k = root.objectGet k := by
  unfold Jansson.objectSetNew
  split
  · exact Json.objectGet_objectSetNew_of_ne h root jval
  · rfl

theorem Jansson.valid_objectSetNew (J : Jansson) {root : Json} (hroot : root.Valid) (key : Text)
    {jval : Option Json} (hjval : ∀ v, jval = some v → v.Valid) :
    (J.objectSetNew root key jval).Valid := by
  unfold Jansson.objectSetNew
  split
  · exact hroot.objectSetNew key hjval
  · exact hroot

/-- The value of a text has no key twice. -/
theorem decodeText_valid (hJ : J.Lawful) {v : Json} (h : decodeText J inVal = some v) :
    v.Valid := by
  unfold decodeText at h
  split at h
  · exact Option.some.inj h ▸ .null
  · split at h
    · rename_i w hloads
      exact Option.some.inj h ▸ hJ.loads_valid hloads
    · exact Jansson.string_eq_some h ▸ .string _

theorem appendNew_valid {es : List Json} (hes : ∀ e ∈ es, e.Valid) {jval : Option Json}
    (hjval : ∀ v, jval = some v → v.Valid) : (Json.array (Json.appendNew es jval)).Valid := by
  refine .array (List.forall_mem_append.mpr ⟨hes, fun e he => hjval e ?_⟩)
  exact Option.mem_toList.mp he

theorem removeMatch_sublist (es : List Json) (jval : Option Json) :
    (removeMatch es jval).Sublist es := by
  unfold removeMatch
  dsimp only
  split
  · exact List.eraseIdx_sublist _ _
  · exact List.Sublist.refl _

theorem removeMatch_valid {es : List Json} (hes : ∀ e ∈ es, e.Valid) (jval : Option Json) :
    (Json.array (removeMatch es jval)).Valid :=
  .array (fun e he => hes e ((removeMatch_sublist es jval).subset he))

/-- An operation leaves an object an object. -/
theorem isObject_applyPair (J : Jansson) (ops : Text) (root : Json) (inKey inVal : Text) :
    (applyPair J ops root inKey inVal).1.isObject = root.isObject := by
  unfold applyPair
  dsimp only
  split
  · rfl
  split
  · unfold addMember
    split
    · exact Json.isObject_objectSetNew _ _ _
    · exact J.isObject_objectSetNew _ _ _
  split
  · exact J.isObject_objectSetNew _ _ _
  split
  · unfold rmMember
    split
    · rfl
    · exact Json.isObject_objectSetNew _ _ _
    · split
      · exact Json.isObject_objectDel _ _
      · rfl
  · rfl

/-- **An operation on anything but an object has no effect.** -/
theorem applyPair_of_not_object (hroot : root.isObject = false) :
    (applyPair J ops root inKey inVal).1 = root := by
  have hset : J.objectSetNew root inKey (decodeText J inVal) = root := by
    unfold Jansson.objectSetNew
    rw [Json.objectSetNew_of_not_object hroot, ite_self]
  unfold applyPair addMember rmMember
  dsimp only
  rw [Json.objectGet_of_not_object hroot]
  dsimp only
  rw [hset]
  split
  · rfl
  split
  · rfl
  split
  · rfl
  split
  · rfl
  · rfl

theorem objectGet_addMember (hroot : root.isObject = true) (jval : Option Json) :
    (addMember J root inKey jval).objectGet inKey
      = addAfter J inKey jval (root.objectGet inKey) := by
  have hset := J.objectGet_objectSetNew hroot inKey jval
  unfold addMember
  cases hdata : root.objectGet inKey with
  | none =>
    rw [hdata] at hset
    exact hset
  | some data =>
    rw [hdata] at hset
    cases data with
    | array es => exact Json.objectGet_objectSetNew_self hroot _
    | _ => exact hset

theorem objectGet_rmMember (hroot : root.isObject = true) (jval : Option Json) :
    (rmMember root inKey jval).objectGet inKey = rmAfter jval (root.objectGet inKey) := by
  unfold rmMember
  cases hdata : root.objectGet inKey with
  | none => exact hdata
  | some data =>
    have hdel : (if equalVal jval data then root.objectDel inKey else root).objectGet inKey
        = if equalVal jval data then none else some data := by
      split
      · rw [Json.objectGet_objectDel, if_pos rfl]
      · exact hdata
    cases data with
    | array es => exact Json.objectGet_objectSetNew_self hroot _
    | _ => exact hdel

/-- **What an operation does to the member of its key.** -/
theorem objectGet_applyPair (hroot : root.isObject = true) :
    (applyPair J ops root inKey inVal).1.objectGet inKey
      = memberAfter J ops inKey inVal (root.objectGet inKey) := by
  unfold applyPair memberAfter
  dsimp only
  split
  · rfl
  split
  · exact objectGet_addMember hroot _
  split
  · exact J.objectGet_objectSetNew hroot inKey _
  split
  · exact objectGet_rmMember hroot _
  · rfl

/-- **An operation leaves the members of the other keys.** -/
theorem objectGet_applyPair_of_ne {k : Text} (hk : k ≠ inKey) :
    (applyPair J ops root inKey inVal).1.objectGet k = root.objectGet k := by
  unfold applyPair
  dsimp only
  split
  · rfl
  split
  · unfold addMember
    split
    · exact Json.objectGet_objectSetNew_of_ne hk _ _
    · exact J.objectGet_objectSetNew_of_ne hk _ _
  split
  · exact J.objectGet_objectSetNew_of_ne hk _ _
  split
  · unfold rmMember
    split
    · rfl
    · exact Json.objectGet_objectSetNew_of_ne hk _ _
    · split
      · rw [Json.objectGet_objectDel, if_neg hk]
      · rfl
  · rfl

/-- An operation keeps the keys distinct. -/
theorem valid_applyPair (hJ : J.Lawful) (hroot : root.Valid) (ops inKey inVal : Text) :
    (applyPair J ops root inKey inVal).1.Valid := by
  have hjval : ∀ v, decodeText J inVal = some v → v.Valid := fun _ => decodeText_valid hJ
  have harray : ∀ {es : List Json}, root.objectGet inKey = some (.array es) →
      ∀ e ∈ es, e.Valid := fun hes => (hroot.objectGet hes).elems
  unfold applyPair
  dsimp only
  split
  · exact hroot
  split
  · unfold addMember
    split
    · rename_i hes
      exact hroot.objectSetNew _ (fun v hv => Option.some.inj hv ▸ appendNew_valid (harray hes) hjval)
    · exact J.valid_objectSetNew hroot _ hjval
  split
  · exact J.valid_objectSetNew hroot _ hjval
  split
  · unfold rmMember
    split
    · exact hroot
    · rename_i hes
      exact hroot.objectSetNew _ (fun v hv => Option.some.inj hv ▸ removeMatch_valid (harray hes) _)
    · split
      · exact hroot.objectDel _
      · exact hroot
  · exact hroot

end ApplyPair

/-! ## The loop -/

/-- The document after a pair. -/
def afterPair (J : Jansson) (ops : Text) (root : Json) (p : Text × Option Text) : Json :=
  match p.2 with
  | none => root
  | some inVal => (applyPair J ops root p.1 inVal).1

/-- What a pair makes of the member of its key. -/
def memberAfterPair (J : Jansson) (ops : Text) (p : Text × Option Text) (data : Option Json) :
    Option Json :=
  match p.2 with
  | none => data
  | some inVal => memberAfter J ops p.1 inVal data

/-- The list after the loop over it. -/
def valuesAfter (J : Jansson) (ops : Text) (root : Json) (kvs : KeyVals) : KeyVals :=
  if ops = "get".toList then kvs.map (fun p => (p.1, encodeMember J (root.objectGet p.1)))
  else kvs

section Loop

variable {J : Jansson} {ops : Text}

/-- **A call is a list of updates of which each touches one key.** -/
theorem keyedStep_afterPair (J : Jansson) (ops : Text) :
    KeyedStep Json.objectGet (afterPair J ops) (memberAfterPair J ops)
      (fun root => root.isObject = true) where
  keeps := by
    rintro root hroot ⟨k, _ | v⟩
    · exact hroot
    · exact (isObject_applyPair J ops root k v).trans hroot
  self := by
    rintro root hroot ⟨k, _ | v⟩
    · rfl
    · exact objectGet_applyPair hroot
  other := by
    rintro root - ⟨k, _ | v⟩ k' hk
    · rfl
    · exact objectGet_applyPair_of_ne hk

theorem afterPair_of_not_object {root : Json} (hroot : root.isObject = false)
    (p : Text × Option Text) : afterPair J ops root p = root := by
  obtain ⟨k, _ | v⟩ := p
  · rfl
  · exact applyPair_of_not_object hroot

theorem foldl_afterPair_of_not_object {root : Json} (hroot : root.isObject = false)
    (kvs : KeyVals) : kvs.foldl (afterPair J ops) root = root := by
  induction kvs with
  | nil => rfl
  | cons p kvs ih => rw [List.foldl_cons, afterPair_of_not_object hroot, ih]

theorem valid_foldl_afterPair (hJ : J.Lawful) (ops : Text) (kvs : KeyVals) :
    ∀ {root : Json}, root.Valid → (kvs.foldl (afterPair J ops) root).Valid := by
  induction kvs with
  | nil => exact fun h => h
  | cons p kvs ih =>
    intro root hroot
    refine ih ?_
    obtain ⟨k, _ | v⟩ := p
    · exact hroot
    · exact valid_applyPair hJ hroot ops k v

/-- Getting changes no document. -/
theorem afterPair_get (root : Json) (p : Text × Option Text) :
    afterPair J "get".toList root p = root := by
  obtain ⟨k, _ | v⟩ := p <;> rfl

/-- An operation keeps the kind of the document. -/
theorem isContainer_foldl_afterPair {root : Json} (hroot : root.isContainer = true)
    (kvs : KeyVals) : (kvs.foldl (afterPair J ops) root).isContainer = true := by
  cases hobj : root.isObject with
  | true =>
    exact Json.isContainer_of_isObject ((keyedStep_afterPair J ops).foldl_keeps kvs hobj)
  | false => rwa [foldl_afterPair_of_not_object hobj]

/-- The value a pair leaves. -/
theorem applyPair_snd (root : Json) (inKey inVal : Text) :
    (applyPair J ops root inKey inVal).2
      = if ops = "get".toList then encodeMember J (root.objectGet inKey) else some inVal := by
  unfold applyPair
  dsimp only
  split
  · rfl
  split
  · rfl
  split
  · rfl
  split
  · rfl
  · rfl

/-- **What the loop leaves**, when every value is a text. -/
theorem objopsLoop_eq {kvs : KeyVals} (h : ∀ p ∈ kvs, p.2 ≠ none) : ∀ root : Json,
    objopsLoop J ops root kvs
      = .ok (kvs.foldl (afterPair J ops) root, valuesAfter J ops root kvs) := by
  induction kvs with
  | nil =>
    intro root
    unfold valuesAfter
    rw [List.map_nil, ite_self]
    rfl
  | cons p kvs ih =>
    intro root
    obtain ⟨k, _ | v⟩ := p
    · exact absurd rfl (h _ List.mem_cons_self)
    · unfold objopsLoop
      dsimp only
      rw [ih (fun p hp => h p (List.mem_cons_of_mem _ hp)), applyPair_snd]
      unfold valuesAfter
      by_cases hget : ops = "get".toList
      · subst hget
        rfl
      · rw [if_neg hget, if_neg hget, if_neg hget]
        rfl

/-- A value that is NULL is followed. -/
theorem objopsLoop_of_null {kvs : KeyVals} (h : ∃ p ∈ kvs, p.2 = none) : ∀ root : Json,
    objopsLoop J ops root kvs = .error .nullPointer := by
  induction kvs with
  | nil => exact absurd h (by simp)
  | cons p kvs ih =>
    intro root
    obtain ⟨k, _ | v⟩ := p
    · rfl
    · have hrest : ∃ p ∈ kvs, p.2 = none := by
        obtain ⟨q, hq, hnull⟩ := h
        rcases List.mem_cons.mp hq with rfl | hq
        · exact nomatch hnull
        · exact ⟨q, hq, hnull⟩
      unfold objopsLoop
      dsimp only
      rw [ih hrest]
      rfl

end Loop

/-! ## A call -/

/-- The parameter a list is passed in. -/
def KvpParam.ofPairs (kvs : KeyVals) : KvpParam := ⟨some .keyValPair, some kvs⟩

@[simp] theorem KvpParam.pairs_ofPairs (kvs : KeyVals) : (ofPairs kvs).pairs = some kvs := rfl

@[simp] theorem KvpParam.type_ofPairs (kvs : KeyVals) :
    (ofPairs kvs).type = some .keyValPair := rfl

/-- The document a call works on: none where it is refused. -/
def callRoot (J : Jansson) (jsonStr : MsParam) : Option Json :=
  jsonStr.parseMspForStr.bind (loadRoot J)

section Call

variable {J : Jansson} {jsonStr ops : MsParam} {kvs : KeyVals} {root : Json}

theorem loadRoot_spec (hJ : J.Lawful) {t : Text} (h : loadRoot J t = some root) :
    root.Valid ∧ root.isContainer = true :=
  ⟨hJ.loads_valid h, hJ.loads_container h⟩

theorem callRoot_spec (hJ : J.Lawful) (h : callRoot J jsonStr = some root) :
    root.Valid ∧ root.isContainer = true := by
  obtain ⟨t, -, ht⟩ := Option.bind_eq_some_iff.mp h
  exact loadRoot_spec hJ ht

/-- A call on no document is refused: an error is returned, and nothing is stored. -/
theorem call_of_no_root (h : callRoot J jsonStr = none) :
    msiJsonObjops J jsonStr (.ofPairs kvs) ops
      = .ok ⟨.named .sysInvalidInputParam, none, some kvs⟩ := by
  unfold callRoot at h
  unfold msiJsonObjops
  dsimp only
  split
  · rename_i t o ht _
    rw [ht, Option.bind_some] at h
    rw [KvpParam.pairs_ofPairs]
    dsimp only
    rw [if_pos (KvpParam.type_ofPairs kvs), h]
  · rfl

theorem call_of_no_ops (h : ops.parseMspForStr = none) :
    msiJsonObjops J jsonStr (.ofPairs kvs) ops
      = .ok ⟨.named .sysInvalidInputParam, none, some kvs⟩ := by
  unfold msiJsonObjops
  rw [h]
  split
  · rename_i heq
    exact nomatch heq
  · rfl

/-- A call on a document is its loop. -/
theorem call_eq_loop {strOps : Text} (h : callRoot J jsonStr = some root)
    (hops : ops.parseMspForStr = some strOps) :
    msiJsonObjops J jsonStr (.ofPairs kvs) ops
      = (objopsLoop J strOps root kvs).map (fun r => ⟨.num 0, J.dumps 0 r.1, some r.2⟩) := by
  obtain ⟨t, ht, hroot⟩ := Option.bind_eq_some_iff.mp h
  unfold msiJsonObjops
  rw [ht, hops, KvpParam.pairs_ofPairs]
  dsimp only
  rw [if_pos (KvpParam.type_ofPairs kvs), hroot]

/-- **What a call leaves** whose values are texts: it returns 0, and has stored the
document its pairs make. -/
theorem call_eq {strOps : Text} (hJ : J.Lawful) (h : callRoot J jsonStr = some root)
    (hops : ops.parseMspForStr = some strOps) (hkvs : ∀ p ∈ kvs, p.2 ≠ none) :
    msiJsonObjops J jsonStr (.ofPairs kvs) ops
      = .ok ⟨.num 0, some (J.text 0 (kvs.foldl (afterPair J strOps) root)),
          some (valuesAfter J strOps root kvs)⟩ := by
  have hc : (kvs.foldl (afterPair J strOps) root).isContainer = true :=
    isContainer_foldl_afterPair (callRoot_spec hJ h).2 kvs
  rw [call_eq_loop h hops, objopsLoop_eq hkvs, Except.map, Jansson.dumps, if_pos hc]

end Call

@[simp] theorem KeyVals.map_fst_ofTexts (ps : List (Text × Text)) :
    (KeyVals.ofTexts ps).map Prod.fst = ps.map Prod.fst := by
  rw [KeyVals.ofTexts, List.map_map]
  rfl

theorem KeyVals.ofTexts_ne_none (ps : List (Text × Text)) :
    ∀ p ∈ KeyVals.ofTexts ps, p.2 ≠ none := by
  intro p hp
  obtain ⟨q, -, rfl⟩ := List.mem_map.mp hp
  exact Option.some_ne_none _

/-! ## Setting -/

/-- What a set of texts leaves for a document. -/
def setCall (J : Jansson) (doc : Text) (ps : List (Text × Text)) : Except Fault ObjopsResult :=
  msiJsonObjops J (.ofText doc) (.ofPairs (.ofTexts ps)) (.ofText "set".toList)

/-- **A successful set is stored**: the call returns 0 and what it has written is an
object in which every key of the list has the value of its text and every other member
is as it was, or it returns an error and writes nothing. -/
def SetStored (J : Jansson) (doc : Text) (ps : List (Text × Text)) : Prop :=
  ∃ r, setCall J doc ps = .ok r
    ∧ (r.status = .num 0
        ∧ (∃ (root new : Json) (t : Text), callRoot J (.ofText doc) = some root
          ∧ r.jsonStr = some t ∧ J.loads t = some new ∧ new.isObject = true
          ∧ (∀ p ∈ ps, ∃ v, decodeText J p.2 = some v
              ∧ Json.EqualMember (some v) (new.objectGet p.1))
          ∧ ∀ k ∉ ps.map Prod.fst, Json.EqualMember (root.objectGet k) (new.objectGet k))
      ∨ r.status.isNeg = true ∧ r.jsonStr = none)

/-- **What can be set**: the document is refused, or it is an object and every text
has a value, for a key that is valid UTF-8 or has this value already. -/
def CanSet (J : Jansson) (doc : Text) (ps : List (Text × Text)) : Prop :=
  ∀ root, callRoot J (.ofText doc) = some root → root.isObject = true
    ∧ ∀ p ∈ ps, ∃ v, decodeText J p.2 = some v
      ∧ (J.utf8 p.1 = true ∨ Json.EqualMember (some v) (root.objectGet p.1))

section Set

variable {J : Jansson} {doc : Text} {ps : List (Text × Text)} {root : Json}

theorem setCall_eq (hJ : J.Lawful) (h : callRoot J (.ofText doc) = some root) :
    setCall J doc ps = .ok ⟨.num 0,
      some (J.text 0 ((KeyVals.ofTexts ps).foldl (afterPair J "set".toList) root)),
      some (.ofTexts ps)⟩ :=
  call_eq hJ h (MsParam.parseMspForStr_ofText (by decide)) (KeyVals.ofTexts_ne_none ps)

/-- What is found in the document a set makes, under a key of the list. -/
theorem objectGet_set (hroot : root.isObject = true) (hps : (ps.map Prod.fst).Nodup)
    {p : Text × Text} (hp : p ∈ ps) :
    ((KeyVals.ofTexts ps).foldl (afterPair J "set".toList) root).objectGet p.1
      = setAfter J p.1 (decodeText J p.2) (root.objectGet p.1) := by
  have hmem : (p.1, some p.2) ∈ KeyVals.ofTexts ps := List.mem_map_of_mem hp
  have hnodup : ((KeyVals.ofTexts ps).map Prod.fst).Nodup := by
    rwa [KeyVals.map_fst_ofTexts]
  exact (keyedStep_afterPair J "set".toList).get_foldl_of_mem hnodup hmem hroot

/-- A set changes what has been written so that it equals what the list asks for
exactly where the member could be set. -/
theorem equalMember_set (hJ : J.Lawful) (p : Text × Text) :
    (∃ v, decodeText J p.2 = some v ∧ Json.EqualMember (some v)
        (setAfter J p.1 (decodeText J p.2) (root.objectGet p.1)))
      ↔ ∃ v, decodeText J p.2 = some v
        ∧ (J.utf8 p.1 = true ∨ Json.EqualMember (some v) (root.objectGet p.1)) := by
  refine exists_congr fun v => and_congr_right fun hv => ?_
  rw [hv, setAfter]
  by_cases hk : J.utf8 p.1 = true
  · rw [if_pos hk, Option.some_or]
    exact ⟨fun _ => .inl hk, fun _ => .some (Json.equal_refl (decodeText_valid hJ hv))⟩
  · rw [if_neg hk]
    exact ⟨.inr, fun h => h.resolve_left hk⟩

/-- **A set is stored if and only if everything in the list can be set.** -/
theorem set_stored_iff (hJ : J.Lawful) (doc : Text) (ps : List (Text × Text))
    (hps : (ps.map Prod.fst).Nodup) : SetStored J doc ps ↔ CanSet J doc ps := by
  cases hroot : callRoot J (.ofText doc) with
  | none =>
    refine ⟨fun _ root h => absurd (hroot.symm.trans h) (by simp), fun _ => ?_⟩
    exact ⟨_, call_of_no_root hroot, .inr ⟨rfl, rfl⟩⟩
  | some root =>
    obtain ⟨hvalid, hc⟩ := callRoot_spec hJ hroot
    set made := (KeyVals.ofTexts ps).foldl (afterPair J "set".toList) root with hmade
    have hmadeValid : made.Valid := valid_foldl_afterPair hJ _ _ hvalid
    have hmadeC : made.isContainer = true := isContainer_foldl_afterPair hc _
    obtain ⟨new, hnew, hequal⟩ := hJ.loads_text 0 hmadeValid hmadeC
    have hnewValid := hJ.loads_valid hnew
    have hback := Json.equal_symm hmadeValid hnewValid hequal
    constructor
    · rintro ⟨r, hr, hstored⟩ root' hroot'
      obtain rfl := Option.some.inj (hroot.symm.trans hroot')
      obtain rfl := Except.ok.inj ((setCall_eq hJ hroot).symm.trans hr)
      rcases hstored with ⟨-, root', new', t, hroot', ht, hnew', hobj, hkeys, -⟩ | ⟨hneg, -⟩
      · obtain rfl := Option.some.inj ht
        obtain rfl := Option.some.inj (hnew.symm.trans hnew')
        have hmadeObj : made.isObject = true := (Json.isObject_of_equal hequal).trans hobj
        have hrootObj : root.isObject = true := by
          by_contra hno
          rw [hmade, foldl_afterPair_of_not_object (Bool.eq_false_of_not_eq_true hno)] at hmadeObj
          exact hno hmadeObj
        refine ⟨hrootObj, fun p hp => (equalMember_set hJ p).mp ?_⟩
        obtain ⟨v, hv, hget⟩ := hkeys p hp
        rw [← objectGet_set hrootObj hps hp]
        exact ⟨v, hv, hget.trans (Json.equalMember_of_equal hnewValid hmadeValid hback _)⟩
      · exact absurd hneg (by simp)
    · intro hcan
      obtain ⟨hrootObj, hkeys⟩ := hcan root hroot
      have hmadeObj : made.isObject = true :=
        (keyedStep_afterPair J _).foldl_keeps _ hrootObj
      refine ⟨_, setCall_eq hJ hroot, .inl ⟨rfl, root, new, _, hroot, rfl, hnew,
        (Json.isObject_of_equal hequal).symm.trans hmadeObj, fun p hp => ?_, fun k hk => ?_⟩⟩
      · obtain ⟨v, hv, hget⟩ := (equalMember_set hJ p).mpr (hkeys p hp)
        rw [← objectGet_set hrootObj hps hp] at hget
        exact ⟨v, hv, hget.trans (Json.equalMember_of_equal hmadeValid hnewValid hequal _)⟩
      · rw [← KeyVals.map_fst_ofTexts] at hk
        rw [← (keyedStep_afterPair J "set".toList).get_foldl_of_not_mem hk hrootObj]
        exact Json.equalMember_of_equal hmadeValid hnewValid hequal _

end Set

/-- The empty text is read as an empty object. -/
theorem callRoot_empty {J : Jansson} (hJ : J.Lawful) :
    callRoot J (.ofText []) = some (.object []) := by
  unfold callRoot loadRoot
  rw [MsParam.parseMspForStr_ofText (by decide), Option.bind_some, if_pos rfl]
  exact hJ.loads_object

/-- A text that is not empty is read as it stands. -/
theorem callRoot_text {J : Jansson} {t : Text} (hnull : t ≠ "null".toList) (hne : t ≠ []) :
    callRoot J (.ofText t) = J.loads t := by
  unfold callRoot loadRoot
  rw [MsParam.parseMspForStr_ofText hnull, Option.bind_some, if_neg hne]

/-- A document is read as what has been written. -/
theorem callRoot_codec {v : Json} (hv : v.Valid) (hc : v.isContainer = true) :
    callRoot JsonText.codec (.ofText (JsonText.codec.text 0 v)) = some v := by
  obtain ⟨hne, hnull⟩ := JsonText.codec_strict.text_ne JsonText.codec_lawful 0 hv hc
  exact (callRoot_text hnull hne).trans (JsonText.loads_render 0 hv hc)

namespace Sample

/-- An object with a string, an array and a null. -/
def members : Json :=
  .object [("a".toList, .string "x".toList), ("b".toList, .array [.integer 5, .bool true]),
    ("n".toList, .null)]

theorem members_valid : members.Valid := by
  refine .object (by decide) ?_
  simp only [List.mem_cons, List.not_mem_nil, or_false, forall_eq_or_imp, forall_eq]
  refine ⟨.string _, .array ?_, .null⟩
  simp only [List.mem_cons, List.not_mem_nil, or_false, forall_eq_or_imp, forall_eq]
  exact ⟨.integer _, .bool _⟩

theorem callRoot_members :
    callRoot JsonText.codec (.ofText (JsonText.codec.text 0 members)) = some members :=
  callRoot_codec members_valid rfl

end Sample

/-- A string is replaced by a null, and a member is added. -/
theorem set_stored_sample :
    SetStored JsonText.codec (JsonText.codec.text 0 Sample.members)
      [("a".toList, "null".toList), ("c".toList, "word".toList)] := by
  refine (set_stored_iff JsonText.codec_lawful _
    [("a".toList, "null".toList), ("c".toList, "word".toList)] (by decide)).mpr ?_
  intro root hroot
  obtain rfl := Option.some.inj (Sample.callRoot_members.symm.trans hroot)
  refine ⟨rfl, fun p hp => ?_⟩
  simp only [List.mem_cons, List.not_mem_nil, or_false] at hp
  rcases hp with rfl | rfl
  · exact ⟨.null, rfl, .inl (JsonText.codec_lawful.utf8_ascii _ (by decide))⟩
  · exact ⟨.string "word".toList, rfl, .inl (JsonText.codec_lawful.utf8_ascii _ (by decide))⟩

/-- **On an array a set is lost**, and the call returns 0. -/
theorem set_lost_on_array :
    ¬ ∀ (J : Jansson) (doc : Text) (ps : List (Text × Text)), J.Lawful →
      (ps.map Prod.fst).Nodup → SetStored J doc ps := by
  intro h
  have hJ := JsonText.codec_lawful
  have hroot : callRoot JsonText.codec (.ofText "[]".toList) = some (.array []) := by
    rw [callRoot_text (by decide) (by decide), hJ.loads_array]
  obtain ⟨r, hr, hstored⟩ :=
    h JsonText.codec "[]".toList [("k".toList, "v".toList)] hJ (List.nodup_singleton _)
  obtain rfl := Except.ok.inj ((setCall_eq hJ hroot).symm.trans hr)
  rcases hstored with ⟨-, root, new, t, -, ht, hnew, hobj, -⟩ | ⟨hneg, -⟩
  · obtain rfl := Option.some.inj ht
    rw [foldl_afterPair_of_not_object rfl] at hnew
    obtain ⟨w, hw, hequal⟩ := hJ.loads_text 0 (.array (List.forall_mem_nil _)) rfl
    obtain rfl := Option.some.inj (hw.symm.trans hnew)
    exact absurd ((Json.isObject_of_equal hequal).trans hobj) (by decide)
  · exact absurd hneg (by simp)

/-! ## Getting -/

/-- **A member that a text can stand for**: null, an array or an object, and a string
that does not itself read as one of them. -/
def Faithful (J : Jansson) : Json → Prop
  | .null | .array _ | .object _ => True
  | .string s => s ≠ "null".toList ∧ J.loads s = none ∧ J.utf8 s = true
  | .bool _ | .integer _ | .real _ => False

/-- What a get leaves for a document. -/
def getCall (J : Jansson) (doc : Text) (ps : List (Text × Text)) : Except Fault ObjopsResult :=
  msiJsonObjops J (.ofText doc) (.ofPairs (.ofTexts ps)) (.ofText "get".toList)

/-- The value a text of the list stands for is the member of its key. -/
def TextOfMember (J : Jansson) (root : Json) (p : Text × Option Text) : Prop :=
  ∃ t m v, p.2 = some t ∧ root.objectGet p.1 = some m ∧ decodeText J t = some v
    ∧ v.equal m = true

/-- **A get is faithful**: for every key it leaves a text whose value is the member, so
that a set with this list leaves the document. -/
def GetFaithful (J : Jansson) (doc : Text) (ps : List (Text × Text)) : Prop :=
  ∃ root r left t, callRoot J (.ofText doc) = some root ∧ getCall J doc ps = .ok r
    ∧ r.status = .num 0 ∧ r.kvp = some left ∧ r.jsonStr = some t
    ∧ left.map Prod.fst = ps.map Prod.fst ∧ (∀ p ∈ left, TextOfMember J root p)
    ∧ ∃ r' t' new,
      msiJsonObjops J (.ofText t) (.ofPairs left) (.ofText "set".toList) = .ok r'
      ∧ r'.status = .num 0 ∧ r'.jsonStr = some t' ∧ J.loads t' = some new
      ∧ root.equal new = true

section Get

variable {J : Jansson} {doc : Text} {ps : List (Text × Text)} {root : Json}

/-- A document is decoded as it is read. -/
theorem decodeText_text (hJ : J.Lawful) (hstrict : J.Strict) (indent : ℕ) {v : Json}
    (hv : v.Valid) (hc : v.isContainer = true) :
    ∃ w, decodeText J (J.text indent v) = some w ∧ w.equal v = true := by
  obtain ⟨w, hw, hequal⟩ := hJ.loads_text indent hv hc
  refine ⟨w, ?_, Json.equal_symm hv (hJ.loads_valid hw) hequal⟩
  rw [decodeText, if_neg (hstrict.text_ne hJ indent hv hc).2, hw]

/-- **The text of a member stands for it exactly where one can.** -/
theorem encodeMember_faithful (hJ : J.Lawful) (hstrict : J.Strict) {m : Json} (hm : m.Valid) :
    (∃ t v, encodeMember J (some m) = some t ∧ decodeText J t = some v ∧ v.equal m = true)
      ↔ Faithful J m := by
  cases m with
  | null => exact iff_of_true ⟨_, .null, rfl, rfl, rfl⟩ trivial
  | bool b =>
    refine iff_of_false ?_ id
    rintro ⟨t, v, ht, hv, hequal⟩
    obtain ⟨c, rfl⟩ : ∃ c, v = .bool c := by
      cases v with
      | bool c => exact ⟨c, rfl⟩
      | _ => exact nomatch hequal
    unfold decodeText at hv
    split at hv
    · exact nomatch hv
    · split at hv
      · rename_i hloads
        obtain rfl := Option.some.inj hv
        exact nomatch hJ.loads_container hloads
      · exact nomatch Jansson.string_eq_some hv
  | integer i => exact iff_of_false (fun ⟨t, v, ht, _⟩ => nomatch ht) id
  | real r => exact iff_of_false (fun ⟨t, v, ht, _⟩ => nomatch ht) id
  | string s =>
    constructor
    · rintro ⟨t, v, ht, hv, hequal⟩
      obtain rfl := Option.some.inj ht
      unfold decodeText at hv
      split at hv
      · obtain rfl := Option.some.inj hv
        exact nomatch hequal
      · rename_i hnull
        split at hv
        · rename_i w hloads
          obtain rfl := Option.some.inj hv
          have hc := hJ.loads_container hloads
          cases w with
          | array es => exact nomatch hequal
          | object ms => exact nomatch hequal
          | _ => exact nomatch hc
        · rename_i hloads
          refine ⟨hnull, hloads, ?_⟩
          by_contra hutf8
          rw [Jansson.string, if_neg hutf8] at hv
          exact nomatch hv
    · rintro ⟨hnull, hloads, hutf8⟩
      refine ⟨s, .string s, rfl, ?_, Json.equal_refl (.string s)⟩
      rw [decodeText, if_neg hnull, hloads]
      exact Jansson.string_of_utf8 hutf8
  | array es =>
    obtain ⟨w, hw, hequal⟩ := decodeText_text hJ hstrict 0 hm rfl
    exact iff_of_true ⟨_, w, rfl, hw, hequal⟩ trivial
  | object ms =>
    obtain ⟨w, hw, hequal⟩ := decodeText_text hJ hstrict 0 hm rfl
    exact iff_of_true ⟨_, w, rfl, hw, hequal⟩ trivial

/-- Setting members to what they are leaves a document what it is. -/
theorem set_texts_of_members (hJ : J.Lawful) (hroot : root.Valid) {left : KeyVals}
    (hleft : ∀ p ∈ left, TextOfMember J root p) : ∀ {now : Json}, now.isObject = true →
      (∀ k, Json.EqualMember (root.objectGet k) (now.objectGet k)) →
      ∀ k, Json.EqualMember (root.objectGet k)
        ((left.foldl (afterPair J "set".toList) now).objectGet k) := by
  induction left with
  | nil => exact fun _ h => h
  | cons p left ih =>
    intro now hnow hmembers
    refine ih (fun q hq => hleft q (List.mem_cons_of_mem _ hq))
      ((keyedStep_afterPair J _).keeps hnow p) (fun k => ?_)
    by_cases hk : k = p.1
    · obtain ⟨t, m, v, ht, hm, hv, hequal⟩ := hleft p List.mem_cons_self
      have hself := (keyedStep_afterPair J "set".toList).self hnow p
      obtain ⟨key, val⟩ := p
      obtain rfl : val = some t := ht
      obtain rfl : k = key := hk
      rw [hself]
      show Json.EqualMember _ (setAfter J k (decodeText J t) (now.objectGet k))
      rw [setAfter, hv]
      split
      · rw [Option.some_or, hm]
        exact .some (Json.equal_symm (decodeText_valid hJ hv) (hroot.objectGet hm) hequal)
      · exact hmembers k
    · rw [(keyedStep_afterPair J "set".toList).other hnow hk]
      exact hmembers k

theorem foldl_afterPair_get (root : Json) (kvs : KeyVals) :
    kvs.foldl (afterPair J "get".toList) root = root := by
  induction kvs with
  | nil => rfl
  | cons p kvs ih => rw [List.foldl_cons, afterPair_get, ih]

/-- What a get of texts leaves. -/
theorem getCall_eq (hJ : J.Lawful) (h : callRoot J (.ofText doc) = some root) :
    getCall J doc ps = .ok ⟨.num 0, some (J.text 0 root),
      some ((KeyVals.ofTexts ps).map (fun p => (p.1, encodeMember J (root.objectGet p.1))))⟩ := by
  unfold getCall
  rw [call_eq hJ h (MsParam.parseMspForStr_ofText (by decide)) (KeyVals.ofTexts_ne_none ps),
    foldl_afterPair_get]
  rfl

/-- **Getting members of an object is faithful if and only if a text can stand for
each of them.** -/
theorem get_faithful_iff (hJ : J.Lawful) (hstrict : J.Strict) (doc : Text)
    (ps : List (Text × Text)) (root : Json) (hroot : callRoot J (.ofText doc) = some root)
    (hobj : root.isObject = true) (hkeys : ∀ p ∈ ps, ∃ m, root.objectGet p.1 = some m) :
    GetFaithful J doc ps
      ↔ ∀ p ∈ ps, ∀ m, root.objectGet p.1 = some m → Faithful J m := by
  obtain ⟨hvalid, hc⟩ := callRoot_spec hJ hroot
  set left := (KeyVals.ofTexts ps).map
    (fun p => (p.1, encodeMember J (root.objectGet p.1))) with hleft
  have htext : (∀ p ∈ left, TextOfMember J root p)
      ↔ ∀ p ∈ ps, ∀ m, root.objectGet p.1 = some m → Faithful J m := by
    rw [hleft, KeyVals.ofTexts, List.map_map, List.forall_mem_map]
    refine forall₂_congr fun p hp => ?_
    obtain ⟨m, hm⟩ := hkeys p hp
    dsimp only [Function.comp_apply]
    rw [hm]
    have hfaithful := encodeMember_faithful hJ hstrict (hvalid.objectGet hm)
    constructor
    · rintro ⟨t, m', v, ht, hm', hv, hequal⟩ m'' hm''
      obtain rfl := Option.some.inj (hm.symm.trans hm')
      obtain rfl := Option.some.inj hm''
      exact hfaithful.mp ⟨t, v, ht, hv, hequal⟩
    · intro h
      obtain ⟨t, v, ht, hv, hequal⟩ := hfaithful.mpr (h m rfl)
      exact ⟨t, m, v, ht, hm, hv, hequal⟩
  rw [← htext]
  constructor
  · rintro ⟨root', r, left', t, hroot', hr, -, hkvp, -, -, hmembers, -⟩
    obtain rfl := Option.some.inj (hroot.symm.trans hroot')
    obtain rfl := Except.ok.inj ((getCall_eq hJ hroot).symm.trans hr)
    obtain rfl := Option.some.inj hkvp
    exact hmembers
  · intro hmembers
    obtain ⟨hne, hnull⟩ := hstrict.text_ne hJ 0 hvalid hc
    obtain ⟨now, hnow, hequal⟩ := hJ.loads_text 0 hvalid hc
    have hnowValid := hJ.loads_valid hnow
    have hnowObj : now.isObject = true := (Json.isObject_of_equal hequal).symm.trans hobj
    have hnowRoot : callRoot J (.ofText (J.text 0 root)) = some now :=
      (callRoot_text hnull hne).trans hnow
    set made := left.foldl (afterPair J "set".toList) now
    have hmadeValid : made.Valid := valid_foldl_afterPair hJ _ left hnowValid
    have hmadeObj : made.isObject = true := (keyedStep_afterPair J _).foldl_keeps left hnowObj
    have hmade : root.equal made = true :=
      Json.equal_of_equalMember hvalid hmadeValid hobj hmadeObj
        (set_texts_of_members hJ hvalid hmembers hnowObj
          (Json.equalMember_of_equal hvalid hnowValid hequal))
    obtain ⟨new, hnew, hnewEqual⟩ :=
      hJ.loads_text 0 hmadeValid (Json.isContainer_of_isObject hmadeObj)
    have htexts : ∀ p ∈ left, p.2 ≠ none := by
      intro p hp
      obtain ⟨t, m, v, ht, -⟩ := hmembers p hp
      rw [ht]
      exact Option.some_ne_none t
    have hfst : left.map Prod.fst = ps.map Prod.fst := by
      rw [hleft, List.map_map, ← KeyVals.map_fst_ofTexts]
      rfl
    exact ⟨root, _, left, _, hroot, getCall_eq hJ hroot, rfl, rfl, rfl, hfst, hmembers, _, _, new,
      call_eq hJ hnowRoot (MsParam.parseMspForStr_ofText (by decide)) htexts, rfl, rfl, hnew,
      Json.equal_trans hmade hnewEqual⟩

end Get

/-- The text of an object with one member. -/
def oneMember (v : Json) : Text := JsonText.codec.text 0 (.object [("a".toList, v)])

theorem oneMember_valid {v : Json} (hv : v.Valid) :
    (Json.object [("a".toList, v)]).Valid :=
  .object (List.nodup_singleton _) (List.forall_mem_singleton.mpr hv)

theorem callRoot_oneMember {v : Json} (hv : v.Valid) :
    callRoot JsonText.codec (.ofText (oneMember v)) = some (.object [("a".toList, v)]) :=
  callRoot_codec (oneMember_valid hv) rfl

/-- Getting a string, an array and a null. -/
theorem get_faithful_sample :
    GetFaithful JsonText.codec (JsonText.codec.text 0 Sample.members)
      [("n".toList, []), ("a".toList, []), ("b".toList, [])] := by
  have hget : ∀ p ∈ [("n".toList, ([] : Text)), ("a".toList, []), ("b".toList, [])],
      ∃ m, Sample.members.objectGet p.1 = some m ∧ Faithful JsonText.codec m := by
    simp only [List.mem_cons, List.not_mem_nil, or_false, forall_eq_or_imp, forall_eq]
    refine ⟨⟨.null, rfl, trivial⟩, ⟨.string "x".toList, rfl, by decide, rfl, ?_⟩,
      ⟨.array [.integer 5, .bool true], rfl, trivial⟩⟩
    exact JsonText.codec_lawful.utf8_ascii _ (by decide)
  refine (get_faithful_iff JsonText.codec_lawful JsonText.codec_strict _ _ _
    Sample.callRoot_members rfl (fun p hp => ?_)).mpr (fun p hp m hm => ?_)
  · obtain ⟨m, hm, -⟩ := hget p hp
    exact ⟨m, hm⟩
  · obtain ⟨m', hm', hfaithful⟩ := hget p hp
    obtain rfl := Option.some.inj (hm'.symm.trans hm)
    exact hfaithful

/-- **Getting a number stores NULL.** -/
theorem get_number_null :
    ¬ ∀ (J : Jansson) (doc : Text) (ps : List (Text × Text)) (root : Json), J.Lawful →
      J.Strict → callRoot J (.ofText doc) = some root → root.isObject = true →
      (∀ p ∈ ps, ∃ m, root.objectGet p.1 = some m) → GetFaithful J doc ps := by
  intro h
  have hroot := callRoot_oneMember (.integer 5)
  obtain ⟨root, r, left, t, -, hr, -, hkvp, -, -, hmembers, -⟩ :=
    h JsonText.codec (oneMember (.integer 5)) [("a".toList, [])] _ JsonText.codec_lawful
      JsonText.codec_strict hroot rfl (fun p hp => by
        obtain rfl := List.mem_singleton.mp hp
        exact ⟨.integer 5, rfl⟩)
  obtain rfl := Except.ok.inj ((getCall_eq JsonText.codec_lawful hroot).symm.trans hr)
  obtain rfl := Option.some.inj hkvp
  obtain ⟨t, m, v, ht, -⟩ := hmembers _ List.mem_cons_self
  exact nomatch ht

/-! ## A run of calls on one list -/

/-- The arguments of a call, besides the list. -/
structure ObjopsCall where
  jsonStr : MsParam
  ops : MsParam

namespace ObjopsCall

/-- The call on a list. -/
def on (J : Jansson) (kvs : KeyVals) (c : ObjopsCall) : Except Fault ObjopsResult :=
  msiJsonObjops J c.jsonStr (.ofPairs kvs) c.ops

/-- **A call that leaves texts**: it is refused, it does not get, or every key has a
member in the document that is no number. -/
def KeepsTexts (J : Jansson) (kvs : KeyVals) (c : ObjopsCall) : Prop :=
  ∀ root, callRoot J c.jsonStr = some root → c.ops.parseMspForStr = some "get".toList →
    ∀ p ∈ kvs, ∃ m, root.objectGet p.1 = some m ∧ m.isNumber = false

end ObjopsCall

/-- A run of calls of which each is given the list the one before has left. -/
def runObjops (J : Jansson) (kvs : KeyVals) (calls : List ObjopsCall) : Except Fault KeyVals :=
  calls.foldlM (fun kvs c => (c.on J kvs).map (fun r => r.kvp.getD kvs)) kvs

section Run

variable {J : Jansson} {kvs : KeyVals}

/-- There is a text for a member that is no number, and for no other. -/
theorem encodeMember_ne_none (data : Option Json) :
    encodeMember J data ≠ none ↔ ∃ m, data = some m ∧ m.isNumber = false := by
  cases data with
  | none => exact iff_of_false (fun h => h rfl) (fun ⟨m, hm, _⟩ => nomatch hm)
  | some m =>
    cases m with
    | integer i =>
      refine iff_of_false (fun h => h rfl) ?_
      rintro ⟨m, hm, hnum⟩
      obtain rfl := Option.some.inj hm
      exact nomatch hnum
    | real r =>
      refine iff_of_false (fun h => h rfl) ?_
      rintro ⟨m, hm, hnum⟩
      obtain rfl := Option.some.inj hm
      exact nomatch hnum
    | bool b =>
      refine iff_of_true ?_ ⟨_, rfl, rfl⟩
      cases b <;> exact Option.some_ne_none _
    | _ => exact iff_of_true (Option.some_ne_none _) ⟨_, rfl, rfl⟩

theorem runObjops_nil (J : Jansson) (kvs : KeyVals) : runObjops J kvs [] = .ok kvs := rfl

theorem runObjops_concat (J : Jansson) (kvs : KeyVals) (calls : List ObjopsCall)
    (c : ObjopsCall) :
    runObjops J kvs (calls ++ [c])
      = (runObjops J kvs calls).bind (fun now => (c.on J now).map (fun r => r.kvp.getD now)) := by
  unfold runObjops
  simp only [List.foldlM_append, List.foldlM_cons, List.foldlM_nil, bind_pure]
  rfl

/-- **One call on a list of texts** returns, and leaves a list of texts exactly where
it is a call that does. -/
theorem on_texts (hJ : J.Lawful) (hkvs : ∀ p ∈ kvs, p.2 ≠ none) (c : ObjopsCall) :
    ∃ r left, c.on J kvs = .ok r ∧ r.kvp = some left ∧ left.map Prod.fst = kvs.map Prod.fst
      ∧ ((∀ p ∈ left, p.2 ≠ none) ↔ c.KeepsTexts J kvs) := by
  cases hroot : callRoot J c.jsonStr with
  | none =>
    exact ⟨_, kvs, call_of_no_root hroot, rfl, rfl,
      iff_of_true hkvs (fun root h => nomatch hroot.symm.trans h)⟩
  | some root =>
    cases hops : c.ops.parseMspForStr with
    | none =>
      exact ⟨_, kvs, call_of_no_ops hops, rfl, rfl,
        iff_of_true hkvs (fun _ _ h => nomatch hops.symm.trans h)⟩
    | some strOps =>
      refine ⟨_, _, call_eq hJ hroot hops hkvs, rfl, ?_, ?_⟩
      · unfold valuesAfter
        split
        · rw [List.map_map]
          rfl
        · rfl
      · unfold valuesAfter
        by_cases hget : strOps = "get".toList
        · subst hget
          rw [if_pos rfl, List.forall_mem_map]
          refine ⟨fun h root' hroot' _ p hp => ?_, fun h p hp => ?_⟩
          · obtain rfl := Option.some.inj (hroot.symm.trans hroot')
            exact (encodeMember_ne_none _).mp (h p hp)
          · exact (encodeMember_ne_none _).mpr (h root hroot hops p hp)
        · rw [if_neg hget]
          refine iff_of_true hkvs (fun _ _ h => ?_)
          exact absurd (Option.some.inj (hops.symm.trans h)) hget

/-- **The list stays usable**: in a run from a list of texts, whose calls all leave
texts, every call returns and leaves the keys with texts. -/
theorem objops_run (hJ : J.Lawful) (kvs : KeyVals) (hkvs : ∀ p ∈ kvs, p.2 ≠ none)
    (calls : List ObjopsCall)
    (hcalls : ∀ pre c, pre ++ [c] <+: calls → ∀ now, runObjops J kvs pre = .ok now →
      c.KeepsTexts J now) :
    ∀ pre, pre <+: calls → ∃ now, runObjops J kvs pre = .ok now
      ∧ now.map Prod.fst = kvs.map Prod.fst ∧ ∀ p ∈ now, p.2 ≠ none := by
  intro pre
  induction pre using List.reverseRecOn with
  | nil => exact fun _ => ⟨kvs, rfl, rfl, hkvs⟩
  | append_singleton pre c ih =>
    intro hpre
    obtain ⟨now, hnow, hkeys, htexts⟩ := ih ((List.prefix_append _ _).trans hpre)
    obtain ⟨r, left, hr, hleft, hfst, hiff⟩ := on_texts hJ htexts c
    refine ⟨left, ?_, hfst.trans hkeys, hiff.mpr (hcalls pre c hpre now hnow)⟩
    rw [runObjops_concat, hnow, Except.bind, hr, Except.map, hleft, Option.getD_some]

end Run

namespace Sample

/-- Two members are got, and the list is added to the empty document. -/
def getThenAdd : List ObjopsCall :=
  [⟨.ofText (JsonText.codec.text 0 members), .ofText "get".toList⟩,
    ⟨.ofText [], .ofText "add".toList⟩]

end Sample

/-- A get of two members, and an addition of what it has left. -/
theorem objops_run_sample :
    ∃ now, runObjops JsonText.codec [("a".toList, some []), ("b".toList, some [])]
        Sample.getThenAdd = .ok now
      ∧ now.map Prod.fst = ["a".toList, "b".toList] ∧ ∀ p ∈ now, p.2 ≠ none := by
  refine objops_run JsonText.codec_lawful [("a".toList, some []), ("b".toList, some [])]
    (by simp) Sample.getThenAdd (fun pre c hpre now hnow root hroot hget p hp => ?_) _
    List.prefix_rfl
  cases pre with
  | nil =>
    obtain ⟨_, hcalls⟩ := hpre
    obtain rfl := (List.cons.inj hcalls).1
    obtain rfl := Except.ok.inj hnow
    obtain rfl := Option.some.inj (Sample.callRoot_members.symm.trans hroot)
    simp only [List.mem_cons, List.not_mem_nil, or_false] at hp
    rcases hp with rfl | rfl
    · exact ⟨.string "x".toList, rfl, rfl⟩
    · exact ⟨.array [.integer 5, .bool true], rfl, rfl⟩
  | cons c' pre =>
    -- the second call does not get
    obtain ⟨rest, hcalls⟩ := hpre
    have hc : c ∈ pre ++ [c] ++ rest := by simp
    rw [show pre ++ [c] ++ rest = _ from (List.cons.inj hcalls).2, List.mem_singleton] at hc
    subst hc
    exact absurd hget (by decide)

/-- **Getting a member that is not there leaves a NULL**, and the next call follows
it. -/
theorem get_absent_faults :
    ¬ ∀ (J : Jansson) (kvs : KeyVals) (calls : List ObjopsCall), J.Lawful →
      (∀ p ∈ kvs, p.2 ≠ none) → ∃ now, runObjops J kvs calls = .ok now
        ∧ ∀ p ∈ now, p.2 ≠ none := by
  intro h
  have hget : MsParam.parseMspForStr (.ofText "get".toList) = some "get".toList :=
    MsParam.parseMspForStr_ofText (by decide)
  have hroot := callRoot_empty JsonText.codec_lawful
  set get : ObjopsCall := ⟨.ofText [], .ofText "get".toList⟩
  have hfirst : get.on JsonText.codec [("a".toList, some [])]
      = .ok ⟨.num 0, some (JsonText.codec.text 0 (.object [])), some [("a".toList, none)]⟩ :=
    call_eq JsonText.codec_lawful hroot hget (by simp)
  have hsecond : get.on JsonText.codec [("a".toList, none)] = .error .nullPointer := by
    rw [ObjopsCall.on, call_eq_loop hroot hget]
    rfl
  have hone : runObjops JsonText.codec [("a".toList, some [])] [get]
      = .ok [("a".toList, none)] := by
    refine (runObjops_concat _ _ [] get).trans ?_
    rw [runObjops_nil, Except.bind, hfirst]
    rfl
  have htwo : runObjops JsonText.codec [("a".toList, some [])] [get, get]
      = .error .nullPointer := by
    refine (runObjops_concat _ _ [get] get).trans ?_
    rw [hone, Except.bind, hsecond]
    rfl
  obtain ⟨now, hnow, -⟩ := h JsonText.codec [("a".toList, some [])] [get, get]
    JsonText.codec_lawful (by simp)
  exact nomatch htwo.symm.trans hnow
