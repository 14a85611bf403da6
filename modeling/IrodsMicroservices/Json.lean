import IrodsMicroservices.Text

/-!
# JSON values

The values the jansson library works on, its accessors, and the equality
`json_equal` it compares them with.

An object lists its members in the order they were added. Two objects are
`equal` when they have as many members and every member of the one is in the
other with an equal value, whatever the order – so `equal` is an equivalence
only where no key occurs twice (`Valid`), which is what a jansson object
guarantees and what every value that is loaded or built has.

The accessors return NULL, here `none`, for a value of another kind.
-/

/-- A JSON value. A real number is the exact value of the double. -/
inductive Json
  | null
  | bool (b : Bool)
  | integer (i : ℤ)
  | real (r : ℚ)
  | string (s : Text)
  | array (elems : List Json)
  | object (members : List (Text × Json))

namespace Json

/-- Induction on a value, with the hypothesis for every element of an array and
for the value of every member of an object. -/
@[elab_as_elim]
theorem nestedInduction {P : Json → Prop} (null : P .null)
    (bool : ∀ b, P (.bool b)) (integer : ∀ i, P (.integer i))
    (real : ∀ r, P (.real r)) (string : ∀ s, P (.string s))
    (array : ∀ es, (∀ e ∈ es, P e) → P (.array es))
    (object : ∀ ms, (∀ m ∈ ms, P m.2) → P (.object ms)) : ∀ v, P v := by
  exact @Json.rec P (fun es => ∀ e ∈ es, P e) (fun ms => ∀ m ∈ ms, P m.2)
    (fun m => P m.2) null bool integer real string array object
    (List.forall_mem_nil _) (fun _ _ he hes => List.forall_mem_cons.mpr ⟨he, hes⟩)
    (List.forall_mem_nil _) (fun _ _ hm hms => List.forall_mem_cons.mpr ⟨hm, hms⟩)
    (fun _ _ hv => hv)

/-! ## The accessors -/

/-- `json_is_boolean`. -/
def isBoolean : Json → Bool
  | bool _ => true
  | _ => false

/-- `json_is_null`. -/
def isNull : Json → Bool
  | null => true
  | _ => false

/-- `json_is_number`. -/
def isNumber : Json → Bool
  | integer _ | real _ => true
  | _ => false

/-- `json_is_array`. -/
def isArray : Json → Bool
  | array _ => true
  | _ => false

/-- `json_is_object`. -/
def isObject : Json → Bool
  | object _ => true
  | _ => false

/-- An array or an object: what a document may be without further flags. -/
def isContainer : Json → Bool
  | array _ | object _ => true
  | _ => false

/-- `json_string_value`: NULL for anything but a string. -/
def stringValue : Json → Option Text
  | string s => some s
  | _ => none

/-- `json_integer_value`: zero for anything but an integer. -/
def integerValue : Json → ℤ
  | integer i => i
  | _ => 0

/-- The elements `json_array_get` and `json_array_size` see: none for anything
but an array. -/
def elems : Json → List Json
  | array es => es
  | _ => []

/-- The members `json_object_get` sees: none for anything but an object. -/
def members : Json → List (Text × Json)
  | object ms => ms
  | _ => []

/-- `json_object_get`. -/
def objectGet (v : Json) (key : Text) : Option Json := v.members.lookup key

/-- `json_string_value(json_object_get(v, key))`: NULL for a missing member and
for a member that is no string. -/
def stringMember (v : Json) (key : Text) : Option Text :=
  (v.objectGet key).bind stringValue

/-- `json_integer_value(json_object_get(v, key))`: zero for a missing member
and for a member that is no integer. -/
def integerMember (v : Json) (key : Text) : ℤ :=
  ((v.objectGet key).map integerValue).getD 0

/-- Setting a member: in its place where the key is there, at the end where it
is not. -/
def setMember (key : Text) (v : Json) : List (Text × Json) → List (Text × Json)
  | [] => [(key, v)]
  | (k, w) :: ms => if k = key then (k, v) :: ms else (k, w) :: setMember key v ms

/-- `json_object_set_new(o, key, v)`: without effect for a NULL value, and on
anything but an object. -/
def objectSetNew (o : Json) (key : Text) (v : Option Json) : Json :=
  match o, v with
  | object ms, some v => object (setMember key v ms)
  | o, _ => o

/-- `json_array_append_new(a, v)`, on the elements of the array: without effect
for a NULL value. -/
def appendNew (es : List Json) (v : Option Json) : List Json := es ++ v.toList

/-! ## `json_equal` -/

mutual

/-- `json_equal`. -/
def equal : Json → Json → Bool
  | null, null => true
  | bool a, bool b => a == b
  | integer a, integer b => a == b
  | real a, real b => a == b
  | string a, string b => a == b
  | array as, array bs => equalElems as bs
  | object as, object bs => as.length == bs.length && equalMembers as bs
  | _, _ => false

/-- Element by element. -/
def equalElems : List Json → List Json → Bool
  | [], [] => true
  | a :: as, b :: bs => equal a b && equalElems as bs
  | _, _ => false

/-- Every member is in the other object, with an equal value. -/
def equalMembers : List (Text × Json) → List (Text × Json) → Bool
  | [], _ => true
  | (k, v) :: as, bs =>
    (match bs.lookup k with
      | some w => equal v w
      | none => false) && equalMembers as bs

end

/-- No key occurs twice in an object, at any depth. -/
inductive Valid : Json → Prop
  | null : Valid .null
  | bool (b : Bool) : Valid (.bool b)
  | integer (i : ℤ) : Valid (.integer i)
  | real (r : ℚ) : Valid (.real r)
  | string (s : Text) : Valid (.string s)
  | array {es : List Json} (h : ∀ e ∈ es, Valid e) : Valid (.array es)
  | object {ms : List (Text × Json)} (nodup : (ms.map Prod.fst).Nodup)
      (h : ∀ m ∈ ms, Valid m.2) : Valid (.object ms)

theorem equalElems_iff (as bs : List Json) :
    equalElems as bs = true ↔ List.Forall₂ (fun a b => a.equal b = true) as bs := by
  induction as generalizing bs with
  | nil => cases bs <;> simp [equalElems]
  | cons a as ih => cases bs <;> simp [equalElems, ih]

theorem equalMembers_iff (as bs : List (Text × Json)) :
    equalMembers as bs = true
      ↔ ∀ m ∈ as, ∃ w, bs.lookup m.1 = some w ∧ m.2.equal w = true := by
  induction as with
  | nil => simp [equalMembers]
  | cons m as ih =>
    obtain ⟨k, v⟩ := m
    rw [equalMembers, Bool.and_eq_true, ih, List.forall_mem_cons]
    refine and_congr_left' ?_
    cases h : bs.lookup k <;> simp

/-- Arrays are equal element by element. -/
@[simp] theorem equal_array (as bs : List Json) :
    (array as).equal (array bs) = true
      ↔ List.Forall₂ (fun a b => a.equal b = true) as bs := by
  rw [equal, equalElems_iff]

/-- Objects are equal member by member, whatever the order. -/
@[simp] theorem equal_object (as bs : List (Text × Json)) :
    (object as).equal (object bs) = true
      ↔ as.length = bs.length
        ∧ ∀ m ∈ as, ∃ w, bs.lookup m.1 = some w ∧ m.2.equal w = true := by
  rw [equal, Bool.and_eq_true, beq_iff_eq, equalMembers_iff]

/-- In an object whose keys are distinct a member is found under its key. -/
theorem lookup_of_mem {ms : List (Text × Json)} (h : (ms.map Prod.fst).Nodup)
    {m : Text × Json} (hm : m ∈ ms) : ms.lookup m.1 = some m.2 := by
  induction ms with
  | nil => exact absurd hm List.not_mem_nil
  | cons n ms ih =>
    obtain ⟨hn, hms⟩ := List.nodup_cons.mp h
    rcases List.mem_cons.mp hm with rfl | hm
    · exact List.lookup_cons_self
    · have hne : (m.1 == n.1) = false := by
        refine beq_false_of_ne (fun he => hn ?_)
        exact he ▸ List.mem_map_of_mem hm
      rw [List.lookup_cons, hne]
      exact ih hms hm

/-- What is found under a key is a member. -/
theorem mem_of_lookup {ms : List (Text × Json)} {k : Text} {v : Json}
    (h : ms.lookup k = some v) : (k, v) ∈ ms := by
  obtain ⟨l₁, l₂, rfl, -⟩ := List.lookup_eq_some_iff.mp h
  exact List.mem_append_right _ List.mem_cons_self

/-- **`json_equal` is reflexive** on values whose keys are distinct. -/
theorem equal_refl {v : Json} (h : v.Valid) : v.equal v = true := by
  induction v using nestedInduction with
  | null => rfl
  | bool b => exact beq_self_eq_true b
  | integer i => exact beq_self_eq_true i
  | real r => exact beq_self_eq_true r
  | string s => exact beq_self_eq_true s
  | array es ih =>
    cases h with
    | array h =>
      exact (equal_array _ _).mpr (List.forall₂_same.mpr (fun e he => ih e he (h e he)))
  | object ms ih =>
    cases h with
    | object nodup h =>
      exact (equal_object _ _).mpr ⟨rfl, fun m hm =>
        ⟨m.2, lookup_of_mem nodup hm, ih m hm (h m hm)⟩⟩

/-- Of two objects with as many distinct keys, if one has all keys of the other
it has no more. -/
theorem keys_subset {as bs : List (Text × Json)} (ha : (as.map Prod.fst).Nodup)
    (hlen : as.length = bs.length)
    (h : ∀ m ∈ as, ∃ w, bs.lookup m.1 = some w ∧ m.2.equal w = true) :
    bs.map Prod.fst ⊆ as.map Prod.fst := by
  have hsub : as.map Prod.fst ⊆ bs.map Prod.fst := by
    intro k hk
    obtain ⟨m, hm, rfl⟩ := List.mem_map.mp hk
    obtain ⟨w, hw, -⟩ := h m hm
    exact List.mem_map.mpr ⟨(m.1, w), mem_of_lookup hw, rfl⟩
  refine ((ha.subperm hsub).perm_of_length_le ?_).symm.subset
  rw [List.length_map, List.length_map, hlen]

/-- **`json_equal` is symmetric.** -/
theorem equal_symm {v w : Json} (hv : v.Valid) (hw : w.Valid)
    (h : v.equal w = true) : w.equal v = true := by
  induction v using nestedInduction generalizing w with
  | null => cases w <;> simp_all [equal]
  | bool b => cases w <;> simp_all [equal]
  | integer i => cases w <;> simp_all [equal]
  | real r => cases w <;> simp_all [equal]
  | string s => cases w <;> simp_all [equal]
  | array es ih =>
    cases w with
    | array fs =>
      cases hv with
      | array hv =>
      cases hw with
      | array hw =>
        rw [equal_array] at h ⊢
        refine List.Forall₂.flip ?_
        refine (List.forall₂_iff_zip.mpr ⟨h.length_eq, fun {a b} hab => ?_⟩)
        have ha := (List.of_mem_zip hab).1
        exact ih a ha (hv a ha) (hw b (List.of_mem_zip hab).2)
          ((List.forall₂_iff_zip.mp h).2 hab)
    | _ => simp [equal] at h
  | object ms ih =>
    cases w with
    | object ns =>
      cases hv with
      | object hkv hv =>
      cases hw with
      | object hkw hw =>
        rw [equal_object] at h ⊢
        refine ⟨h.1.symm, fun n hn => ?_⟩
        have hk := keys_subset hkv h.1 h.2 (List.mem_map_of_mem hn)
        obtain ⟨m, hm, hmk⟩ := List.mem_map.mp hk
        obtain ⟨w, hw', he⟩ := h.2 m hm
        have hwn : w = n.2 := by
          rw [hmk, lookup_of_mem hkw hn] at hw'
          exact (Option.some.inj hw').symm
        subst hwn
        exact ⟨m.2, hmk ▸ lookup_of_mem hkv hm, ih m hm (hv m hm) (hw n hn) he⟩
    | _ => simp [equal] at h

/-- **`json_equal` is transitive.** -/
theorem equal_trans {u v w : Json} (huv : u.equal v = true) (hvw : v.equal w = true) :
    u.equal w = true := by
  induction u using nestedInduction generalizing v w with
  | null =>
    cases v with
    | null => exact hvw
    | _ => simp [equal] at huv
  | bool b => cases v <;> cases w <;> simp_all [equal]
  | integer i => cases v <;> cases w <;> simp_all [equal]
  | real r => cases v <;> cases w <;> simp_all [equal]
  | string s => cases v <;> cases w <;> simp_all [equal]
  | array as ih =>
    cases v with
    | array bs =>
      cases w with
      | array cs =>
        rw [equal_array] at huv hvw ⊢
        induction huv generalizing cs with
        | nil => exact hvw
        | cons hab _ ih' =>
          cases hvw with
          | cons hbc hbs =>
            exact List.Forall₂.cons (ih _ List.mem_cons_self hab hbc)
              (ih' (fun e he => ih e (List.mem_cons_of_mem _ he)) _ hbs)
      | _ => simp [equal] at hvw
    | _ => simp [equal] at huv
  | object as ih =>
    cases v with
    | object bs =>
      cases w with
      | object cs =>
        rw [equal_object] at huv hvw ⊢
        refine ⟨huv.1.trans hvw.1, fun m hm => ?_⟩
        obtain ⟨x, hx, hmx⟩ := huv.2 m hm
        obtain ⟨y, hy, hxy⟩ := hvw.2 _ (mem_of_lookup hx)
        exact ⟨y, hy, ih m hm hmx hxy⟩
      | _ => simp [equal] at hvw
    | _ => simp [equal] at huv

/-! ## What equal values have in common -/

theorem stringValue_of_equal {v w : Json} (h : v.equal w = true) :
    v.stringValue = w.stringValue := by
  cases v <;> cases w <;> simp_all [equal, stringValue]

theorem integerValue_of_equal {v w : Json} (h : v.equal w = true) :
    v.integerValue = w.integerValue := by
  cases v <;> cases w <;> simp_all [equal, integerValue]

theorem isBoolean_of_equal {v w : Json} (h : v.equal w = true) :
    v.isBoolean = w.isBoolean := by
  cases v <;> cases w <;> simp_all [equal, isBoolean]

theorem isNull_of_equal {v w : Json} (h : v.equal w = true) :
    v.isNull = w.isNull := by
  cases v <;> cases w <;> simp_all [equal, isNull]

theorem isNumber_of_equal {v w : Json} (h : v.equal w = true) :
    v.isNumber = w.isNumber := by
  cases v <;> cases w <;> simp_all [equal, isNumber]

theorem isObject_of_equal {v w : Json} (h : v.equal w = true) :
    v.isObject = w.isObject := by
  cases v <;> cases w <;> simp_all [equal, isObject]

/-- Equal values have equal elements. -/
theorem elems_of_equal {v w : Json} (h : v.equal w = true) :
    List.Forall₂ (fun a b => a.equal b = true) v.elems w.elems := by
  cases v <;> cases w <;> simp_all [equal, elems, equalElems_iff]

/-- A member of a value is in every equal value, up to equality. -/
theorem objectGet_of_equal {v w : Json} (h : v.equal w = true) {k : Text} {a : Json}
    (ha : v.objectGet k = some a) :
    ∃ b, w.objectGet k = some b ∧ a.equal b = true := by
  cases v with
  | object ms =>
    cases w with
    | object ns => exact ((equal_object _ _).mp h).2 _ (mem_of_lookup ha)
    | _ => simp [equal] at h
  | _ => simp [objectGet, members] at ha

/-- Equal values with distinct keys lack the same members. -/
theorem objectGet_none_of_equal {v w : Json} (hv : v.Valid) (hw : w.Valid)
    (h : v.equal w = true) {k : Text} (hk : v.objectGet k = none) :
    w.objectGet k = none := by
  by_contra hb
  obtain ⟨b, hb⟩ := Option.ne_none_iff_exists'.mp hb
  obtain ⟨a, ha, -⟩ := objectGet_of_equal (equal_symm hv hw h) hb
  rw [hk] at ha
  exact absurd ha (by simp)

/-- Equal values have the same text under a key. -/
theorem stringMember_of_equal {v w : Json} (hv : v.Valid) (hw : w.Valid)
    (h : v.equal w = true) (k : Text) : v.stringMember k = w.stringMember k := by
  unfold stringMember
  cases ha : v.objectGet k with
  | none => rw [objectGet_none_of_equal hv hw h ha]
  | some a =>
    obtain ⟨b, hb, hab⟩ := objectGet_of_equal h ha
    rw [hb]
    exact stringValue_of_equal hab

/-- Equal values have the same number under a key. -/
theorem integerMember_of_equal {v w : Json} (hv : v.Valid) (hw : w.Valid)
    (h : v.equal w = true) (k : Text) : v.integerMember k = w.integerMember k := by
  unfold integerMember
  cases ha : v.objectGet k with
  | none => rw [objectGet_none_of_equal hv hw h ha]
  | some a =>
    obtain ⟨b, hb, hab⟩ := objectGet_of_equal h ha
    rw [hb]
    exact integerValue_of_equal hab

/-- The elements of a valid value are valid. -/
theorem Valid.elems {v : Json} (h : v.Valid) : ∀ e ∈ v.elems, e.Valid := by
  cases h with
  | array h => exact h
  | _ => exact List.forall_mem_nil _

/-- A member of a valid value is valid. -/
theorem Valid.objectGet {v : Json} (h : v.Valid) {k : Text} {a : Json}
    (ha : v.objectGet k = some a) : a.Valid := by
  cases h with
  | object _ h => exact h _ (mem_of_lookup ha)
  | _ => simp [Json.objectGet, members] at ha

/-! ## Setting members -/

/-- What is found in a list of members that starts with one. -/
theorem lookup_cons_ite (k k' : Text) (w : Json) (ms : List (Text × Json)) :
    ((k', w) :: ms).lookup k = if k = k' then some w else ms.lookup k := by
  rw [List.lookup_cons]
  by_cases hk : k = k'
  · rw [if_pos hk, beq_iff_eq.mpr hk]
  · rw [if_neg hk, beq_false_of_ne hk]

/-- What is found after a member has been set. -/
theorem lookup_setMember (key : Text) (v : Json) (ms : List (Text × Json)) (k : Text) :
    (setMember key v ms).lookup k = if k = key then some v else ms.lookup k := by
  induction ms with
  | nil => rw [setMember, lookup_cons_ite]
  | cons m ms ih =>
    obtain ⟨k', w⟩ := m
    unfold setMember
    by_cases hk' : k' = key
    · rw [if_pos hk', lookup_cons_ite, lookup_cons_ite, hk']
      by_cases hk : k = key
      · rw [if_pos hk, if_pos hk]
      · rw [if_neg hk, if_neg hk, if_neg hk]
    · rw [if_neg hk', lookup_cons_ite, lookup_cons_ite, ih]
      by_cases hk : k = key
      · rw [if_pos hk, if_pos hk, if_neg (fun h => hk' (h.symm.trans hk))]
      · rw [if_neg hk, if_neg hk]

/-- Setting a member leaves an object an object. -/
@[simp] theorem isObject_objectSetNew (o : Json) (key : Text) (v : Option Json) :
    (o.objectSetNew key v).isObject = o.isObject := by
  unfold objectSetNew
  split <;> rfl

theorem isContainer_of_isObject {v : Json} (h : v.isObject = true) : v.isContainer = true := by
  cases v with
  | object ms => rfl
  | _ => exact absurd h (by simp [isObject])

/-- Setting a member leaves the others alone. -/
theorem objectGet_objectSetNew_of_ne {key k : Text} (h : k ≠ key) (o : Json)
    (v : Option Json) : (o.objectSetNew key v).objectGet k = o.objectGet k := by
  unfold objectSetNew
  split
  · exact (lookup_setMember _ _ _ _).trans (if_neg h)
  · rfl

/-- A member that was not there is what it is set to, NULL included. -/
theorem objectGet_objectSetNew {o : Json} {key : Text} (ho : o.isObject = true)
    (h : o.objectGet key = none) (v : Option Json) :
    (o.objectSetNew key v).objectGet key = v := by
  cases v with
  | none => cases o <;> exact h
  | some v =>
    cases o with
    | object ms => exact (lookup_setMember _ _ _ _).trans (if_pos rfl)
    | _ => exact absurd ho (by simp [isObject])

/-- A member is what it is set to, and what it was where that is NULL. -/
theorem objectGet_objectSetNew_self {o : Json} {key : Text} (ho : o.isObject = true)
    (v : Option Json) : (o.objectSetNew key v).objectGet key = v.or (o.objectGet key) := by
  cases v with
  | none => cases o <;> rfl
  | some v =>
    cases o with
    | object ms => exact (lookup_setMember _ _ _ _).trans (if_pos rfl)
    | _ => exact absurd ho (by simp [isObject])

/-- Nothing but an object has members to set. -/
theorem objectSetNew_of_not_object {o : Json} (ho : o.isObject = false) (key : Text)
    (v : Option Json) : o.objectSetNew key v = o := by
  cases o with
  | object ms => exact nomatch ho
  | _ => cases v <;> rfl

/-- Nothing but an object has members. -/
theorem objectGet_of_not_object {o : Json} (ho : o.isObject = false) (key : Text) :
    o.objectGet key = none := by
  cases o with
  | object ms => exact nomatch ho
  | _ => rfl

/-- The keys after a member has been set. -/
theorem keys_setMember (key : Text) (v : Json) (ms : List (Text × Json)) :
    (setMember key v ms).map Prod.fst
      = if key ∈ ms.map Prod.fst then ms.map Prod.fst else ms.map Prod.fst ++ [key] := by
  induction ms with
  | nil => rfl
  | cons m ms ih =>
    obtain ⟨k', w⟩ := m
    unfold setMember
    by_cases hk' : k' = key
    · simp [hk']
    · rw [if_neg hk', List.map_cons, ih, List.map_cons]
      by_cases hk : key ∈ ms.map Prod.fst
      · rw [if_pos hk, if_pos (List.mem_cons_of_mem _ hk)]
      · have hne : key ∉ k' :: ms.map Prod.fst := by
          rw [List.mem_cons, not_or]
          exact ⟨Ne.symm hk', hk⟩
        rw [if_neg hk, if_neg hne]
        rfl

/-- The members after one has been set. -/
theorem mem_setMember {key : Text} {v : Json} {ms : List (Text × Json)}
    {m : Text × Json} (h : m ∈ setMember key v ms) : m.2 = v ∨ m ∈ ms := by
  induction ms with
  | nil => exact Or.inl (congrArg Prod.snd (List.mem_singleton.mp h))
  | cons n ms ih =>
    obtain ⟨k', w⟩ := n
    unfold setMember at h
    split at h
    · rcases List.mem_cons.mp h with rfl | h
      · exact Or.inl rfl
      · exact Or.inr (List.mem_cons_of_mem _ h)
    · rcases List.mem_cons.mp h with rfl | h
      · exact Or.inr List.mem_cons_self
      · exact (ih h).imp_right (List.mem_cons_of_mem _)

theorem Valid.empty : (Json.object []).Valid := .object List.nodup_nil (List.forall_mem_nil _)

/-- Setting a member keeps the keys distinct. -/
theorem Valid.objectSetNew {o : Json} (ho : o.Valid) (key : Text) {v : Option Json}
    (hv : ∀ a, v = some a → a.Valid) : (o.objectSetNew key v).Valid := by
  unfold Json.objectSetNew
  split
  · rename_i ms v
    cases ho with
    | object nodup h =>
      refine Valid.object ?_ (fun m hm => ?_)
      · rw [keys_setMember]
        split
        · exact nodup
        · rename_i hk
          refine List.nodup_append.mpr ⟨nodup, List.nodup_singleton _, ?_⟩
          rintro a ha b hb rfl
          exact hk (List.mem_singleton.mp hb ▸ ha)
      · rcases mem_setMember hm with hm | hm
        · exact hm ▸ hv v rfl
        · exact h m hm
  · exact ho

/-! ## Removing members -/

/-- `json_object_del(o, key)`: without effect on anything but an object. -/
def objectDel (o : Json) (key : Text) : Json :=
  match o with
  | object ms => object (ms.filter (fun m => m.1 != key))
  | o => o

/-- Removing a member leaves an object an object. -/
@[simp] theorem isObject_objectDel (o : Json) (key : Text) :
    (o.objectDel key).isObject = o.isObject := by
  unfold objectDel
  split <;> rfl

/-- What is found after a member has been removed. -/
theorem objectGet_objectDel (o : Json) (key k : Text) :
    (o.objectDel key).objectGet k = if k = key then none else o.objectGet k := by
  unfold objectDel
  split
  · rename_i ms
    show (ms.filter _).lookup k = if k = key then none else ms.lookup k
    induction ms with
    | nil => simp
    | cons m ms ih =>
      obtain ⟨k', w⟩ := m
      by_cases hk' : k' = key
      · rw [List.filter_cons_of_neg (by simp [hk']), ih, lookup_cons_ite, hk']
        by_cases hk : k = key
        · rw [if_pos hk, if_pos hk]
        · rw [if_neg hk, if_neg hk, if_neg hk]
      · rw [List.filter_cons_of_pos (by simp [hk']), lookup_cons_ite, lookup_cons_ite, ih]
        by_cases hk : k = key
        · rw [if_pos hk, if_pos hk, if_neg (fun h => hk' (h.symm.trans hk))]
        · rw [if_neg hk, if_neg hk]
  · rename_i hno
    cases o with
    | object ms => exact absurd rfl (hno ms)
    | _ => simp [objectGet, members]

/-- Removing a member keeps the keys distinct. -/
theorem Valid.objectDel {o : Json} (ho : o.Valid) (key : Text) : (o.objectDel key).Valid := by
  unfold Json.objectDel
  split
  · rename_i ms
    cases ho with
    | object nodup h =>
      exact .object (nodup.sublist (List.filter_sublist.map _))
        (fun m hm => h m (List.mem_of_mem_filter hm))
  · exact ho

/-! ## Equality, key by key -/

/-- Two members are equal, or missing on both sides. -/
abbrev EqualMember : Option Json → Option Json → Prop :=
  Option.Rel (fun a b => a.equal b = true)

theorem EqualMember.refl {a : Option Json} (h : ∀ v, a = some v → v.Valid) : EqualMember a a := by
  cases a with
  | none => exact .none
  | some v => exact .some (equal_refl (h v rfl))

theorem EqualMember.trans {a b c : Option Json} (hab : EqualMember a b) (hbc : EqualMember b c) :
    EqualMember a c := by
  cases hab with
  | none => exact hbc
  | some hab =>
    cases hbc with
    | some hbc => exact .some (equal_trans hab hbc)

/-- Equal values have equal members. -/
theorem equalMember_of_equal {v w : Json} (hv : v.Valid) (hw : w.Valid) (h : v.equal w = true)
    (k : Text) : EqualMember (v.objectGet k) (w.objectGet k) := by
  cases ha : v.objectGet k with
  | none =>
    rw [objectGet_none_of_equal hv hw h ha]
    exact .none
  | some a =>
    obtain ⟨b, hb, hab⟩ := objectGet_of_equal h ha
    rw [hb]
    exact .some hab

/-- **Objects with equal members under every key are equal.** -/
theorem equal_of_equalMember {v w : Json} (hv : v.Valid) (hw : w.Valid)
    (hvo : v.isObject = true) (hwo : w.isObject = true)
    (h : ∀ k, EqualMember (v.objectGet k) (w.objectGet k)) : v.equal w = true := by
  obtain ⟨ms, rfl⟩ : ∃ ms, v = object ms := by
    cases v with
    | object ms => exact ⟨ms, rfl⟩
    | _ => exact nomatch hvo
  obtain ⟨ns, rfl⟩ : ∃ ns, w = object ns := by
    cases w with
    | object ns => exact ⟨ns, rfl⟩
    | _ => exact nomatch hwo
  cases hv with
  | object hms _ =>
  cases hw with
  | object hns _ =>
  have hfound : ∀ m ∈ ms, ∃ w, ns.lookup m.1 = some w ∧ m.2.equal w = true := by
    intro m hm
    have hm' := h m.1
    rw [objectGet, members, lookup_of_mem hms hm] at hm'
    generalize hb : (object ns).objectGet m.1 = b at hm'
    cases hm' with
    | some hab => exact ⟨_, hb, hab⟩
  have hsub : ms.map Prod.fst ⊆ ns.map Prod.fst := by
    intro k hk
    obtain ⟨m, hm, rfl⟩ := List.mem_map.mp hk
    obtain ⟨w, hw, -⟩ := hfound m hm
    exact List.mem_map.mpr ⟨_, mem_of_lookup hw, rfl⟩
  have hsup : ns.map Prod.fst ⊆ ms.map Prod.fst := by
    intro k hk
    obtain ⟨n, hn, rfl⟩ := List.mem_map.mp hk
    have hn' := h n.1
    rw [show (object ns).objectGet n.1 = some n.2 from lookup_of_mem hns hn] at hn'
    generalize hb : (object ms).objectGet n.1 = b at hn'
    cases hn' with
    | some hab => exact List.mem_map.mpr ⟨_, mem_of_lookup hb, rfl⟩
  have hlen : ms.length = ns.length := by
    have hperm := (List.perm_ext_iff_of_nodup hms hns).mpr (fun k => ⟨@hsub k, @hsup k⟩)
    simpa using hperm.length_eq
  exact (equal_object _ _).mpr ⟨hlen, hfound⟩

end Json
