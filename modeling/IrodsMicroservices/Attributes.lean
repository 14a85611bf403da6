import IrodsMicroservices.ArchiveConstruct
import IrodsMicroservices.WalkOrder

/-!
# Setting attributes

When an item has been extracted its attributes are set one after the other. The
first attribute of a name is set, which replaces what the target has under that
name, and the following ones are added – where "the following ones" are those
directly after it, since `attributes` looks no further back than the attribute
before. The list comes from a query without an order.

So an attribute is kept exactly where some occurrence of it is followed by more
of its name and then by none of its name (`LastsIn`), and the target ends up with
the attributes of the list and its other old ones exactly where this holds of
all of them (`attributes_exact_iff`).
-/

/-- The loop of `attributes`; `prev` is the name of the attribute before. -/
def attributesLoop (E : Irods) (file : Text) (isColl : Bool) :
    Option Text → List Json → Session → Except Fault Session
  | _, [], s => .ok s
  | prev, json :: rest, s =>
    let name := json.stringMember "name".toList
    let value := json.stringMember "value".toList
    let unit := json.stringMember "unit".toList
    match prev, name with
    -- `strcmp`, where the attribute before it has a name
    | some _, none => .error .nullPointer
    | _, _ =>
      let op := if prev = none ∨ name ≠ prev then AvuOp.set else .add
      attributesLoop E file isColl name rest
        (s.modAvuMetadata E op isColl file name value unit).2

/-- **`attributes`.** The result of the calls is not looked at. -/
def attributes (E : Irods) (file : Text) (isColl : Bool) (list : Json) (s : Session) :
    Except Fault Session :=
  attributesLoop E file isColl none list.elems s

/-! ## What is set and what is added -/

/-- The attributes after some have been set or added in a row. -/
def applyAvus : Option Text → List Avu → Finset Avu → Finset Avu
  | _, [], avus => avus
  | prev, a :: rest, avus =>
    applyAvus (some a.name) rest
      (Session.changeAvus (if prev = some a.name then .add else .set) a avus)

theorem stringMember_json (a : Avu) :
    a.json.stringMember "name".toList = some a.name
      ∧ a.json.stringMember "value".toList = some a.value
      ∧ a.json.stringMember "unit".toList = some a.unit := ⟨rfl, rfl, rfl⟩

/-- What the loop does to the attributes, where no call fails. -/
theorem attributesLoop_avus {E : Irods} (hE : ∀ n, E.deny n = none) (file : Text)
    (isColl : Bool) : ∀ (list : List Avu) (prev : Option Text) (s : Session),
    ∃ s', attributesLoop E file isColl prev (list.map Avu.json) s = .ok s'
      ∧ s'.avus = Function.update s.avus file (applyAvus prev list (s.avus file)) := by
  intro list
  induction list with
  | nil =>
    intro prev s
    exact ⟨s, rfl, (Function.update_eq_self file s.avus).symm⟩
  | cons a list ih =>
    intro prev s
    obtain ⟨hname, hvalue, hunit⟩ := stringMember_json a
    have hop : (if prev = none ∨ some a.name ≠ prev then AvuOp.set else .add)
        = if prev = some a.name then .add else .set := by
      by_cases h : prev = some a.name
      · simp [h]
      · rw [if_neg h, if_pos (.inr (Ne.symm h))]
    obtain ⟨s', hs', havus⟩ := ih (some a.name)
      ((s.change (if prev = some a.name then .add else .set) file a).record
        (.modAvuMetadata (if prev = some a.name then .add else .set) isColl file (some a.name)
          (some a.value) (some a.unit)) true)
    refine ⟨s', ?_, ?_⟩
    · rw [List.map_cons, attributesLoop, hname, hvalue, hunit]
      · rw [hop]
        unfold Session.modAvuMetadata
        rw [Session.request_of_willing hE]
        exact hs'
      · intro _ _ hnone
        rw [hname] at hnone
        exact nomatch hnone
    · rw [havus, applyAvus]
      show Function.update (Function.update s.avus file _) file
        (applyAvus _ _ (Function.update s.avus file _ file)) = _
      rw [Function.update_idem, Function.update_self]

/-- After more of a name, nothing of that name comes any more. -/
def endsRun (name : Text) (list : List Avu) : Prop :=
  ∀ a ∈ list.dropWhile (fun a => a.name == name), a.name ≠ name

/-- **An occurrence of the attribute is followed by more of its name, and then by
none of its name.** -/
def LastsIn (list : List Avu) (a : Avu) : Prop :=
  ∃ pre post, list = pre ++ a :: post ∧ endsRun a.name post

theorem endsRun_cons_of_eq {name : Text} {a : Avu} (h : a.name = name) (list : List Avu) :
    endsRun name (a :: list) ↔ endsRun name list := by
  unfold endsRun
  rw [List.dropWhile_cons_of_pos (by simpa using h)]

theorem endsRun_cons_of_ne {name : Text} {a : Avu} (h : a.name ≠ name) (list : List Avu) :
    endsRun name (a :: list) ↔ ∀ b ∈ a :: list, b.name ≠ name := by
  unfold endsRun
  rw [List.dropWhile_cons_of_neg (by simpa using h)]

theorem lastsIn_cons (b : Avu) (list : List Avu) (a : Avu) :
    LastsIn (b :: list) a ↔ (a = b ∧ endsRun a.name list) ∨ LastsIn list a := by
  constructor
  · rintro ⟨_ | ⟨c, pre⟩, post, heq, hpost⟩
    · obtain ⟨rfl, rfl⟩ := List.cons.inj heq
      exact .inl ⟨rfl, hpost⟩
    · exact .inr ⟨pre, post, (List.cons.inj heq).2, hpost⟩
  · rintro (⟨rfl, h⟩ | ⟨pre, post, rfl, h⟩)
    · exact ⟨[], list, rfl, h⟩
    · exact ⟨b :: pre, post, rfl, h⟩

theorem mem_changeAvus (op : AvuOp) (b a : Avu) (avus : Finset Avu) :
    a ∈ Session.changeAvus op b avus
      ↔ a = b ∨ a ∈ avus ∧ (op = .set → a.name ≠ b.name) := by
  cases op <;> simp [Session.changeAvus]

/-- **What is left in the end**: what lasts in the list, and of the old attributes
those no attribute of their name has been set over. -/
theorem mem_applyAvus (a : Avu) : ∀ (list : List Avu) (prev : Option Text) (avus : Finset Avu),
    a ∈ applyAvus prev list avus ↔ LastsIn list a
      ∨ a ∈ avus ∧ if prev = some a.name then endsRun a.name list
        else ∀ b ∈ list, b.name ≠ a.name := by
  intro list
  induction list with
  | nil =>
    intro prev avus
    simp [applyAvus, LastsIn, endsRun]
  | cons b list ih =>
    intro prev avus
    rw [applyAvus, ih, lastsIn_cons, mem_changeAvus]
    by_cases hname : b.name = a.name
    · by_cases hprev : prev = some a.name
      · rw [if_pos (congrArg some hname), if_pos (by rw [hprev, hname]), if_pos hprev,
          endsRun_cons_of_eq hname]
        simp only [reduceCtorEq, false_implies, and_true]
        tauto
      · rw [if_pos (congrArg some hname), if_neg (by rw [hname]; exact hprev), if_neg hprev]
        have hb : ¬ ∀ c ∈ b :: list, c.name ≠ a.name :=
          fun h => h b List.mem_cons_self hname
        simp only [hname, ne_eq, not_true_eq_false, imp_false]
        tauto
    · have hne : a ≠ b := fun h => hname (h ▸ rfl)
      rw [if_neg (fun h => hname (Option.some.inj h))]
      have hprev : (if prev = some a.name then endsRun a.name (b :: list)
          else ∀ c ∈ b :: list, c.name ≠ a.name) ↔ ∀ c ∈ list, c.name ≠ a.name := by
        split
        · rw [endsRun_cons_of_ne hname, List.forall_mem_cons]
          exact and_iff_right hname
        · rw [List.forall_mem_cons]
          exact and_iff_right hname
      rw [hprev]
      have hname' : a.name ≠ b.name := fun h => hname h.symm
      tauto

/-- **The target has the attributes of the list and its old ones of other names,
exactly where every attribute of the list lasts in it.** What other targets have
is left alone in any case. -/
theorem attributes_exact_iff {E : Irods} (hE : ∀ n, E.deny n = none) (file : Text)
    (isColl : Bool) (list : List Avu) (s : Session) :
    ∃ s', attributes E file isColl (.array (list.map Avu.json)) s = .ok s'
      ∧ (∀ p, p ≠ file → s'.avus p = s.avus p)
      ∧ (s'.avus file = list.toFinset
            ∪ (s.avus file).filter (fun a => a.name ∉ list.map Avu.name)
          ↔ ∀ a ∈ list, LastsIn list a) := by
  obtain ⟨s', hs', havus⟩ := attributesLoop_avus hE file isColl list none s
  refine ⟨s', hs', fun p hp => by rw [havus, Function.update_of_ne hp], ?_⟩
  rw [havus, Function.update_self]
  have hmem : ∀ a, LastsIn list a → a ∈ list := by
    rintro a ⟨pre, post, rfl, -⟩
    simp
  constructor
  · intro heq a ha
    have hfinal : a ∈ applyAvus none list (s.avus file) := by
      rw [heq]
      exact Finset.mem_union_left _ (List.mem_toFinset.mpr ha)
    rcases (mem_applyAvus a _ _ _).mp hfinal with h | ⟨-, h⟩
    · exact h
    · rw [if_neg (by simp)] at h
      exact absurd rfl (h a ha)
  · intro h
    ext a
    rw [mem_applyAvus, if_neg (by simp), Finset.mem_union, List.mem_toFinset, Finset.mem_filter,
      List.mem_map, not_exists]
    refine or_congr ⟨hmem a, h a⟩ (and_congr_right fun _ => forall_congr' fun b => ?_)
    exact not_and.symm

/-- Two attributes of one name, adjacent, over an old one of that name. -/
theorem attributes_exact_sample :
    let list : List Avu := [⟨"k".toList, "1".toList, []⟩, ⟨"k".toList, "2".toList, []⟩]
    let s : Session := .fresh (fun _ => none)
    ∃ s', attributes .obliging "/z/f".toList false (.array (list.map Avu.json)) s = .ok s'
      ∧ (∀ p, p ≠ "/z/f".toList → s'.avus p = s.avus p)
      ∧ (s'.avus "/z/f".toList = list.toFinset
            ∪ (s.avus "/z/f".toList).filter (fun a => a.name ∉ list.map Avu.name)
          ↔ ∀ a ∈ list, LastsIn list a) :=
  attributes_exact_iff (fun _ => rfl) "/z/f".toList false _ _

/-- **A name that comes back** after another one loses its first value. -/
theorem returning_name_loses_value :
    ¬ ∀ (E : Irods) (file : Text) (isColl : Bool) (list : List Avu) (s s' : Session),
      (∀ n, E.deny n = none) →
      attributes E file isColl (.array (list.map Avu.json)) s = .ok s' →
      s'.avus file = list.toFinset
        ∪ (s.avus file).filter (fun a => a.name ∉ list.map Avu.name) := by
  intro h
  have hbad := h .obliging "/z/f".toList false
    [⟨"k".toList, "1".toList, []⟩, ⟨"l".toList, [], []⟩, ⟨"k".toList, "2".toList, []⟩]
    (.fresh (fun _ => none)) _ (fun _ => rfl) rfl
  revert hbad
  decide
