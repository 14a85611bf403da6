import IrodsMicroservices.ItemByItem

/-!
# Restored attributes

An archive is made with the attributes of each collection and each data object in the
order in which the catalog lists them, and an extraction sets or adds them again in that
order. On the way they are members of items of the index, which is written out as a text
and read back.

What is at the place of an item in the end is therefore what `attributes` makes of the
list in the catalog (`Snapshot.restored`), at whatever time and wherever the archive is
extracted: all of the list beside what was there under other names, exactly where every
attribute of the list lasts in it (`archives_restore_attributes`).
-/

open Session

/-! ## The edits of a list of attributes -/

/-- Items with the same texts under all keys ask for the same edits. -/
theorem avuEdits_congr {list list' : List Json}
    (h : List.Forall₂ (fun a b => ∀ key, a.stringMember key = b.stringMember key) list list') :
    ∀ prev, avuEdits prev list = avuEdits prev list' := by
  induction h with
  | nil => exact fun _ => rfl
  | @cons a b list list' hab _ ih =>
    intro prev
    show callEdits _ _ _ _ ++ avuEdits _ list = callEdits _ _ _ _ ++ avuEdits _ list'
    simp only [hab, ih]

/-- **Equal items ask for the same edits.** -/
theorem itemEdits_of_equal {v w : Json} (hv : v.Valid) (hw : w.Valid) (h : v.equal w = true) :
    itemEdits v = itemEdits w := by
  unfold itemEdits
  cases ha : v.objectGet "attributes".toList with
  | none => rw [Json.objectGet_none_of_equal hv hw h ha]
  | some list =>
    obtain ⟨list', hb, hequal⟩ := Json.objectGet_of_equal h ha
    rw [hb]
    have hvalid := (hv.objectGet ha).elems
    have hvalid' := (hw.objectGet hb).elems
    refine avuEdits_congr (List.forall₂_iff_get.mpr ⟨(Json.elems_of_equal hequal).length_eq,
      fun i h₁ h₂ key => ?_⟩) none
    exact Json.stringMember_of_equal (hvalid _ (List.get_mem _ _)) (hvalid' _ (List.get_mem _ _))
      ((Json.elems_of_equal hequal).get h₁ h₂) key

/-- The edits for a list of attributes are made as `attributes` makes them. -/
theorem applyAll_avuEdits (list : List Avu) : ∀ (prev : Option Text) (avus : Finset Avu),
    KeyedEdit.applyAll Avu.name (avuEdits prev (list.map Avu.json)) avus
      = applyAvus prev list avus := by
  induction list with
  | nil => exact fun _ _ => rfl
  | cons a list ih =>
    intro prev avus
    obtain ⟨hname, hvalue, hunit⟩ := stringMember_json a
    rw [List.map_cons, avuEdits, hname, hvalue, hunit, applyAvus, ← ih (some a.name)]
    by_cases hprev : prev = some a.name
    · rw [if_neg (by simp [hprev]), if_pos hprev]
      rfl
    · rw [if_pos (.inr (Ne.symm hprev)), if_neg hprev]
      rfl

/-- The texts of a list of attributes are UTF-8. -/
def AvusEncodable (J : Jansson) (attributes : List Avu) : Prop :=
  ∀ a ∈ attributes, J.utf8 a.name = true ∧ J.utf8 a.value = true ∧ J.utf8 a.unit = true

/-- **The edits an item asks for** are those of the list in the catalog. -/
theorem applyAll_itemEdits {J : Jansson} {c : ArchiveCall} {attributes : List Avu}
    (hlist : c.attributes = Catalog.listOf (Catalog.attrEntry J) attributes)
    (hutf8 : AvusEncodable J attributes) (avus : Finset Avu) :
    KeyedEdit.applyAll Avu.name (itemEdits (c.item J)) avus = applyAvus none attributes avus := by
  have hfull : c.attributes = fullAttributes attributes :=
    hlist.trans (listOf_attrEntry ⟨hutf8, List.forall_mem_nil _⟩)
  unfold itemEdits
  rw [(ArchiveCall.item_lists J c).1, hfull, fullAttributes]
  by_cases hnil : attributes = []
  · rw [if_pos hnil, hnil]
    rfl
  · rw [if_neg hnil]
    exact applyAll_avuEdits attributes none avus

/-- **The attributes of a list are at a place**, beside those that were there under other
names. -/
def AttributesAt (path : Text) (attributes : List Avu) (s s' : Session) : Prop :=
  s'.avus path = attributes.toFinset
    ∪ (s.avus path).filter (fun a => ∀ b ∈ attributes, b.name ≠ a.name)

/-- An attribute that lasts in a list is in it. -/
theorem LastsIn.mem {list : List Avu} {a : Avu} (h : LastsIn list a) : a ∈ list := by
  obtain ⟨pre, post, rfl, -⟩ := h
  exact List.mem_append_right _ List.mem_cons_self

/-- **All of a list is there** exactly where every attribute of it lasts. -/
theorem attributesAt_iff {path : Text} {attributes : List Avu} {s s' : Session}
    (h : s'.avus path = applyAvus none attributes (s.avus path)) :
    AttributesAt path attributes s s' ↔ ∀ a ∈ attributes, LastsIn attributes a := by
  have hmem : ∀ a, a ∈ s'.avus path ↔ LastsIn attributes a
      ∨ a ∈ s.avus path ∧ ∀ b ∈ attributes, b.name ≠ a.name := by
    intro a
    rw [h, mem_applyAvus, if_neg (by simp)]
  unfold AttributesAt
  rw [Finset.ext_iff]
  constructor
  · intro heq a ha
    have hthere := (heq a).mpr (Finset.mem_union_left _ (List.mem_toFinset.mpr ha))
    refine ((hmem a).mp hthere).resolve_right ?_
    rintro ⟨-, hother⟩
    exact hother a ha rfl
  · intro hlasts a
    rw [hmem, Finset.mem_union, List.mem_toFinset, Finset.mem_filter]
    exact or_congr_left ⟨LastsIn.mem, hlasts a⟩

/-! ## The services -/

section Run

variable {L : Libarchive} {J : Jansson} {known : Archives J} {s s₀ : Session} {archive : Text}
  {m : Snapshot J archive} {data : Bytes} {E : Irods} {rows : SpaceQuery} {target : Text}
  {extractIn resourceIn : MsParam} {r : Extracted}

/-- **What an extraction makes of the attributes of a call**, on a server that refuses
nothing. -/
theorem Snapshot.restored (hL : L.ReadsBack) (hJ : J.Lawful)
    (hproduced : Produced L J archive m.coll m.calls m.nodes data) (hE : ∀ n, E.deny n = none)
    (hfits : target.length < Text.maxNameLen
      ∧ ∀ name ∈ m.tree.paths, (Text.join target name).length < Text.maxNameLen)
    (hall : extractIn.parseMspForStr = none)
    (hextract : msiArchiveExtract J E rows (L.entryAt data) (.ofText archive) (.ofText target)
      extractIn resourceIn s = .ok r) (hstatus : r.status.isNeg = false) {c : ArchiveCall}
    (hc : c ∈ m.archived) {attributes : List Avu}
    (hlist : c.attributes = Catalog.listOf (Catalog.attrEntry J) attributes)
    (hutf8 : AvusEncodable J attributes) :
    r.session.avus (Text.join target c.name)
      = applyAvus none attributes (s.avus (Text.join target c.name)) := by
  obtain ⟨_, _, b, s₁, loop, harchive, htarget, hopen, -, hloop, rfl⟩ :=
    msiArchiveExtract_spec hextract hstatus
  obtain rfl := MsParam.eq_of_parseMspForStr harchive
  obtain rfl := MsParam.eq_of_parseMspForStr htarget
  rw [hall, Text.rstrcpy_of_fits hfits.1] at hloop
  obtain ⟨hpass, hnames⟩ := Snapshot.passed hL hJ hproduced hopen hloop hstatus
  obtain ⟨hdistinct, hitems⟩ := Snapshot.items_fit hnames hfits.2
  obtain ⟨item, hitem, hname, hv, hw, hequal⟩ := Snapshot.item_of_call hL hJ hproduced hopen hc
  have hbefore : ((s₁.collCreate E target false).2).avus = s.avus :=
    (avus_collCreate target s₁).trans (openArchive_frame hopen).2
  show ((loop.session.objClose E b.path).2).avus _ = _
  rw [(objClose_frame loop.session E b.path).2, hpass.edited hE hdistinct hitems item hitem _ hname,
    hbefore, ← itemEdits_of_equal hv hw hequal]
  exact applyAll_itemEdits hlist hutf8 _

/-- **Attributes survive archiving**, exactly where the catalog lists them so that each one
lasts: an extraction of all of an archive, at any time in any run, leaves at the place of
each data object and of each collection the attributes that the catalog listed when the
archive was made, beside what was there under other names. -/
theorem archives_restore_attributes (hL : L.ReadsBack) (hJ : J.Lawful)
    (hrun : Reaches L ((fun _ => none : Archives J), s₀) (known, s))
    (hknown : known archive = some m) (hdata : s.nodes archive = some (.obj data))
    (hE : ∀ n, E.deny n = none) (hfits : target.length < Text.maxNameLen
      ∧ ∀ name ∈ m.tree.paths, (Text.join target name).length < Text.maxNameLen)
    (hall : extractIn.parseMspForStr = none)
    (hextract : msiArchiveExtract J E rows (L.entryAt data) (.ofText archive) (.ofText target)
      extractIn resourceIn s = .ok r) (hstatus : r.status.isNeg = false) :
    (∀ p ∈ m.tree.archivable archive m.coll, AvusEncodable J p.2.attributes →
        (AttributesAt (Text.join target p.1) p.2.attributes s r.session
          ↔ ∀ a ∈ p.2.attributes, LastsIn p.2.attributes a))
      ∧ ∀ p ∈ m.tree.collections, AvusEncodable J p.2.attributes →
        (AttributesAt (Text.join target p.1) p.2.attributes s r.session
          ↔ ∀ a ∈ p.2.attributes, LastsIn p.2.attributes a) := by
  obtain ⟨data', hdata', hproduced⟩ := whole_of_reaches hrun hknown
  obtain rfl := Node.obj.inj (Option.some.inj (hdata.symm.trans hdata'))
  refine ⟨fun p hp hutf8 => attributesAt_iff ?_, fun p hp hutf8 => attributesAt_iff ?_⟩
  · obtain ⟨row, rows', hrows⟩ := List.exists_cons_of_ne_nil p.2.rows_ne_nil
    have hcall := CollTree.mem_archived_of_row (J := J) m.source.shows hp
      (List.mem_map_of_mem (hrows ▸ List.mem_cons_self))
    exact Snapshot.restored hL hJ hproduced hE hfits hall hextract hstatus hcall rfl hutf8
  · have hcall : p.2.call J p.1 ∈ m.archived :=
      CollTree.mem_archived_of_collection m.source.shows hp
    exact Snapshot.restored hL hJ hproduced hE hfits hall hextract hstatus hcall rfl hutf8

end Run

/-- The attributes of the data object of the tree, extracted after others have changed all
but the archive. -/
theorem archives_restore_attributes_sample : ∃ (data : Bytes) (r : Extracted),
    msiArchiveExtract JsonText.codec .obliging (fun _ => .ok [])
        (ArchiveText.library.entryAt data) (.ofText "/z/x.tar".toList) (.ofText "/z/t".toList)
        Sample.noParam Sample.noParam (Sample.before data) = .ok r
      ∧ AttributesAt "/z/t/a/f".toList Sample.object.attributes (Sample.before data) r.session := by
  obtain ⟨data, known, hrun, hknown, -, -, r, -, hr, hstatus⟩ := Sample.reaches_before
  obtain ⟨hobjects, -⟩ := archives_restore_attributes ArchiveText.library_readsBack
    JsonText.codec_lawful hrun hknown rfl (fun _ => rfl) ⟨by decide, by decide⟩ rfl hr
    (by rw [hstatus]; rfl)
  have hobject : ("a/f".toList, Sample.object)
      ∈ (Sample.tree Sample.object).archivable "/z/x.tar".toList Sample.coll :=
    List.mem_filter.mpr ⟨List.mem_singleton_self _, rfl⟩
  have hutf8 : AvusEncodable JsonText.codec Sample.object.attributes :=
    List.forall_mem_singleton.mpr ⟨rfl, rfl, rfl⟩
  have hlasts : ∀ a ∈ Sample.object.attributes, LastsIn Sample.object.attributes a :=
    List.forall_mem_singleton.mpr ⟨[], [], rfl, List.forall_mem_nil _⟩
  exact ⟨data, r, hr, (hobjects _ hobject hutf8).mpr hlasts⟩
