import IrodsMicroservices.WalkOrder

/-!
# One index item per data object

The query for the data objects of a collection selects columns of the replicas –
the times and the checksum – and asks for those in good state. An object yields
one row for each distinct tuple of these columns, and each row becomes an index
item and adds the object's blocks to the size of the index. So the index lists
every data object once, and counts it once, exactly where its good replicas
agree in these columns.

`indexed_once_iff` is that equivalence, for every tree; `two_replicas_twice` is
an object whose two replicas were written at different times.
-/

open Catalog

namespace CollTree

/-- The data objects of a tree, with their paths relative to the root. -/
def objects : CollTree → List (Text × DataObject) :=
  enumerate (fun pre o => [(pre ++ o.name, o)]) (fun _ _ => []) []

/-- The data objects of a tree at `coll`, the archive itself excepted. -/
def archivable (path coll : Text) (t : CollTree) : List (Text × DataObject) :=
  t.objects.filter (fun p => path != Text.join coll p.1)

/-- The rows of the data objects. -/
def rowCalls (J : Jansson) (p : Text × DataObject) : List ArchiveCall :=
  p.2.rows.map (fun r => .addDataObj p.1 (BitVec.ofInt 64 r.size) r.created r.modified
    r.owner r.zone r.checksum (listOf (attrEntry J) p.2.attributes)
    (listOf (aclEntry J) p.2.acl))

/-- **Every data object is listed once and counted once**: the names of the data
object items are the names of the objects, and the size of the index is the sum
of the objects' blocks. -/
def IndexedOnce (J : Jansson) (t : CollTree) (a : WriteArchive) : Prop :=
  ((a.list.filter ArchiveCall.isDataObjItem).map
      (fun item => item.objectGet "name".toList)).Perm
    ((t.archivable a.path a.origin).map (fun p => J.string p.1))
  ∧ a.dataSize = ((t.archivable a.path a.origin).map
      (fun p => WriteArchive.blockRounded (BitVec.ofInt 64 p.2.size))).sum

theorem calls_eq_rowCalls (J : Jansson) (pre : Text) (o : DataObject) :
    o.calls J pre = rowCalls J (pre ++ o.name, o) := by
  refine List.map_congr_left (fun r hr => ?_)
  obtain ⟨_, -, rfl⟩ := List.mem_map.mp hr
  rfl

theorem filter_eq_flatMap {α : Type} (p : α → Bool) (as : List α) :
    as.filter p = as.flatMap (fun a => if p a then [a] else []) := by
  induction as with
  | nil => rfl
  | cons a as ih => cases h : p a <;> simp [h, ih]

/-- The calls for the data objects are those of the rows of the objects. -/
theorem filter_enumerate (J : Jansson) (t : CollTree) :
    (t.enumerate (DataObject.calls J) (fun name c => [c.call J name]) []).filter
        (fun c => !c.isColl)
      = t.objects.flatMap (rowCalls J) := by
  rw [filter_eq_flatMap, enumerate_flatMap, objects, enumerate_flatMap]
  refine enumerate_congr (fun c _ pre o _ => ?_) (fun _ _ _ => rfl)
    (All.of_forall (P := fun _ => True) (fun _ => trivial) t) []
  rw [List.flatMap_singleton, calls_eq_rowCalls, ← filter_eq_flatMap, List.filter_eq_self]
  intro a ha
  obtain ⟨r, -, rfl⟩ := List.mem_map.mp ha
  rfl

section Index

variable {K : Catalog} {J : Jansson} {coll : Text} {t : CollTree} (path : Text)

/-- The calls for data objects that make an index item, in some order. -/
theorem dataObj_calls_perm (hs : t.Shows K coll) :
    ((t.calls K J).filter (fun c => !c.isColl && !c.isSelf path coll)).Perm
      ((t.archivable path coll).flatMap (rowCalls J)) := by
  have hperm := (calls_perm (J := J) [] hs).filter (fun c => !c.isColl)
  rw [filter_enumerate] at hperm
  have hself := hperm.filter (fun c => !c.isSelf path coll)
  have hand : ∀ calls : List ArchiveCall,
      (calls.filter (fun c => !c.isColl)).filter (fun c => !c.isSelf path coll)
        = calls.filter (fun c => !c.isColl && !c.isSelf path coll) := by
    intro calls
    rw [List.filter_filter]
    exact List.filter_congr (fun _ _ => Bool.and_comm _ _)
  rw [hand] at hself
  refine hself.trans (List.Perm.of_eq ?_)
  unfold archivable
  induction t.objects with
  | nil => rfl
  | cons p ps ih =>
    rw [List.flatMap_cons, List.filter_append, ih, List.filter_cons]
    have hname : ∀ c ∈ rowCalls J p,
        (!c.isSelf path coll) = (path != Text.join coll p.1) := by
      intro c hc
      obtain ⟨r, -, rfl⟩ := List.mem_map.mp hc
      rfl
    rw [List.filter_congr hname]
    cases h : path != Text.join coll p.1 <;> simp

/-- The names of the data object items are the names of the rows. -/
theorem names_perm (hJ : J.Lawful) (hs : t.Shows K coll) :
    (((WriteArchive.create path coll).run J (t.calls K J)).list.filter
        ArchiveCall.isDataObjItem |>.map (fun item => item.objectGet "name".toList)).Perm
      ((t.archivable path coll).flatMap (fun p => p.2.rows.map (fun _ => J.string p.1))) := by
  rw [WriteArchive.run_eq]
  have hname : (fun item : Json => item.objectGet "name".toList) ∘ ArchiveCall.item J
      = fun c => J.string c.name := funext (ArchiveCall.item_name J)
  have htype : ArchiveCall.isDataObjItem ∘ ArchiveCall.item J = fun c => !c.isColl :=
    funext (ArchiveCall.isDataObjItem_item hJ)
  show (([] ++ _).filter _ |>.map _).Perm _
  rw [List.nil_append, List.filter_map, List.map_map, hname, htype, List.filter_filter]
  refine ((dataObj_calls_perm path hs).map _).trans (List.Perm.of_eq ?_)
  rw [List.map_flatMap]
  refine List.flatMap_congr (fun p _ => ?_)
  rw [rowCalls, List.map_map]
  rfl

/-- The size of the index is the sum of the blocks of the rows. -/
theorem dataSize_eq (hs : t.Shows K coll) :
    ((WriteArchive.create path coll).run J (t.calls K J)).dataSize
      = ((t.archivable path coll).map (fun p => (p.2.rows.map
          (fun r => WriteArchive.blockRounded (BitVec.ofInt 64 r.size))).sum)).sum := by
  rw [WriteArchive.run_eq]
  show 0#64 + (List.map ArchiveCall.blocks _).sum = _
  have hcolls : ∀ calls : List ArchiveCall, (calls.map ArchiveCall.blocks).sum
      = ((calls.filter (fun c => !c.isColl)).map ArchiveCall.blocks).sum := by
    intro calls
    induction calls with
    | nil => rfl
    | cons c calls ih =>
      cases c with
      | addColl =>
        rw [List.map_cons, List.sum_cons, ih]
        exact BitVec.zero_add _
      | addDataObj =>
        rw [List.map_cons, List.sum_cons, ih]
        rfl
  rw [BitVec.zero_add, hcolls, List.filter_filter]
  refine ((dataObj_calls_perm path hs).map ArchiveCall.blocks).sum_eq.trans ?_
  induction t.archivable path coll with
  | nil => rfl
  | cons p ps ih =>
    rw [List.flatMap_cons, List.map_append, List.sum_append, ih, List.map_cons, List.sum_cons,
      rowCalls, List.map_map]
    rfl

end Index

end CollTree

/-- As many rows as objects means one row for each. -/
theorem rows_length_eq_one {ps : List (Text × DataObject)}
    (h : (ps.flatMap (fun p => p.2.rows)).length = ps.length) :
    ∀ p ∈ ps, p.2.OneRow := by
  have hle : ∀ ps : List (Text × DataObject),
      ps.length ≤ (ps.flatMap (fun p => p.2.rows)).length := by
    intro ps
    induction ps with
    | nil => exact le_rfl
    | cons p ps ih =>
      have hpos := List.length_pos_iff.mpr p.2.rows_ne_nil
      rw [List.flatMap_cons, List.length_append, List.length_cons]
      omega
  induction ps with
  | nil => exact List.forall_mem_nil _
  | cons p ps ih =>
    have hpos := List.length_pos_iff.mpr p.2.rows_ne_nil
    have hps := hle ps
    rw [List.flatMap_cons, List.length_append, List.length_cons] at h
    refine List.forall_mem_cons.mpr ⟨?_, ih (by omega)⟩
    unfold DataObject.OneRow
    omega

/-- The calls of a tree list and count every data object once exactly where the
good replicas of each agree. -/
theorem indexedOnce_calls_iff {K : Catalog} {J : Jansson} (hJ : J.Lawful) {coll : Text}
    {t : CollTree} (hs : t.Shows K coll) (path : Text) :
    t.IndexedOnce J ((WriteArchive.create path coll).run J (t.calls K J))
      ↔ ∀ p ∈ t.archivable path coll, p.2.OneRow := by
  have hpath : ((WriteArchive.create path coll).run J (t.calls K J)).path = path
      ∧ ((WriteArchive.create path coll).run J (t.calls K J)).origin = coll := by
    rw [WriteArchive.run_eq]
    exact ⟨rfl, rfl⟩
  unfold CollTree.IndexedOnce
  rw [hpath.1, hpath.2, CollTree.dataSize_eq path hs]
  have hnames := CollTree.names_perm path hJ hs
  constructor
  · rintro ⟨hperm, -⟩
    have hlen := (hnames.symm.trans hperm).length_eq
    refine rows_length_eq_one ?_
    rw [List.length_map] at hlen
    rw [← hlen, List.length_flatMap, List.length_flatMap]
    simp only [List.length_map]
  · intro h
    refine ⟨hnames.trans (List.Perm.of_eq ?_), ?_⟩
    · rw [List.map_eq_flatMap]
      refine List.flatMap_congr (fun p hp => ?_)
      rw [DataObject.rows_of_oneRow (h p hp)]
      rfl
    · refine congrArg List.sum (List.map_congr_left (fun p hp => ?_))
      rw [DataObject.rows_of_oneRow (h p hp)]
      exact BitVec.add_zero _

/-- **Every data object is listed and counted once exactly where the good
replicas of each agree** in the columns the query selects; the archive itself
may have any. -/
theorem indexed_once_iff {Q : GenQuery} {J : Jansson} (hJ : J.Lawful) (hQ : Q.Reliable)
    {coll : Text} {t : CollTree} (hs : t.Shows Q.toCatalog coll) {fuel : ℕ}
    (hfuel : t.depth < fuel) (path : Text) :
    ∃ w, Q.walk J fuel coll t.coll.id Walk.start = some w
      ∧ (t.IndexedOnce J ((WriteArchive.create path coll).run J w.calls)
        ↔ ∀ p ∈ t.archivable path coll, p.2.OneRow) := by
  obtain ⟨w, hw⟩ := GenQuery.walk_total (J := J) hs hfuel Walk.start
  have hcalls : w.calls = t.calls Q.toCatalog J := GenQuery.walk_calls hs hw (hQ.fine w)
  exact ⟨w, hw, hcalls ▸ indexedOnce_calls_iff hJ hs path⟩

namespace Sample

/-- A server that delivers every statement in one page. -/
def server (K : Catalog) : GenQuery :=
  { K with outcome := fun _ => .page 511 false, failure := fun _ => .ofCode .sysInvalidInputParam }

theorem server_reliable (K : Catalog) : (server K).Reliable := fun _ => by
  rw [server]
  exact PageOutcome.noConfusion

/-- The data object, with a second good replica written later. -/
def twoReplicas : DataObject :=
  { object with replicas := [⟨1, 2, []⟩, ⟨1, 7, []⟩], good := List.cons_ne_nil _ _ }

end Sample

/-- The index of the sample tree. -/
theorem indexed_once_sample :
    ∃ w, (Sample.server (Sample.catalog Sample.object)).walk JsonText.codec 2 Sample.coll 1
        Walk.start = some w
      ∧ ((Sample.tree Sample.object).IndexedOnce JsonText.codec
          ((WriteArchive.create "/z/x.tar".toList Sample.coll).run JsonText.codec w.calls)
        ↔ ∀ p ∈ (Sample.tree Sample.object).archivable "/z/x.tar".toList Sample.coll,
          p.2.OneRow) :=
  indexed_once_iff JsonText.codec_lawful (Sample.server_reliable _)
    (Sample.shows_tree Sample.object) (by decide) "/z/x.tar".toList

/-- **A data object whose two replicas were written at different times** is not
listed once. -/
theorem two_replicas_twice :
    ¬ ∀ (Q : GenQuery) (J : Jansson) (coll : Text) (t : CollTree) (path : Text) (fuel : ℕ)
      (w : Walk), J.Lawful → Q.Reliable → t.Shows Q.toCatalog coll →
      Q.walk J fuel coll t.coll.id Walk.start = some w →
      t.IndexedOnce J ((WriteArchive.create path coll).run J w.calls) := by
  intro h
  have hs := Sample.shows_tree Sample.twoReplicas
  obtain ⟨w, hw⟩ := GenQuery.walk_total (Q := Sample.server (Sample.catalog Sample.twoReplicas))
    (J := JsonText.codec) hs (by decide : (Sample.tree Sample.twoReplicas).depth < 2) Walk.start
  have honce := h _ JsonText.codec Sample.coll _ "/z/x.tar".toList 2 w JsonText.codec_lawful
    (Sample.server_reliable _) hs hw
  rw [GenQuery.walk_calls hs hw ((Sample.server_reliable _).fine w)] at honce
  have hrow := (indexedOnce_calls_iff JsonText.codec_lawful hs _).mp honce
    ("a/f".toList, Sample.twoReplicas) (List.mem_filter.mpr ⟨List.mem_singleton.mpr rfl, rfl⟩)
  exact absurd hrow (by decide : ¬ Sample.twoReplicas.rows.length = 1)
