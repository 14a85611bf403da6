import IrodsMicroservices.ArchiveConstruct
import IrodsMicroservices.ReplicaRows

/-!
# Creating an archive

`msiArchiveCreate` looks the collection up, opens the archive, walks the
collection, constructs the archive and frees it. The walk has no status: a
query that fails ends its loop as if there were no more rows, and the archive is
constructed from what has been seen.

`create_lists_all` is what is left of completeness: where no query of the walk
has failed, an archive whose creation returns 0 lists every collection and every
data object below the collection, with all their attributes and access control
entries. A failure of the query for the collection itself is returned.
`failed_query_returns_zero` is a run in which the first query of the walk fails
and the creation returns 0 all the same.
-/

open Catalog

/-- The name asks for a zip archive. -/
def isZip (path : Text) : Bool :=
  decide (4 ≤ path.length) && path.drop (path.length - 4) == ".zip".toList

/-- `Archive::create`: none where the archive object cannot be opened. -/
def createArchive (E : Irods) (path collection : Text) (resource : Option Text)
    (s : Session) : Option (WriteArchive × ArchiveWriter) × Session :=
  match creat E path resource s with
  | (.ok (), s) =>
    (some (.create path collection, .start (Text.rstrcpy path) (isZip path)), s)
  | (.error _, s) => (none, s)

/-- The archive object is there, and empty, and nothing else has changed. -/
theorem createArchive_nodes {E : Irods} {path collection : Text} {resource : Option Text}
    {s s' : Session} {p : WriteArchive × ArchiveWriter}
    (h : createArchive E path collection resource s = (some p, s')) :
    s'.nodes = Function.update s.nodes (Text.rstrcpy path) (some (.obj [])) := by
  unfold createArchive at h
  split at h
  · rename_i t hcreat
    obtain ⟨-, rfl⟩ := Prod.mk.inj h
    exact ((creat_spec hcreat).2.2 rfl).2
  · exact absurd (Prod.mk.inj h).1 (by simp)

/-- What a creation leaves. -/
structure Created where
  status : Status
  /-- What has been stored in the status parameter. -/
  statusOut : Option Status
  walk : Walk
  /-- The writer, where the archive was opened. -/
  writer : Option ArchiveWriter
  session : Session

/-- **`msiArchiveCreate`.** -/
def msiArchiveCreate (L : Libarchive) (E : Irods) (J : Jansson) (Q : GenQuery) (fuel : ℕ)
    (archiveIn collectionIn resourceIn : MsParam) (s : Session) : Except Fault Created :=
  let refused : Except Fault Created :=
    .ok ⟨.named .sysInvalidInputParam, none, Walk.start, none, s⟩
  if !archiveIn.isStr then refused
  else if !collectionIn.isStr then refused
  else match archiveIn.parseMspForStr, collectionIn.parseMspForStr with
    | some archive, some collection =>
      let resource := if resourceIn.isStr then resourceIn.parseMspForStr else none
      let id := Q.collID collection Walk.start
      if id.1.isNeg then
        .ok ⟨id.1.ofLongLong, some id.1.ofLongLong, id.2, none, s⟩
      else match createArchive E archive collection resource s with
        | (none, s) => .ok ⟨.named .sysTarOpenErr, some (.named .sysTarOpenErr), id.2, none, s⟩
        | (some (a, w), s) =>
          match Q.walk J fuel collection (match id.1 with | .num n => n | .named _ => 0) id.2 with
          | none => .error .outOfFuel
          | some walk =>
            match (a.run J walk.calls).construct L E J fuel w s with
            | .error e => .error e
            | .ok c =>
              -- deleting the archive frees a writer that has not been freed
              let s := if c.freed then c.session else (c.writer.free L E c.session).2
              .ok ⟨c.status, some c.status, walk, some c.writer, s⟩
    | _, _ => refused

/-! ## What the index lists -/

/-- An index item for something of this name and type, with all its attributes and
access control entries. -/
def ListsItem (item : Json) (name type : Text) (attributes : List Avu) (acl : List AclRow) :
    Prop :=
  item.stringMember "name".toList = some name ∧ item.stringMember "type".toList = some type
    ∧ item.objectGet "attributes".toList = fullAttributes attributes
    ∧ item.objectGet "ACL".toList = fullAcl acl

namespace CollTree

/-- The collections below the root of a tree, with their relative paths. -/
def collections : CollTree → List (Text × Collection) :=
  enumerate (fun _ _ => []) (fun name c => [(name, c)]) []

/-- **Every collection and every data object of the tree is listed**, the archive
itself excepted, with all its attributes and access control entries. -/
def ListedIn (path coll : Text) (items : List Json) (t : CollTree) : Prop :=
  (∀ p ∈ t.archivable path coll, ∃ item ∈ items,
      ListsItem item p.1 "dataObj".toList p.2.attributes p.2.acl)
    ∧ ∀ p ∈ t.collections, ∃ item ∈ items,
      ListsItem item p.1 "coll".toList p.2.attributes p.2.acl

/-- All texts of the tree are valid UTF-8, and the access control entries fit
their buffer. -/
def Writable (J : Jansson) (t : CollTree) : Prop :=
  t.Encodable J ∧ (∀ p ∈ t.objects, J.utf8 p.1 = true) ∧ ∀ p ∈ t.collections, J.utf8 p.1 = true

end CollTree

namespace CollTree

/-- The calls for the collections are those of the collections. -/
theorem filter_coll_enumerate (J : Jansson) (t : CollTree) :
    (t.enumerate (DataObject.calls J) (fun name c => [c.call J name]) []).filter
        (fun c => c.isColl)
      = t.collections.map (fun p => p.2.call J p.1) := by
  rw [filter_eq_flatMap, enumerate_flatMap, collections, List.map_eq_flatMap, enumerate_flatMap]
  refine enumerate_congr (fun c _ pre o _ => ?_) (fun _ _ _ => rfl)
    (All.of_forall (P := fun _ => True) (fun _ => trivial) t) []
  rw [← filter_eq_flatMap, List.flatMap_nil, List.filter_eq_nil_iff]
  intro a ha
  obtain ⟨r, -, rfl⟩ := List.mem_map.mp ha
  exact Bool.false_ne_true

/-- The item of a call that is not for the archive itself is in the index. -/
theorem item_mem_list {K : Catalog} {J : Jansson} {t : CollTree} {path coll : Text}
    {c : ArchiveCall} (hc : c ∈ t.calls K J) (hself : c.isSelf path coll = false) :
    c.item J ∈ ((WriteArchive.create path coll).run J (t.calls K J)).list := by
  rw [WriteArchive.run_eq]
  refine List.mem_append_right _ (List.mem_map_of_mem ?_)
  exact List.mem_filter.mpr ⟨hc, congrArg not hself⟩

/-- **The calls of a tree list everything**, where its texts can be written. -/
theorem calls_listedIn {K : Catalog} {J : Jansson} (hJ : J.Lawful) {coll : Text}
    {t : CollTree} (hs : t.Shows K coll) (hwr : t.Writable J) (path : Text) :
    t.ListedIn path coll ((WriteArchive.create path coll).run J (t.calls K J)).list := by
  obtain ⟨henc, hobjects, hcollections⟩ := hwr
  have hperm := calls_perm (J := J) [] hs
  constructor
  · intro p hp
    have hpt : p ∈ t.objects := (List.mem_filter.mp hp).1
    have hlists : ListsEncodable J p.2.attributes p.2.acl :=
      enumerate_forall (R := fun p => ListsEncodable J p.2.attributes p.2.acl)
        (fun c hc pre o ho b hb => by
          rw [List.mem_singleton.mp hb]
          exact hc.2 o ho)
        (fun _ _ _ _ hb => absurd hb List.not_mem_nil) henc [] p hpt
    obtain ⟨r, rows, hrows⟩ := List.exists_cons_of_ne_nil p.2.rows_ne_nil
    have hmem : _ ∈ rowCalls J p := List.mem_map_of_mem (hrows ▸ List.mem_cons_self)
    have hflat := (dataObj_calls_perm (J := J) path hs).mem_iff.mpr
      (List.mem_flatMap.mpr ⟨p, hp, hmem⟩)
    obtain ⟨hcall, hkind⟩ := List.mem_filter.mp hflat
    rw [Bool.and_eq_true, Bool.not_eq_true', Bool.not_eq_true'] at hkind
    refine ⟨_, item_mem_list hcall hkind.2, ?_, ?_, ?_, ?_⟩
    · rw [Json.stringMember, ArchiveCall.item_name]
      show (J.string p.1).bind _ = _
      rw [Jansson.string_of_utf8 (hobjects p hpt)]
      rfl
    · exact ArchiveCall.item_typeText hJ _
    · exact (ArchiveCall.item_lists J _).1.trans (listOf_attrEntry hlists)
    · exact (ArchiveCall.item_lists J _).2.trans (listOf_aclEntry hlists)
  · intro p hp
    have hlists : ListsEncodable J p.2.attributes p.2.acl :=
      enumerate_forall (R := fun p => ListsEncodable J p.2.attributes p.2.acl)
        (fun _ _ _ _ _ _ hb => absurd hb List.not_mem_nil)
        (fun c hc name b hb => by
          rw [List.mem_singleton.mp hb]
          exact hc.1)
        henc [] p hp
    have hcall : p.2.call J p.1 ∈ t.calls K J := by
      refine hperm.mem_iff.mpr (List.mem_of_mem_filter (p := fun c => c.isColl) ?_)
      rw [filter_coll_enumerate]
      exact List.mem_map_of_mem hp
    refine ⟨_, item_mem_list hcall rfl, ?_, ?_, ?_, ?_⟩
    · rw [Json.stringMember, ArchiveCall.item_name]
      show (J.string p.1).bind _ = _
      rw [Jansson.string_of_utf8 (hcollections p hp)]
      rfl
    · exact ArchiveCall.item_typeText hJ _
    · exact (ArchiveCall.item_lists J _).1.trans (listOf_attrEntry hlists)
    · exact (ArchiveCall.item_lists J _).2.trans (listOf_aclEntry hlists)

end CollTree

namespace CollTree

/-- A call of a tree is for one of its collections or data objects. -/
theorem name_of_mem_calls {K : Catalog} {J : Jansson} {t : CollTree} {coll : Text}
    (hs : t.Shows K coll) {c : ArchiveCall} (hc : c ∈ t.calls K J) :
    (c.isColl = true ∧ ∃ p ∈ t.collections, c = p.2.call J p.1)
      ∨ (c.isColl = false ∧ ∃ p ∈ t.objects, c ∈ rowCalls J p) := by
  have hc' := (calls_perm (J := J) [] hs).mem_iff.mp hc
  cases hkind : c.isColl with
  | true =>
    have hfilter := List.mem_filter.mpr ⟨hc', hkind⟩
    rw [filter_coll_enumerate] at hfilter
    obtain ⟨p, hp, rfl⟩ := List.mem_map.mp hfilter
    exact .inl ⟨rfl, p, hp, rfl⟩
  | false =>
    have hfilter : c ∈ List.filter (fun c => !c.isColl) _ :=
      List.mem_filter.mpr ⟨hc', by rw [hkind]; rfl⟩
    rw [filter_enumerate] at hfilter
    obtain ⟨p, hp, hmem⟩ := List.mem_flatMap.mp hfilter
    exact .inr ⟨rfl, p, hp, hmem⟩

/-- The data objects of a tree at `coll` are there, under paths that fit, and are no
longer than some bound. -/
def Stored (coll : Text) (bound : ℕ) (nodes : Text → Option Node) (t : CollTree) : Prop :=
  ∀ p ∈ t.objects, (Text.join coll p.1).length < Text.maxNameLen
    ∧ ∃ data, nodes (Text.join coll p.1) = some (.obj data) ∧ data.length < bound

/-- The items of a tree can be written. -/
theorem ready_of_stored {K : Catalog} {J : Jansson} (hJ : J.Lawful) {coll path : Text}
    {t : CollTree} (hs : t.Shows K coll) (hwr : t.Writable J) {fuel : ℕ}
    {nodes : Text → Option Node} (hst : t.Stored coll fuel nodes) :
    ∀ item ∈ ((WriteArchive.create path coll).run J (t.calls K J)).list,
      WriteArchive.Ready coll path fuel nodes item := by
  intro item hitem
  rw [WriteArchive.run_eq] at hitem
  obtain ⟨c, hc, rfl⟩ := List.mem_map.mp (show item ∈ List.map _ _ from hitem)
  obtain ⟨hc, hself⟩ := List.mem_filter.mp hc
  have hname : ∀ name, c.name = name → J.utf8 name = true →
      (c.item J).stringMember "name".toList = some name := by
    rintro _ rfl hutf8
    rw [Json.stringMember, ArchiveCall.item_name, Jansson.string_of_utf8 hutf8]
    rfl
  rcases name_of_mem_calls hs hc with ⟨-, p, hp, rfl⟩ | ⟨-, p, hp, hmem⟩
  · exact ⟨p.1, _, hname p.1 rfl (hwr.2.2 p hp), ArchiveCall.item_typeText hJ _, .inl rfl⟩
  · obtain ⟨r, -, rfl⟩ := List.mem_map.mp hmem
    obtain ⟨hfits, data, hdata, hlen⟩ := hst p hp
    refine ⟨p.1, _, hname p.1 rfl (hwr.2.1 p hp), ArchiveCall.item_typeText hJ _, .inr ?_⟩
    rw [Text.rstrcpy_of_fits hfits]
    refine ⟨fun heq => ?_, data, hdata, hlen⟩
    refine absurd hself ?_
    rw [ArchiveCall.isSelf]
    simp [ArchiveCall.isColl, ArchiveCall.name, WriteArchive.create, heq]

end CollTree

/-! ## A creation that returns 0 -/

theorem collID_num {Q : GenQuery} {coll : Text} {id : ℤ} {w : Walk}
    (hid : Q.collIds (nameCond coll) = [id]) (h : Q.outcome w.requests ≠ .fail) :
    (Q.collID coll w).1 = .num id := by
  unfold GenQuery.collID
  rw [hid]
  cases ho : Q.outcome w.requests with
  | fail => exact absurd ho h
  | page extra more => rfl

theorem collID_num_of_not_neg {Q : GenQuery} {coll : Text} {id : ℤ} {w : Walk}
    (hid : Q.collIds (nameCond coll) = [id]) (h : ¬ (Q.collID coll w).1.isNeg = true) :
    (Q.collID coll w).1 = .num id := by
  refine collID_num hid (fun hfail => h ?_)
  unfold GenQuery.collID
  rw [hfail]
  exact (Q.failure w.requests).neg

/-- What `collID` returns where it has not found the collection is not cut to 0. -/
theorem collID_ne_zero {Q : GenQuery} {coll : Text} {id : ℤ} {w : Walk}
    (hid : Q.collIds (nameCond coll) = [id]) (hpos : 0 ≤ id)
    (h : (Q.collID coll w).1.isNeg = true) : (Q.collID coll w).1.ofLongLong ≠ .num 0 := by
  unfold GenQuery.collID at h ⊢
  rw [hid] at h ⊢
  cases ho : Q.outcome w.requests with
  | fail =>
    intro hzero
    have hneg := (Q.failure w.requests).neg
    rw [← (Q.failure w.requests).int] at hneg
    rw [show (Q.failure w.requests).status.ofLongLong = .num 0 from hzero] at hneg
    cases hneg
  | page extra more =>
    rw [ho] at h
    exact absurd hpos (not_le.mpr (of_decide_eq_true h))

/-- The query of `collID` has not failed where it has found a collection. -/
theorem GenQuery.fine_of_since {Q : GenQuery} {coll : Text} {w : Walk}
    (h : ¬ (Q.collID coll Walk.start).1.isNeg = true)
    (hfine : Q.FineSince (Q.collID coll Walk.start).2 w) : Q.Fine w := by
  intro n hn
  cases n with
  | zero =>
    intro hfail
    refine h ?_
    unfold GenQuery.collID
    rw [show Q.outcome Walk.start.requests = .fail from hfail]
    exact (Q.failure 0).neg
  | succ n =>
    refine hfine (n + 1) ?_ hn
    rw [GenQuery.collID_requests]
    exact Nat.succ_le_succ (Nat.zero_le n)

/-- **What a creation that has opened its archive has done**, whatever requests have
failed. -/
theorem msiArchiveCreate_made {L : Libarchive} {E : Irods} {J : Jansson} {Q : GenQuery}
    {fuel : ℕ} {archive coll : Text} {resourceIn : MsParam} {s : Session} {r : Created}
    {id : ℤ} (hid : Q.collIds (nameCond coll) = [id])
    (h : msiArchiveCreate L E J Q fuel (.ofText archive) (.ofText coll) resourceIn s = .ok r)
    {w : ArchiveWriter} (hwriter : r.writer = some w) :
    ∃ (resource : Option Text) (s₁ : Session) (c : WriteArchive.Constructed),
      createArchive E archive coll resource s
        = (some (.create archive coll, .start (Text.rstrcpy archive) (isZip archive)), s₁)
      ∧ Q.walk J fuel coll id (Q.collID coll Walk.start).2 = some r.walk
      ∧ ((WriteArchive.create archive coll).run J r.walk.calls).construct L E J fuel
          (.start (Text.rstrcpy archive) (isZip archive)) s₁ = .ok c
      ∧ r.status = c.status ∧ w = c.writer
      ∧ r.session = if c.freed then c.session else (c.writer.free L E c.session).2 := by
  unfold msiArchiveCreate at h
  dsimp only at h
  rw [if_neg (by simp [MsParam.isStr, MsParam.ofText]),
    if_neg (by simp [MsParam.isStr, MsParam.ofText])] at h
  split at h
  · rename_i archive' coll' harchive hcoll
    obtain rfl := MsParam.eq_of_parseMspForStr harchive
    obtain rfl := MsParam.eq_of_parseMspForStr hcoll
    split at h
    · cases h
      cases hwriter
    · rename_i hneg
      split at h
      · cases h
        cases hwriter
      · rename_i a w' s₁ hopen
        obtain ⟨rfl, rfl⟩ : a = .create archive coll
            ∧ w' = .start (Text.rstrcpy archive) (isZip archive) := by
          unfold createArchive at hopen
          split at hopen
          · cases hopen
            exact ⟨rfl, rfl⟩
          · cases hopen
        split at h
        · cases h
        · rename_i walk hwalk
          split at h
          · cases h
          · rename_i c hconstruct
            cases h
            cases hwriter
            rw [collID_num_of_not_neg hid hneg] at hwalk
            exact ⟨_, s₁, c, hopen, hwalk, hconstruct, rfl, rfl, rfl⟩
  · cases h
    cases hwriter

/-- **A creation that returns 0 has opened its archive**: a failure of the query for the
collection is returned. -/
theorem found_of_zero {L : Libarchive} {E : Irods} {J : Jansson} {Q : GenQuery} {fuel : ℕ}
    {archive coll : Text} {resourceIn : MsParam} {s : Session} {r : Created} {id : ℤ}
    (hid : Q.collIds (nameCond coll) = [id]) (hpos : 0 ≤ id)
    (h : msiArchiveCreate L E J Q fuel (.ofText archive) (.ofText coll) resourceIn s = .ok r)
    (hstatus : r.status = .num 0) :
    (¬ (Q.collID coll Walk.start).1.isNeg = true) ∧ ∃ w, r.writer = some w := by
  unfold msiArchiveCreate at h
  dsimp only at h
  rw [if_neg (by simp [MsParam.isStr, MsParam.ofText]),
    if_neg (by simp [MsParam.isStr, MsParam.ofText])] at h
  split at h
  · rename_i archive' coll' harchive hcoll
    obtain rfl := MsParam.eq_of_parseMspForStr harchive
    obtain rfl := MsParam.eq_of_parseMspForStr hcoll
    split at h
    · rename_i hneg
      obtain rfl := Except.ok.inj h
      exact absurd hstatus (collID_ne_zero hid hpos hneg)
    · rename_i hneg
      refine ⟨hneg, ?_⟩
      split at h
      · obtain rfl := Except.ok.inj h
        exact absurd hstatus (by simp)
      · split at h
        · cases h
        · split at h
          · cases h
          · obtain rfl := Except.ok.inj h
            exact ⟨_, rfl⟩
  · obtain rfl := Except.ok.inj h
    exact absurd hstatus (by simp)

/-- **What a creation that returns 0 has done**. -/
theorem msiArchiveCreate_zero {L : Libarchive} {E : Irods} {J : Jansson} {Q : GenQuery}
    {fuel : ℕ} {archive coll : Text} {resourceIn : MsParam} {s : Session} {r : Created}
    {id : ℤ} (hid : Q.collIds (nameCond coll) = [id]) (hpos : 0 ≤ id)
    (h : msiArchiveCreate L E J Q fuel (.ofText archive) (.ofText coll) resourceIn s = .ok r)
    (hstatus : r.status = .num 0) :
    ∃ (resource : Option Text) (s₁ : Session) (c : WriteArchive.Constructed),
      createArchive E archive coll resource s
        = (some (.create archive coll, .start (Text.rstrcpy archive) (isZip archive)), s₁)
      ∧ Q.walk J fuel coll id (Q.collID coll Walk.start).2 = some r.walk
      ∧ ((WriteArchive.create archive coll).run J r.walk.calls).construct L E J fuel
          (.start (Text.rstrcpy archive) (isZip archive)) s₁ = .ok c
      ∧ c.status = .num 0 ∧ r.writer = some c.writer
      ∧ r.session = if c.freed then c.session else (c.writer.free L E c.session).2 := by
  obtain ⟨-, w, hwriter⟩ := found_of_zero hid hpos h hstatus
  obtain ⟨resource, s₁, c, hopen, hwalk, hconstruct, hzero, rfl, hsession⟩ :=
    msiArchiveCreate_made hid h hwriter
  exact ⟨resource, s₁, c, hopen, hwalk, hconstruct, hzero ▸ hstatus, hwriter, hsession⟩

/-- **The index that has been written is complete**: the first entry is
`INDEX.json`, with the document of the calls of the walk, and its items include
every collection and every data object of the tree, the archive excepted, with
all their attributes and access control entries. -/
def Created.IndexComplete (J : Jansson) (archive coll : Text) (t : CollTree) (r : Created) :
    Prop :=
  let a := (WriteArchive.create archive coll).run J r.walk.calls
  ∃ str w rest, r.writer = some w ∧ J.dumps 2 (a.indexJson J) = some str
    ∧ w.calls = .header (WriteArchive.indexHeader str) :: .data str :: rest
    ∧ t.ListedIn archive coll a.list

/-- **An archive whose creation returns 0 lists everything**, where no query of
the run has failed after that of `collID`. -/
theorem create_lists_all {L : Libarchive} {E : Irods} {J : Jansson} (hJ : J.Lawful)
    {Q : GenQuery} {fuel : ℕ} {archive coll : Text} {resourceIn : MsParam} {s : Session}
    {t : CollTree} (hs : t.Shows Q.toCatalog coll)
    (hid : Q.collIds (nameCond coll) = [t.coll.id]) (hpos : 0 ≤ t.coll.id)
    (hwr : t.Writable J) {r : Created}
    (h : msiArchiveCreate L E J Q fuel (.ofText archive) (.ofText coll) resourceIn s = .ok r)
    (hstatus : r.status = .num 0)
    (hsince : Q.FineSince (Q.collID coll Walk.start).2 r.walk) :
    r.IndexComplete J archive coll t := by
  have hfine : Q.Fine r.walk :=
    GenQuery.fine_of_since (found_of_zero hid hpos h hstatus).1 hsince
  obtain ⟨resource, s₁, c, hopen, hwalk, hconstruct, hzero, hwriter, -⟩ :=
    msiArchiveCreate_zero hid hpos h hstatus
  have hcalls : r.walk.calls = t.calls Q.toCatalog J := by
    rw [GenQuery.walk_calls hs hwalk hfine, GenQuery.collID_calls]
    rfl
  have hnew : s₁.nodes (Text.rstrcpy archive) = some (.obj []) := by
    rw [createArchive_nodes hopen]
    exact Function.update_self ..
  obtain ⟨_, hall, -, -⟩ := WriteArchive.construct_zero (.start hnew _) hconstruct hzero
  obtain ⟨str, rest, hstr, hwritten⟩ := WriteArchive.writeAll_calls hnew hall
  refine ⟨str, c.writer, rest, hwriter, hstr, hwritten, ?_⟩
  rw [hcalls]
  exact CollTree.calls_listedIn hJ hs hwr archive

/-- The run of a creation whose steps are known. -/
theorem msiArchiveCreate_eq {L : Libarchive} {E : Irods} {J : Jansson} {Q : GenQuery}
    {fuel : ℕ} {archive coll : Text} {resourceIn : MsParam} {s s₁ : Session} {id : ℤ}
    {a : WriteArchive} {w : ArchiveWriter} {walk : Walk} {c : WriteArchive.Constructed}
    (hnull : archive ≠ "null".toList ∧ coll ≠ "null".toList)
    (hid : (Q.collID coll Walk.start).1 = .num id) (hpos : 0 ≤ id)
    (hopen : createArchive E archive coll
      (if resourceIn.isStr then resourceIn.parseMspForStr else none) s = (some (a, w), s₁))
    (hwalk : Q.walk J fuel coll id (Q.collID coll Walk.start).2 = some walk)
    (hconstruct : (a.run J walk.calls).construct L E J fuel w s₁ = .ok c) :
    ∃ r, msiArchiveCreate L E J Q fuel (.ofText archive) (.ofText coll) resourceIn s = .ok r
      ∧ r.status = c.status ∧ r.walk = walk := by
  have hneg : ¬ (Status.num id).isNeg = true := by simp [Status.isNeg, hpos]
  unfold msiArchiveCreate
  dsimp only
  rw [if_neg (by simp [MsParam.isStr, MsParam.ofText]),
    if_neg (by simp [MsParam.isStr, MsParam.ofText]), MsParam.parseMspForStr_ofText hnull.1,
    MsParam.parseMspForStr_ofText hnull.2]
  dsimp only
  rw [hid, if_neg hneg, hopen]
  dsimp only
  rw [hwalk]
  dsimp only
  rw [hconstruct]
  exact ⟨_, rfl, rfl, rfl⟩

/-- **A creation succeeds where nothing is refused** and the data objects of the
tree are there. -/
theorem create_of_willing {L : Libarchive} {E : Irods} {J : Jansson} (hJ : J.Lawful)
    (hL : ArchiveWriter.Accepting L) (hE : E.Willing) {Q : GenQuery} (hQ : Q.Reliable)
    {fuel : ℕ} {archive coll : Text} {resourceIn : MsParam} {s : Session} {t : CollTree}
    (hs : t.Shows Q.toCatalog coll) (hid : Q.collIds (nameCond coll) = [t.coll.id])
    (hpos : 0 ≤ t.coll.id) (hwr : t.Writable J) (hfuel : t.depth < fuel)
    (hnull : archive ≠ "null".toList ∧ coll ≠ "null".toList)
    (hfits : archive.length < Text.maxNameLen)
    (hplace : (∃ data, s.nodes archive = some (.obj data))
      ∨ s.nodes archive = none ∧ s.nodes (Text.parent archive) = some .coll)
    (hst : t.Stored coll fuel (Function.update s.nodes archive (some (.obj [])))) :
    ∃ r, msiArchiveCreate L E J Q fuel (.ofText archive) (.ofText coll) resourceIn s = .ok r
      ∧ r.status = .num 0 := by
  have hpath := Text.rstrcpy_of_fits hfits
  obtain ⟨s₁, hcreat⟩ := creat_of_willing hE
    (if resourceIn.isStr then resourceIn.parseMspForStr else none) (hpath.symm ▸ hplace)
  have hnodes := ((creat_spec hcreat).2.2 rfl).2
  rw [hpath] at hnodes
  obtain ⟨w, hw⟩ := GenQuery.walk_total (J := J) hs hfuel (Q.collID coll Walk.start).2
  have hcalls : w.calls = t.calls Q.toCatalog J := by
    rw [GenQuery.walk_calls hs hw (hQ.fine w), GenQuery.collID_calls]
    rfl
  have hsound : (ArchiveWriter.start (Text.rstrcpy archive) (isZip archive)).Sound L s₁ :=
    .start (by rw [hpath, hnodes]; exact Function.update_self ..) _
  have hready : ∀ item ∈ ((WriteArchive.create archive coll).run J w.calls).list,
      WriteArchive.Ready ((WriteArchive.create archive coll).run J w.calls).origin
        (ArchiveWriter.start (Text.rstrcpy archive) (isZip archive)).path fuel s₁.nodes item := by
    have horigin : ((WriteArchive.create archive coll).run J w.calls).origin = coll := by
      rw [WriteArchive.run_eq]
      rfl
    rw [horigin, hcalls, hnodes]
    show ∀ item ∈ _, WriteArchive.Ready coll (Text.rstrcpy archive) fuel _ item
    rw [hpath]
    exact CollTree.ready_of_stored hJ hs hwr hst
  obtain ⟨c, hc, hstatus⟩ := WriteArchive.construct_of_willing (J := J) hE hL hsound hready
  have hopen : createArchive E archive coll
      (if resourceIn.isStr then resourceIn.parseMspForStr else none) s
      = (some (.create archive coll, .start (Text.rstrcpy archive) (isZip archive)), s₁) := by
    unfold createArchive
    rw [hcreat]
  obtain ⟨r, hr, hrs, -⟩ := msiArchiveCreate_eq hnull (collID_num hid (hQ _)) hpos hopen hw hc
  exact ⟨r, hr, hrs.trans hstatus⟩

namespace Sample

/-- The namespace of the sample tree. -/
def nodes : Text → Option Node := fun p =>
  if p = "/z/c/a/f".toList then some (.obj "hello".toList)
  else if p = "/z".toList ∨ p = "/z/c".toList ∨ p = "/z/c/a".toList then some .coll
  else none

theorem writable_tree : (tree object).Writable JsonText.codec :=
  ⟨.node ⟨⟨by decide, by decide⟩, by simp [collection]⟩
    (List.forall_mem_singleton.mpr (.node ⟨⟨by decide, by decide⟩,
      List.forall_mem_singleton.mpr ⟨by decide, by decide⟩⟩ (List.forall_mem_nil _))),
    List.forall_mem_singleton.mpr rfl, List.forall_mem_singleton.mpr rfl⟩

/-- A parameter that is not given. -/
def noParam : MsParam := ⟨none, none⟩

/-- The creation of an archive of the sample tree succeeds. -/
theorem create_succeeds : ∃ r, msiArchiveCreate ArchiveText.library .obliging JsonText.codec
      (server (catalog object)) 6 (.ofText "/z/x.tar".toList) (.ofText coll) noParam
      (.fresh nodes) = .ok r ∧ r.status = .num 0 :=
  create_of_willing JsonText.codec_lawful ArchiveText.library_accepting Irods.obliging_willing
    (server_reliable _) (shows_tree object) rfl (by decide) writable_tree (by decide)
    (by decide) (by decide) (.inr ⟨rfl, rfl⟩)
    (List.forall_mem_singleton.mpr ⟨by decide, "hello".toList, rfl, by decide⟩)

/-- A server that fails one request. -/
def failing (K : Catalog) (n : ℕ) : GenQuery :=
  { server K with outcome := fun m => if m = n then .fail else .page 511 false }

end Sample

/-- The creation of an archive of the sample tree. -/
theorem create_lists_all_sample : ∃ r, msiArchiveCreate ArchiveText.library .obliging
      JsonText.codec (Sample.server (Sample.catalog Sample.object)) 6
      (.ofText "/z/x.tar".toList) (.ofText Sample.coll) Sample.noParam (.fresh Sample.nodes)
      = .ok r
    ∧ r.IndexComplete JsonText.codec "/z/x.tar".toList Sample.coll (Sample.tree Sample.object) := by
  obtain ⟨r, hr, hstatus⟩ := Sample.create_succeeds
  exact ⟨r, hr, create_lists_all JsonText.codec_lawful (Sample.shows_tree Sample.object) rfl
    (by decide) Sample.writable_tree hr hstatus
    (fun n _ hn => (Sample.server_reliable _).fine r.walk n hn)⟩

/-- **The first query of the walk fails**, and the creation returns 0 with an
index that lists nothing. -/
theorem failed_query_returns_zero :
    ¬ ∀ (L : Libarchive) (E : Irods) (J : Jansson) (Q : GenQuery) (fuel : ℕ)
      (archive coll : Text) (resourceIn : MsParam) (s : Session) (t : CollTree) (r : Created),
      J.Lawful → t.Shows Q.toCatalog coll → Q.collIds (nameCond coll) = [t.coll.id] →
      t.Writable J →
      msiArchiveCreate L E J Q fuel (.ofText archive) (.ofText coll) resourceIn s = .ok r →
      r.status = .num 0 → r.IndexComplete J archive coll t := by
  intro h
  set Q := Sample.failing (Sample.catalog Sample.object) 1
  obtain ⟨walk, hwalk, hcalls⟩ : ∃ walk, Q.walk JsonText.codec 6 Sample.coll 1
      (Q.collID Sample.coll Walk.start).2 = some walk ∧ walk.calls = [] := ⟨_, rfl, rfl⟩
  obtain ⟨s₁, hcreat⟩ : ∃ s₁, creat .obliging "/z/x.tar".toList none (.fresh Sample.nodes)
      = (.ok (), s₁) := creat_of_willing Irods.obliging_willing none (.inr ⟨rfl, rfl⟩)
  have hopen : createArchive .obliging "/z/x.tar".toList Sample.coll none (.fresh Sample.nodes)
      = (some (.create "/z/x.tar".toList Sample.coll, .start "/z/x.tar".toList false), s₁) := by
    unfold createArchive
    rw [hcreat]
    rfl
  set a := WriteArchive.create "/z/x.tar".toList Sample.coll with ha
  obtain ⟨str, -, hall⟩ := WriteArchive.writeAll_nil .obliging (a.run JsonText.codec walk.calls)
    (by rw [hcalls]; rfl) 6 "/z/x.tar".toList false s₁
  obtain ⟨c, hconstruct, hzero⟩ : ∃ c, (a.run JsonText.codec walk.calls).construct
      ArchiveText.library .obliging JsonText.codec 6 (.start "/z/x.tar".toList false) s₁ = .ok c
      ∧ c.status = .num 0 := by
    unfold WriteArchive.construct
    rw [hall]
    exact ⟨_, rfl, rfl⟩
  obtain ⟨r, hr, hstatus, hrw⟩ : ∃ r, msiArchiveCreate ArchiveText.library .obliging
      JsonText.codec Q 6 (.ofText "/z/x.tar".toList) (.ofText Sample.coll) Sample.noParam
      (.fresh Sample.nodes) = .ok r ∧ r.status = c.status ∧ r.walk = walk :=
    msiArchiveCreate_eq (by decide) rfl (by decide) hopen hwalk hconstruct
  have hcomplete := h ArchiveText.library .obliging JsonText.codec Q 6 _ Sample.coll _ _ _ r
    JsonText.codec_lawful (Sample.shows_tree Sample.object) rfl Sample.writable_tree hr
    (hstatus.trans hzero)
  obtain ⟨_, _, _, -, -, -, hlisted⟩ := hcomplete
  rw [hrw, hcalls] at hlisted
  obtain ⟨item, hitem, -⟩ := hlisted.2 ("a".toList, Sample.collection "a".toList 2 [Sample.object])
    (List.mem_singleton.mpr rfl)
  exact absurd hitem List.not_mem_nil
