import IrodsMicroservices.ArchiveLayout
import IrodsMicroservices.ProducedArchive

/-!
# The round trip of an archive

An archive that has been created from a collection and is extracted into a target
lays the tree of the collection out below the target: its collections are
collections there, each of its data objects holds there what it held when the
archive was created, and nothing else is changed (`archive_round_trip`).

Creating and extracting have nothing in common but positions. The `n`-th index item
and the `n`-th entry after `INDEX.json` come from the same call of the walk
(`Produced.entries`); libarchive gives the entries back in their order and jansson
the index items in theirs, so the loop of the extraction finds each entry with the
item it was written for (`extractLoop_lay`).

What the code does not see is a path that does not fit its buffer: it is cut off, and
names something else. `long_target_loses_item` is a round trip into a collection
with so long a name that an item has been lost without an error.
-/

open Catalog

/-! ## Creating and extracting -/

/-- **The tree is laid out below the target**: its collections are there, its data
objects hold what is stored, the archive itself excepted, and nothing else has
changed but the target. -/
def LaidOut (archive coll target : Text) (t : CollTree) (stored : Text → Option Node)
    (before after : Session) : Prop :=
  (∀ p ∈ t.collections, after.nodes (Text.join target p.1) = some .coll)
    ∧ (∀ p ∈ t.archivable archive coll, ∃ data, stored (Text.join coll p.1) = some (.obj data)
        ∧ after.nodes (Text.join target p.1) = some (.obj data))
    ∧ ∀ q, q ≠ target → (∀ p ∈ t.collections, q ≠ Text.join target p.1) →
        (∀ p ∈ t.archivable archive coll, q ≠ Text.join target p.1) →
        after.nodes q = before.nodes q ∧ after.avus q = before.avus q

namespace CollTree

variable {K : Catalog} {J : Jansson} {archive coll : Text} {t : CollTree}

theorem mem_archived_of_collection (hs : t.Shows K coll) {p : Text × Collection}
    (hp : p ∈ t.collections) : p.2.call J p.1 ∈ t.archived K J archive coll := by
  refine List.mem_filter.mpr ⟨?_, rfl⟩
  refine (calls_perm (J := J) [] hs).mem_iff.mpr (List.mem_of_mem_filter (p := fun c => c.isColl) ?_)
  rw [filter_coll_enumerate]
  exact List.mem_map_of_mem hp

theorem mem_archived_of_archivable (hs : t.Shows K coll) {p : Text × DataObject}
    (hp : p ∈ t.archivable archive coll) :
    ∃ c ∈ t.archived K J archive coll, c.isColl = false ∧ c.name = p.1 := by
  obtain ⟨r, rows, hrows⟩ := List.exists_cons_of_ne_nil p.2.rows_ne_nil
  have hmem : _ ∈ rowCalls J p := List.mem_map_of_mem (hrows ▸ List.mem_cons_self)
  have hflat := (dataObj_calls_perm (J := J) archive hs).mem_iff.mpr
    (List.mem_flatMap.mpr ⟨p, hp, hmem⟩)
  obtain ⟨hcall, hkind⟩ := List.mem_filter.mp hflat
  rw [Bool.and_eq_true, Bool.not_eq_true', Bool.not_eq_true'] at hkind
  exact ⟨_, List.mem_filter.mpr ⟨hcall, congrArg not hkind.2⟩, hkind.1, rfl⟩

end CollTree

/-- **The items of the calls of a tree, laid out, are the tree.** -/
theorem laidOut_of_lay {K : Catalog} {J : Jansson} {archive coll target : Text} {t : CollTree}
    {stored : Text → Option Node} (hs : t.Shows K coll) (hrow : t.OneRowEach)
    (hdistinct : t.paths.Nodup) (hsized : t.Sized archive coll stored) {before after : Session}
    (hnodes : ∀ q, q ≠ target → after.nodes q
      = lay target ((t.archived K J archive coll).map (fun c => (c.name, c.node coll stored)))
          before.nodes q)
    (havus : ∀ q, (∀ c ∈ t.archived K J archive coll, q ≠ Text.join target c.name) →
      after.avus q = before.avus q) :
    LaidOut archive coll target t stored before after := by
  set calls := t.archived K J archive coll with hcalls
  have hne : ∀ name : Text, Text.join target name ≠ target := by
    intro name h
    have hlen := congrArg List.length h
    rw [Text.length_join] at hlen
    omega
  have hnodup : ((calls.map (fun c => (c.name, c.node coll stored))).map Prod.fst).Nodup := by
    rw [List.map_map]
    refine List.Nodup.sublist ?_ ((CollTree.names_calls_perm (J := J) hs hrow).nodup_iff.mpr hdistinct)
    exact (List.filter_sublist (l := t.calls K J)).map ArchiveCall.name
  -- the names are distinct, so that nothing that is laid out is laid over
  have hthere : ∀ c ∈ calls, after.nodes (Text.join target c.name) = some (c.node coll stored) := by
    intro c hc
    rw [hnodes _ (hne _)]
    exact lay_of_mem hnodup (List.mem_map_of_mem (f := fun c => (c.name, c.node coll stored)) hc) _
  refine ⟨fun p hp => ?_, fun p hp => ?_, fun q hq hcolls hobjs => ?_⟩
  · exact hthere _ (CollTree.mem_archived_of_collection hs hp)
  · obtain ⟨-, data, hdata, -⟩ := hsized p hp
    obtain ⟨c, hc, hkind, hname⟩ := CollTree.mem_archived_of_archivable (J := J) hs hp
    refine ⟨data, hdata, ?_⟩
    rw [← hname, hthere c hc, ArchiveCall.node, if_neg (by simp [hkind]), hname,
      WriteArchive.content, hdata]
  · have hother : ∀ c ∈ calls, q ≠ Text.join target c.name := by
      intro c hc
      rcases CollTree.mem_archived hs hc with ⟨-, p, hp, rfl⟩ | ⟨-, p, hp, hmem⟩
      · exact hcolls p hp
      · obtain ⟨r, -, rfl⟩ := List.mem_map.mp hmem
        exact hobjs p hp
    refine ⟨(hnodes q hq).trans (lay_of_not_mem (fun p hp => ?_) _), havus q hother⟩
    obtain ⟨c, hc, rfl⟩ := List.mem_map.mp hp
    exact hother c hc

/-- **The round trip.** Where a creation has returned 0 and its archive is stored whole,
an extraction of that archive that returns 0 has laid the tree out below its target. The
objects are laid out as they were when the creation started; what happens between the
two may be anything that leaves the archive object alone. -/
theorem archive_round_trip {L : Libarchive} {J : Jansson} {Q : GenQuery} {E E' : Irods}
    {rows : SpaceQuery} {fuel : ℕ} {archive coll target : Text}
    {createResource extractIn extractResource : MsParam} {t : CollTree} {s s' : Session}
    {r : Created} {r' : Extracted} {data : Bytes}
    (hL : L.ReadsBack) (hJ : J.Lawful) (hE' : E'.Honest)
    (hsource : Source Q J archive coll t s.nodes)
    (hfits : archive.length < Text.maxNameLen ∧ target.length < Text.maxNameLen
      ∧ ∀ name ∈ t.paths, (Text.join target name).length < Text.maxNameLen)
    (hapart : archive ≠ target ∧ (∀ p ∈ t.collections, archive ≠ Text.join target p.1)
      ∧ ∀ p ∈ t.archivable archive coll, archive ≠ Text.join target p.1)
    (hcreate : msiArchiveCreate L E J Q fuel (.ofText archive) (.ofText coll) createResource s
      = .ok r) (hcreated : r.status = .num 0) (hfine : Q.Fine r.walk)
    (hcomplete : ∀ w, r.writer = some w → w.Complete L r.session)
    (hkept : s'.nodes archive = r.session.nodes archive)
    (hdata : s'.nodes archive = some (.obj data))
    (hall : extractIn.parseMspForStr = none)
    (hextract : msiArchiveExtract J E' rows (L.entryAt data) (.ofText archive) (.ofText target)
      extractIn extractResource s' = .ok r') (hextracted : r'.status = .num 0) :
    LaidOut archive coll target t s.nodes s' r'.session
      ∧ r'.session.nodes archive = some (.obj data) := by
  obtain ⟨hfitsA, hfitsT, hfitsP⟩ := hfits
  obtain ⟨data', hdata', hproduced⟩ :=
    produced_of_create hsource hfitsA hcreate hcreated hfine hcomplete
  obtain rfl : data' = data :=
    Node.obj.inj (Option.some.inj (hdata'.symm.trans (hkept.symm.trans hdata)))
  obtain ⟨hs, -, -, hrow, hdistinct, -, hutf8, hsized⟩ := hsource
  set calls := t.archived Q.toCatalog J archive coll with hcalls
  -- the run of the extraction
  obtain ⟨_, _, b, s₁, loop, harchive, htarget, hopen, -, hloop, rfl⟩ :=
    msiArchiveExtract_spec hextract (by rw [hextracted]; rfl)
  obtain rfl := MsParam.eq_of_parseMspForStr harchive
  obtain rfl := MsParam.eq_of_parseMspForStr htarget
  rw [hall, Text.rstrcpy_of_fits hfitsT] at hloop
  obtain ⟨hopened, hopenedAvus, -⟩ := Session.objOpen_read_spec (openArchive_spec hopen).1
  obtain ⟨hitems, -⟩ := hproduced.opened hL hJ hopen
  have hnames : List.Forall₂ (fun item l => item.stringMember "name".toList = some l.1) b.items
      (calls.map (fun c => (c.name, WriteArchive.entryOf coll s.nodes (c.item J)))) := by
    rw [List.forall₂_map_right_iff]
    refine List.Forall₂.imp ?_ ((List.forall₂_and_left _ _).mpr
      ⟨fun c hc => hutf8 _ (CollTree.name_mem_paths hs hrow hc), hitems⟩).flip
    rintro item c ⟨hname, hmember, -⟩
    rw [hmember]
    exact ArchiveCall.item_nameText hname
  have hlay := extractLoop_lay hE' hnames
    (fun k l hl => by
      rw [List.getElem?_map] at hl
      obtain ⟨c, hc, rfl⟩ := Option.map_eq_some_iff.mp hl
      exact hproduced.header hL hJ hc)
    (fun l hl => by
      obtain ⟨c, hc, rfl⟩ := List.mem_map.mp hl
      exact hfitsP _ (CollTree.name_mem_paths hs hrow hc))
    hloop (by rw [show loop.status = .num 0 from hextracted]; rfl)
  have havus : (s₁.collCreate E' target false).2.avus = s'.avus :=
    (collCreate_spec hE' rfl).1.trans hopenedAvus
  obtain ⟨hclosed, hclosedAvus⟩ := Session.objClose_frame loop.session E' b.path
  have hlaid : LaidOut archive coll target t s.nodes s' (loop.session.objClose E' b.path).2 := by
    refine laidOut_of_lay (J := J) hs hrow hdistinct hsized (fun q hq => ?_) (fun q hq => ?_)
    · rw [hclosed, hlay.1, List.map_map]
      refine (lay_congr _ ((collCreate_frame hE' hq s₁).trans (congrFun hopened q))).trans ?_
      refine congrArg (fun items => lay target items s'.nodes q) ?_
      exact List.map_congr_left (fun c hc =>
        congrArg (Prod.mk c.name) (hproduced.entryNode_entryOf hJ hc))
    · rw [hclosedAvus, hlay.2 q (fun l hl => ?_), havus]
      obtain ⟨c, hc, rfl⟩ := List.mem_map.mp hl
      exact hq c hc
  refine ⟨hlaid, ?_⟩
  exact (hlaid.2.2 archive hapart.1 hapart.2.1 hapart.2.2).1.trans hdata

/-! ## Two round trips -/

namespace Sample

/-- **A created archive text opens**, and what is found in it is what was written. -/
theorem created_opens {Q : GenQuery} {fuel : ℕ} {archive coll : Text} {resourceIn : MsParam}
    {t : CollTree} {s : Session} {r : Created}
    (hsource : Source Q JsonText.codec archive coll t s.nodes)
    (hfits : archive.length < Text.maxNameLen)
    (hcreate : msiArchiveCreate ArchiveText.library .obliging JsonText.codec Q fuel
      (.ofText archive) (.ofText coll) resourceIn s = .ok r)
    (hcreated : r.status = .num 0) (hfine : Q.Fine r.walk) :
    ∃ data, r.session.nodes archive = some (.obj data)
      ∧ Produced ArchiveText.library JsonText.codec archive coll
        (t.calls Q.toCatalog JsonText.codec) s.nodes data
      ∧ ∀ {s' s₁ : Session}, s'.objOpen .obliging archive false none = (.ok (), s₁) →
        ∃ b : ReadArchive, openArchive JsonText.codec .obliging (ArchiveText.library.entryAt data)
            archive s' = .ok (some b, s₁)
          ∧ b.items = (t.archived Q.toCatalog JsonText.codec archive coll).map
              (ArchiveCall.item JsonText.codec)
          ∧ ∀ k p, ((t.archived Q.toCatalog JsonText.codec archive coll).map
              (fun c => WriteArchive.entryOf coll s.nodes (c.item JsonText.codec)))[k]? = some p →
            ArchiveText.library.entryAt data (1 + k)
              = .ok ⟨p.1.pathname, p.1.isDir, p.1.size, if p.2 = [] then [] else [p.2], false⟩ := by
  obtain ⟨data, hdata, hproduced⟩ := produced_of_create hsource hfits hcreate hcreated hfine
    (complete_of_willing Irods.obliging_willing hsource.id hsource.id_nonneg hcreate hcreated)
  refine ⟨data, hdata, hproduced, fun {s' s₁} hopen => ?_⟩
  obtain ⟨zip, calls, rfl, hentries, -⟩ := hproduced.entries JsonText.codec_lawful
  set a := (WriteArchive.create archive coll).run JsonText.codec
    (t.calls Q.toCatalog JsonText.codec) with ha
  have horigin : a.origin = coll ∧ a.list
      = (t.archived Q.toCatalog JsonText.codec archive coll).map
        (ArchiveCall.item JsonText.codec) := by
    rw [ha, WriteArchive.run_eq]
    exact ⟨rfl, rfl⟩
  obtain ⟨hindex, hcollection, hitems⟩ := WriteArchive.indexJson_spec
    (horigin.1.symm ▸ hsource.utf8_coll) (horigin.2.symm ▸ hproduced.valid_items)
  have hfirst : (Libarchive.entriesOf calls)[0]?
      = some (WriteArchive.indexHeader (JsonText.codec.text 2 (a.indexJson JsonText.codec)),
        JsonText.codec.text 2 (a.indexJson JsonText.codec)) := by
    rw [hentries]
    rfl
  have hheader := ArchiveText.entryAt_whole zip hfirst
  have hne : JsonText.codec.text 2 (a.indexJson JsonText.codec) ≠ [] := by
    intro h
    have hlen := JsonText.render_length_pos 2 0 (a.indexJson JsonText.codec)
    rw [show JsonText.render 2 0 (a.indexJson JsonText.codec) = [] from h] at hlen
    exact absurd hlen (by simp)
  refine ⟨_, openArchive_eq (by rwa [Text.rstrcpy_of_fits hfits]) hheader rfl rfl
    (by rw [if_neg hne]; exact List.append_nil _) (JsonText.codec_lawful.text_nul 2 _)
    (JsonText.codec_loads_text 2 hindex (WriteArchive.isContainer_indexJson _ _)) hcollection, ?_,
    fun k p hp => ?_⟩
  · unfold ReadArchive.items
    dsimp only
    rw [hitems, ← horigin.2]
    rfl
  · refine ArchiveText.entryAt_whole zip ?_
    rw [hentries, Nat.add_comm]
    exact hp

/-- The sample tree can be archived. -/
theorem source_tree : Source (server (catalog object)) JsonText.codec "/z/x.tar".toList coll
    (tree object) nodes where
  shows := shows_tree object
  id := rfl
  id_nonneg := by decide
  oneRow := .node (List.forall_mem_nil _) (List.forall_mem_singleton.mpr
    (.node (List.forall_mem_singleton.mpr rfl) (List.forall_mem_nil _)))
  distinct := by decide
  utf8_coll := by decide
  utf8 := by unfold CollTree.Utf8Names; decide
  sized := List.forall_mem_singleton.mpr ⟨by decide, "hello".toList, rfl, by decide⟩

/-- The places before an extraction: the archive, and a collection above the target. -/
def before (data : Bytes) : Session :=
  .fresh (fun p => if p = "/z/x.tar".toList then some (.obj data)
    else if p = "/z".toList then some .coll else none)

/-- The extraction of the archive of the sample tree returns 0. -/
theorem extract_tree {data : Bytes} {s₁ : Session}
    (hopen : (before data).objOpen .obliging "/z/x.tar".toList false none = (.ok (), s₁))
    {b : ReadArchive} (hb : openArchive JsonText.codec .obliging
      (ArchiveText.library.entryAt data) "/z/x.tar".toList (before data) = .ok (some b, s₁))
    (hitems : b.items = ((tree object).archived (catalog object) JsonText.codec
      "/z/x.tar".toList coll).map (ArchiveCall.item JsonText.codec))
    (hentries : ∀ k p, (((tree object).archived (catalog object) JsonText.codec
        "/z/x.tar".toList coll).map
          (fun c => WriteArchive.entryOf coll nodes (c.item JsonText.codec)))[k]? = some p →
      ArchiveText.library.entryAt data (1 + k)
        = .ok ⟨p.1.pathname, p.1.isDir, p.1.size, if p.2 = [] then [] else [p.2], false⟩) :
    ∃ r, msiArchiveExtract JsonText.codec .obliging (fun _ => .ok [])
        (ArchiveText.library.entryAt data) (.ofText "/z/x.tar".toList) (.ofText "/z/t".toList)
        noParam noParam (before data) = .ok r ∧ r.status = .num 0 := by
  have h₁ : ArchiveText.library.entryAt data 1 = .ok ⟨some "a".toList, true, 0, [], false⟩ :=
    hentries 0 _ rfl
  have h₂ : ArchiveText.library.entryAt data 2
      = .ok ⟨some "a/f".toList, false, 5, ["hello".toList], false⟩ := hentries 1 _ rfl
  obtain rfl := (Prod.mk.inj hopen).2
  have hlist : b.items
      = [((collection "a".toList 2 [object]).call JsonText.codec "a".toList).item JsonText.codec,
        (object.callWith "a/".toList (listOf (attrEntry JsonText.codec) object.attributes)
          (listOf (aclEntry JsonText.codec) object.acl)).item JsonText.codec] := hitems
  have hname : ((object.callWith "a/".toList (listOf (attrEntry JsonText.codec) object.attributes)
      (listOf (aclEntry JsonText.codec) object.acl)).item JsonText.codec).stringMember
        "name".toList = some "a/f".toList := rfl
  -- the loop, on the two items
  obtain ⟨loop, hloop, hstatus⟩ : ∃ loop, extractLoop .obliging (ArchiveText.library.entryAt data)
      none none "/z/t".toList 0 b.items 1 (.num 0)
      (((before data).record (.objOpen "/z/x.tar".toList false none) true).collCreate .obliging
        "/z/t".toList false).2 = .ok loop ∧ loop.status = .num 0 := by
    rw [hlist, extractLoop_cons h₁ rfl]
    simp only [extractLoop_cons h₂ hname]
    exact ⟨_, rfl, rfl⟩
  have hrun : msiArchiveExtract JsonText.codec .obliging (fun _ => .ok [])
      (ArchiveText.library.entryAt data) (.ofText "/z/x.tar".toList) (.ofText "/z/t".toList)
      noParam noParam (before data)
      = (extractLoop .obliging (ArchiveText.library.entryAt data) none none "/z/t".toList 0 b.items
          1 (.num 0) (((before data).record (.objOpen "/z/x.tar".toList false none) true).collCreate
            .obliging "/z/t".toList false).2).map
          (fun r => ⟨r.status, some r.status, r.extracted, (r.session.objClose .obliging b.path).2⟩) :=
    msiArchiveExtract_eq rfl rfl hb
  rw [hrun, hloop]
  exact ⟨_, rfl, hstatus⟩

/-- The items of the index of the tree: a collection, and a data object in it. -/
def treeItems : List Json :=
  [((collection "a".toList 2 [object]).call JsonText.codec "a".toList).item JsonText.codec,
    (object.callWith "a/".toList (listOf (attrEntry JsonText.codec) object.attributes)
      (listOf (aclEntry JsonText.codec) object.acl)).item JsonText.codec]

/-- The collection archived and extracted again, into another one. -/
theorem extracted_tree : ∃ (r : Created) (r' : Extracted) (data : Bytes) (b : ReadArchive)
    (s₁ : Session),
    msiArchiveCreate ArchiveText.library .obliging JsonText.codec (server (catalog object)) 6
        (.ofText "/z/x.tar".toList) (.ofText coll) noParam (.fresh nodes) = .ok r
      ∧ r.status = .num 0
      ∧ Produced ArchiveText.library JsonText.codec "/z/x.tar".toList coll
        ((tree object).calls (catalog object) JsonText.codec) nodes data
      ∧ openArchive JsonText.codec .obliging (ArchiveText.library.entryAt data)
        "/z/x.tar".toList (before data) = .ok (some b, s₁)
      ∧ b.items = treeItems
      ∧ msiArchiveExtract JsonText.codec .obliging (fun _ => .ok [])
        (ArchiveText.library.entryAt data) (.ofText "/z/x.tar".toList) (.ofText "/z/t".toList)
        noParam noParam (before data) = .ok r'
      ∧ r'.status = .num 0 ∧ r'.extracted = treeItems := by
  obtain ⟨r, hr, hstatus⟩ := create_succeeds
  obtain ⟨data, -, hproduced, hopens⟩ := created_opens source_tree (by decide) hr hstatus
    ((server_reliable _).fine r.walk)
  have hopen : (before data).objOpen .obliging "/z/x.tar".toList false none
      = (.ok (), (before data).record (.objOpen "/z/x.tar".toList false none) true) := rfl
  obtain ⟨b, hb, hitems, hentries⟩ := hopens hopen
  have h₁ : ArchiveText.library.entryAt data 1 = .ok ⟨some "a".toList, true, 0, [], false⟩ :=
    hentries 0 _ rfl
  have h₂ : ArchiveText.library.entryAt data 2
      = .ok ⟨some "a/f".toList, false, 5, ["hello".toList], false⟩ := hentries 1 _ rfl
  have hlist : b.items = treeItems := hitems
  obtain ⟨loop, hloop, hstatus', hall⟩ : ∃ loop,
      extractLoop .obliging (ArchiveText.library.entryAt data) none none "/z/t".toList 0 b.items 1
        (.num 0) (((before data).record (.objOpen "/z/x.tar".toList false none) true).collCreate
          .obliging "/z/t".toList false).2 = .ok loop
      ∧ loop.status = .num 0 ∧ loop.extracted = treeItems := by
    have hname : ((object.callWith "a/".toList
        (listOf (attrEntry JsonText.codec) object.attributes)
        (listOf (aclEntry JsonText.codec) object.acl)).item JsonText.codec).stringMember
          "name".toList = some "a/f".toList := rfl
    rw [hlist, treeItems, extractLoop_cons h₁ rfl]
    simp only [extractLoop_cons h₂ hname]
    exact ⟨_, rfl, rfl, rfl⟩
  have hrun : msiArchiveExtract JsonText.codec .obliging (fun _ => .ok [])
      (ArchiveText.library.entryAt data) (.ofText "/z/x.tar".toList) (.ofText "/z/t".toList)
      noParam noParam (before data)
      = (extractLoop .obliging (ArchiveText.library.entryAt data) none none "/z/t".toList 0 b.items
          1 (.num 0) (((before data).record (.objOpen "/z/x.tar".toList false none) true).collCreate
            .obliging "/z/t".toList false).2).map
          (fun r => ⟨r.status, some r.status, r.extracted, (r.session.objClose .obliging b.path).2⟩) :=
    msiArchiveExtract_eq rfl rfl hb
  rw [hloop] at hrun
  exact ⟨r, _, data, b, _, hr, hstatus, hproduced, hb, hlist, hrun, hstatus', hall⟩

end Sample

/-- The round trip of the sample tree. -/
theorem archive_round_trip_sample : ∃ (r : Created) (r' : Extracted) (data : Bytes),
    msiArchiveCreate ArchiveText.library .obliging JsonText.codec
        (Sample.server (Sample.catalog Sample.object)) 6 (.ofText "/z/x.tar".toList)
        (.ofText Sample.coll) Sample.noParam (.fresh Sample.nodes) = .ok r
      ∧ msiArchiveExtract JsonText.codec .obliging (fun _ => .ok [])
        (ArchiveText.library.entryAt data) (.ofText "/z/x.tar".toList) (.ofText "/z/t".toList)
        Sample.noParam Sample.noParam (Sample.before data) = .ok r'
      ∧ LaidOut "/z/x.tar".toList Sample.coll "/z/t".toList (Sample.tree Sample.object)
        Sample.nodes (Sample.before data) r'.session
      ∧ r'.session.nodes "/z/x.tar".toList = some (.obj data) := by
  obtain ⟨r, hr, hstatus⟩ := Sample.create_succeeds
  have hfine : (Sample.server (Sample.catalog Sample.object)).Fine r.walk :=
    (Sample.server_reliable _).fine r.walk
  obtain ⟨data, hdata, -, hopens⟩ := Sample.created_opens Sample.source_tree (by decide) hr hstatus hfine
  have hopen : (Sample.before data).objOpen .obliging "/z/x.tar".toList false none
      = (.ok (), (Sample.before data).record (.objOpen "/z/x.tar".toList false none) true) := rfl
  obtain ⟨b, hb, hitems, hentries⟩ := hopens hopen
  obtain ⟨r', hr', hstatus'⟩ := Sample.extract_tree hopen hb hitems hentries
  refine ⟨r, r', data, hr, hr', ?_⟩
  exact archive_round_trip (t := Sample.tree Sample.object) ArchiveText.library_readsBack
    JsonText.codec_lawful Irods.obliging_honest Sample.source_tree (by decide)
    (by decide) hr hstatus hfine
    (complete_of_willing Irods.obliging_willing rfl (by decide) hr hstatus)
    (hdata ▸ rfl) rfl rfl hr' hstatus'

namespace Sample

/-- A collection that holds an empty collection. -/
def emptyTree : CollTree :=
  .node (collection "c".toList 1 []) [.node (collection "a".toList 2 []) []]

/-- A catalog with the tree in it. -/
def emptyCatalog : Catalog := { catalog object with dataObjs := fun _ => [] }

theorem shows_emptyTree : emptyTree.Shows emptyCatalog coll := by
  refine .node rfl (List.Perm.refl _) (List.forall_mem_nil _) (List.forall_mem_nil _) rfl rfl
    (List.forall_mem_singleton.mpr ?_)
  have hne : Catalog.nameCond (Text.join coll "a".toList) ≠ Catalog.nameCond coll := by decide
  have hnone : emptyCatalog.subColls (Catalog.nameCond (Text.join coll "a".toList)) = [] := by
    unfold emptyCatalog catalog
    dsimp only
    rw [if_neg hne]
  exact .node hnone (List.Perm.refl _) (List.forall_mem_nil _) (List.forall_mem_nil _) rfl rfl
    (List.forall_mem_nil _)

theorem source_emptyTree : Source (server emptyCatalog) JsonText.codec "/z/x.tar".toList coll
    emptyTree nodes where
  shows := shows_emptyTree
  id := rfl
  id_nonneg := by decide
  oneRow := .node (List.forall_mem_nil _) (List.forall_mem_singleton.mpr
    (.node (List.forall_mem_nil _) (List.forall_mem_nil _)))
  distinct := by decide
  utf8_coll := by decide
  utf8 := by unfold CollTree.Utf8Names; decide
  sized := List.forall_mem_nil _

theorem create_emptyTree : ∃ r, msiArchiveCreate ArchiveText.library .obliging JsonText.codec
      (server emptyCatalog) 6 (.ofText "/z/x.tar".toList) (.ofText coll) noParam
      (.fresh nodes) = .ok r ∧ r.status = .num 0 :=
  create_of_willing JsonText.codec_lawful ArchiveText.library_accepting Irods.obliging_willing
    (server_reliable _) shows_emptyTree rfl (by decide)
    ⟨.node ⟨⟨by decide, by decide⟩, List.forall_mem_nil _⟩ (List.forall_mem_singleton.mpr
      (.node ⟨⟨by decide, by decide⟩, List.forall_mem_nil _⟩ (List.forall_mem_nil _))),
      List.forall_mem_nil _, List.forall_mem_singleton.mpr rfl⟩
    (by decide) (by decide) (by decide) (.inr ⟨rfl, rfl⟩) (List.forall_mem_nil _)

/-- A path of as many bytes as a buffer of `MAX_NAME_LEN` holds. -/
def longTarget : Text := "/z/".toList ++ List.replicate 1084 't'

theorem length_longTarget : longTarget.length = 1087 := by
  rw [longTarget, List.length_append, List.length_replicate]
  rfl

/-- The places before an extraction into a collection. -/
def beforeLong (target : Text) (data : Bytes) : Session :=
  .fresh (fun p => if p = target then some .coll
    else if p = "/z/x.tar".toList then some (.obj data) else none)

/-- An object that is there is opened. -/
theorem objOpen_there {path : Text} {data : Bytes} {s : Session}
    (h : s.nodes path = some (.obj data)) :
    s.objOpen .obliging path false none
      = (.ok (), s.record (.objOpen path false none) true) := by
  unfold Session.objOpen
  rw [h]
  rfl

section Long

variable {target : Text} (hlong : target.length = 1087)

include hlong

theorem ne_longTarget : "/z/x.tar".toList ≠ target := by
  intro h
  have hlen := congrArg List.length h
  rw [hlong] at hlen
  exact absurd hlen (by decide)

theorem beforeLong_archive (data : Bytes) :
    (beforeLong target data).nodes "/z/x.tar".toList = some (.obj data) := by
  unfold beforeLong Session.fresh
  dsimp only
  rw [if_neg (ne_longTarget hlong), if_pos rfl]

/-- The archive can be opened. -/
theorem objOpen_beforeLong (data : Bytes) :
    (beforeLong target data).objOpen .obliging "/z/x.tar".toList false none
      = (.ok (), (beforeLong target data).record (.objOpen "/z/x.tar".toList false none) true) :=
  objOpen_there (beforeLong_archive hlong data)

/-- Nothing stands below the target. -/
theorem beforeLong_join (data : Bytes) (name : Text) :
    (beforeLong target data).nodes (Text.join target name) = none := by
  unfold beforeLong Session.fresh
  dsimp only
  rw [if_neg, if_neg]
  · intro h
    have hlen := congrArg List.length h
    rw [Text.length_join, hlong, show "/z/x.tar".toList.length = 8 from rfl] at hlen
    omega
  · intro h
    have hlen := congrArg List.length h
    rw [Text.length_join] at hlen
    omega

end Long

/-- A collection that is there is not made again. -/
theorem collCreate_existing {path : Text} {s : Session} (h : s.nodes path = some .coll) :
    s.collCreate .obliging path false
      = (.error (.ofCode .catalogAlreadyHasItemByThatName),
        s.record (.collCreate path false) false) := by
  unfold Session.collCreate
  rw [h]
  rfl

/-- A directory is extracted over a collection that is there. -/
theorem extractItem_existing {e : ReadEntry} (he : e.isDir = true) {resource : Option Text}
    {file : Text} {s : Session} (h : s.nodes (Text.rstrcpy file) = some .coll) :
    extractItem .obliging resource e file s
      = (.ok (), s.record (.collCreate (Text.rstrcpy file) false) false) := by
  unfold extractItem
  rw [if_pos he, collCreate_existing h]
  dsimp only
  rw [if_pos (Failure.status_ofCode _)]

/-- So is the item of a collection that has no attributes. -/
theorem extractEntry_existing {e : ReadEntry} (he : e.isDir = true) {file : Text} {json : Json}
    {s : Session} (h : s.nodes (Text.rstrcpy file) = some .coll)
    (htype : json.stringMember "type".toList = some "coll".toList)
    (hattributes : json.objectGet "attributes".toList = none) :
    extractEntry .obliging none file e json s
      = .ok (.ok (), s.record (.collCreate (Text.rstrcpy file) false) false) := by
  unfold extractEntry
  rw [extractItem_existing he h]
  dsimp only
  unfold setMetadata
  dsimp only
  rw [htype, hattributes]
  rfl

/-- **The item is cut off**: its path does not fit, and what is left of it is the
target. The extraction returns 0. -/
theorem extract_cut {target : Text} (hlong : target.length = 1087) {headers : ℕ → HeaderResult}
    {b : ReadArchive} {s s₁ : Session} (hthere : s.nodes target = some .coll)
    (hopen : s.objOpen .obliging "/z/x.tar".toList false none = (.ok (), s₁))
    (hb : openArchive JsonText.codec .obliging headers "/z/x.tar".toList s = .ok (some b, s₁))
    {json : Json} (hitems : b.items = [json])
    (hname : json.stringMember "name".toList = some "a".toList)
    (htype : json.stringMember "type".toList = some "coll".toList)
    (hattributes : json.objectGet "attributes".toList = none)
    (hheader : headers 1 = .ok ⟨some "a".toList, true, 0, [], false⟩) :
    ∃ r, msiArchiveExtract JsonText.codec .obliging (fun _ => .ok []) headers
        (.ofText "/z/x.tar".toList) (.ofText target) noParam noParam s = .ok r
      ∧ r.status = .num 0 ∧ r.session.nodes = s.nodes := by
  have hnull : target ≠ "null".toList := by
    intro h
    have hlen := congrArg List.length h
    rw [hlong] at hlen
    exact absurd hlen (by decide)
  have hcut : Text.rstrcpy (Text.join target "a".toList) = target :=
    List.take_left' hlong
  have hwhole : Text.rstrcpy target = target :=
    Text.rstrcpy_of_fits (by rw [hlong]; decide)
  have hopened : s₁.nodes = s.nodes := (Session.objOpen_read_spec hopen).1
  have hs₁ : s₁.nodes target = some .coll := by rw [hopened, hthere]
  have hrun : msiArchiveExtract JsonText.codec .obliging (fun _ => .ok []) headers
      (.ofText "/z/x.tar".toList) (.ofText target) noParam noParam s
      = (extractLoop .obliging headers none none target 0 b.items 1 (.num 0)
          (s₁.collCreate .obliging (Text.rstrcpy target) false).2).map
          (fun r => ⟨r.status, some r.status, r.extracted, (r.session.objClose .obliging b.path).2⟩) :=
    msiArchiveExtract_eq rfl (MsParam.parseMspForStr_ofText hnull) hb
  have hentry : extractEntry .obliging none (Text.join target "a".toList)
      ⟨some "a".toList, true, 0, [], false⟩ json
      (s₁.record (.collCreate target false) false) = _ :=
    extractEntry_existing rfl (by rw [hcut]; exact hs₁) htype hattributes
  rw [hrun, hwhole, collCreate_existing hs₁, hitems, extractLoop_cons hheader hname]
  dsimp only
  rw [hentry]
  exact ⟨_, rfl, rfl, (Session.objClose_frame _ _ _).1.trans hopened⟩

end Sample

/-- **A target so long that the path of an item does not fit**: the round trip returns 0,
and the one collection of the tree is not there. -/
theorem long_target_loses_item :
    ¬ ∀ (L : Libarchive) (J : Jansson) (Q : GenQuery) (E E' : Irods) (rows : SpaceQuery) (fuel : ℕ)
      (archive coll target : Text) (createResource extractIn extractResource : MsParam)
      (t : CollTree) (s s' : Session) (r : Created) (r' : Extracted) (data : Bytes),
      L.ReadsBack → J.Lawful → E'.Honest → Source Q J archive coll t s.nodes →
      archive ≠ target ∧ (∀ p ∈ t.collections, archive ≠ Text.join target p.1)
        ∧ (∀ p ∈ t.archivable archive coll, archive ≠ Text.join target p.1) →
      msiArchiveCreate L E J Q fuel (.ofText archive) (.ofText coll) createResource s = .ok r →
      r.status = .num 0 → Q.Fine r.walk →
      (∀ w, r.writer = some w → w.Complete L r.session) →
      s'.nodes archive = r.session.nodes archive → s'.nodes archive = some (.obj data) →
      extractIn.parseMspForStr = none →
      msiArchiveExtract J E' rows (L.entryAt data) (.ofText archive) (.ofText target)
        extractIn extractResource s' = .ok r' → r'.status = .num 0 →
      LaidOut archive coll target t s.nodes s' r'.session := by
  intro h
  obtain ⟨r, hr, hstatus⟩ := Sample.create_emptyTree
  have hfine : (Sample.server Sample.emptyCatalog).Fine r.walk :=
    (Sample.server_reliable _).fine r.walk
  obtain ⟨data, hdata, -, hopens⟩ :=
    Sample.created_opens Sample.source_emptyTree (by decide) hr hstatus hfine
  obtain ⟨target, hlong⟩ : ∃ target : Text, target.length = 1087 :=
    ⟨Sample.longTarget, Sample.length_longTarget⟩
  obtain ⟨b, hb, hitems, hentries⟩ := hopens (Sample.objOpen_beforeLong hlong data)
  obtain ⟨r', hr', hstatus', hnodes⟩ := Sample.extract_cut hlong (if_pos rfl)
    (Sample.objOpen_beforeLong hlong data) hb hitems rfl rfl rfl (hentries 0 _ rfl)
  have hbefore := Sample.beforeLong_archive hlong data
  have hjoin : ∀ name : Text, "/z/x.tar".toList ≠ Text.join target name := by
    intro name h
    have hnone := Sample.beforeLong_join hlong data name
    rw [← h, hbefore] at hnone
    exact nomatch hnone
  obtain ⟨hcolls, -⟩ := h ArchiveText.library JsonText.codec _ _ .obliging _ 6 _ _ target
    _ _ _ Sample.emptyTree _ _ r r' data ArchiveText.library_readsBack JsonText.codec_lawful
    Irods.obliging_honest Sample.source_emptyTree
    ⟨Sample.ne_longTarget hlong, fun _ _ => hjoin _, fun _ _ => hjoin _⟩ hr hstatus hfine
    (complete_of_willing Irods.obliging_willing rfl (by decide) hr hstatus)
    (hbefore.trans hdata.symm) hbefore rfl hr' hstatus'
  have hbad := hcolls ("a".toList, Sample.collection "a".toList 2 [])
    (List.mem_singleton.mpr rfl)
  rw [hnodes, Sample.beforeLong_join hlong] at hbad
  exact nomatch hbad
