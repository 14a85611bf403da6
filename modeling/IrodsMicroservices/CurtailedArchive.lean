import IrodsMicroservices.ArchiveStore
import IrodsMicroservices.CurtailedWalk

/-!
# Archives of a part of a tree

Where requests fail while an archive is made, what has been seen is a part of the tree
(`Curtailed`), and an archive whose creation returns 0 is the archive of this part. An
extraction of it that returns no error lays the part out, each data object with all of its
bytes, and changes nothing else (`curtailed_round_trip`).
-/

open Catalog

/-! ## Calls with their lists cut off -/

theorem CutList.valid {v w : Option Json} (h : CutList v w) (hw : ∀ x, w = some x → x.Valid) :
    ∀ x, v = some x → x.Valid := by
  intro x hx
  cases h with
  | nothing => cases hx
  | array h =>
    cases hx
    exact .array (fun e he => (hw _ rfl).elems e (h.subset he))

namespace ArchiveCall.CutFrom

variable {c c' : ArchiveCall}

theorem sized (h : c.CutFrom c') {coll : Text} {nodes : Text → Option Node}
    (hc' : c'.Sized coll nodes) : c.Sized coll nodes := by
  cases h with
  | addColl => exact trivial
  | addDataObj => exact hc'

theorem listsValid (h : c.CutFrom c') (hc' : c'.ListsValid) : c.ListsValid := by
  cases h with
  | addColl hattributes hacl => exact ⟨hattributes.valid hc'.1, hacl.valid hc'.2⟩
  | addDataObj hattributes hacl => exact ⟨hattributes.valid hc'.1, hacl.valid hc'.2⟩

end ArchiveCall.CutFrom

/-! ## The archive of a part -/

/-- The order of calls is that of their parts. -/
theorem pairwise_cut {cs calls : List ArchiveCall}
    (h : List.SublistForall₂ ArchiveCall.CutFrom cs calls)
    (hcalls : calls.Pairwise (fun a b => ¬ a.LocatedIn b)) :
    cs.Pairwise (fun a b => ¬ a.LocatedIn b) := by
  induction h with
  | nil => exact List.Pairwise.nil
  | cons hcut hrest ih =>
    obtain ⟨hfirst, hcalls⟩ := List.pairwise_cons.mp hcalls
    refine List.pairwise_cons.mpr ⟨fun b hb hloc => ?_, ih hcalls⟩
    obtain ⟨b', hb', hcut'⟩ := hrest.exists_right hb
    exact hfirst b' hb' ((hcut.locatedIn_iff hcut').mp hloc)
  | cons_right _ ih => exact ih (List.pairwise_cons.mp hcalls).2

/-- A part stays one without the archive itself. -/
theorem Curtailed.indexed {cs calls : List ArchiveCall} (h : Curtailed cs calls)
    (archive coll : Text) : Curtailed (indexed archive coll cs) (indexed archive coll calls) := by
  refine ⟨h.cut.filter (fun hcut => by rw [hcut.isSelf]), fun a ha b hb hloc => ?_⟩
  obtain ⟨b', hb', hcut⟩ :=
    h.closed a (List.mem_of_mem_filter ha) b (List.mem_of_mem_filter hb) hloc
  refine ⟨b', List.mem_filter.mpr ⟨hb', ?_⟩, hcut⟩
  rw [hcut.isSelf]
  exact (List.mem_filter.mp hb).2

/-- A creation that has listed something has opened its archive. -/
theorem writer_of_calls {L : Libarchive} {E : Irods} {J : Jansson} {Q : GenQuery} {fuel : ℕ}
    {archiveIn collectionIn resourceIn : MsParam} {s : Session} {r : Created}
    (h : msiArchiveCreate L E J Q fuel archiveIn collectionIn resourceIn s = .ok r)
    (hcalls : r.walk.calls ≠ []) : ∃ w, r.writer = some w := by
  unfold msiArchiveCreate at h
  dsimp only at h
  split at h
  · cases h
    exact absurd rfl hcalls
  split at h
  · cases h
    exact absurd rfl hcalls
  split at h
  · split at h
    · cases h
      exact absurd (GenQuery.collID_calls _ _ _) hcalls
    · split at h
      · cases h
        exact absurd (GenQuery.collID_calls _ _ _) hcalls
      · split at h
        · cases h
        · split at h
          · cases h
          · cases h
            exact ⟨_, rfl⟩
  · cases h
    exact absurd rfl hcalls

/-- **An archive whose creation has returned 0 has been produced from a part of the tree**,
whatever requests have failed, where it is stored whole. -/
theorem produced_of_curtailed {L : Libarchive} {E : Irods} {J : Jansson} {Q : GenQuery} {fuel : ℕ}
    {archive coll : Text} {resourceIn : MsParam} {t : CollTree} {s : Session} {r : Created}
    (hsource : Source Q J archive coll t s.nodes) (hnamed : t.Named) (hobjects : t.ObjectsNamed)
    (hfits : archive.length < Text.maxNameLen)
    (hcreate : msiArchiveCreate L E J Q fuel (.ofText archive) (.ofText coll) resourceIn s = .ok r)
    (hstatus : r.status = .num 0) {w : ArchiveWriter} (hwriter : r.writer = some w)
    (hcomplete : w.Complete L r.session) :
    ∃ data, r.session.nodes archive = some (.obj data)
      ∧ Produced L J archive coll r.walk.calls s.nodes data
      ∧ Curtailed r.walk.calls (t.calls Q.toCatalog J) := by
  obtain ⟨hs, hid, -, -, -, -, -, hsized⟩ := hsource
  obtain ⟨resource, s₁, c, hopen, hwalk, hconstruct, hzero, rfl, hsession⟩ :=
    msiArchiveCreate_made hid hcreate hwriter
  rw [hstatus] at hzero
  obtain ⟨cs, hcs, hpart⟩ := GenQuery.walk_part hs hnamed hobjects hwalk
  obtain rfl : r.walk.calls = cs := by
    rw [hcs, GenQuery.collID_calls]
    rfl
  have hnodes := createArchive_nodes hopen
  rw [Text.rstrcpy_of_fits hfits] at hnodes hconstruct
  have hnew : s₁.nodes archive = some (.obj []) := by
    rw [hnodes]
    exact Function.update_self ..
  obtain ⟨_, hall, hfreed, -⟩ := WriteArchive.construct_zero (.start hnew _) hconstruct hzero.symm
  rw [if_pos hfreed] at hsession
  have hdata := hcomplete.1
  rw [(WriteArchive.keeps_writeAll (.start hnew _) hall).2.1] at hdata
  -- what is asked of a call is so of the call of the tree that it is cut from
  have hfrom : ∀ c ∈ indexed archive coll r.walk.calls, c.ListsValid ∧ c.Sized coll s.nodes := by
    intro c hc
    obtain ⟨c', hc', hcut⟩ := (hpart.indexed archive coll).cut.exists_right hc
    rcases CollTree.mem_archived hs hc' with ⟨-, p, -, rfl⟩ | ⟨-, p, hp, hmem⟩
    · exact ⟨hcut.listsValid ⟨valid_listOf (valid_attrEntry J), valid_listOf (valid_aclEntry J)⟩,
        hcut.sized trivial⟩
    · obtain ⟨hfitsP, object, hobject, hsize⟩ := hsized p hp
      obtain ⟨row, hrow, rfl⟩ := List.mem_map.mp hmem
      obtain ⟨_, -, rfl⟩ := List.mem_map.mp hrow
      exact ⟨hcut.listsValid ⟨valid_listOf (valid_attrEntry J), valid_listOf (valid_aclEntry J)⟩,
        hcut.sized ⟨hfitsP, object, hobject, hsize⟩⟩
  exact ⟨_, hdata, ⟨hfits, fun c hc => (hfrom c hc).1, fun c hc => (hfrom c hc).2, E, fuel,
    isZip archive, s₁, c, hnodes, hconstruct, hzero.symm, hsession ▸ hcomplete, hsession ▸ hdata⟩,
    hpart⟩

/-- **The items of some calls are laid out below the target**, as they are stored, and
nothing else has changed but the target. -/
structure ItemsLaidOut (coll target : Text) (calls : List ArchiveCall)
    (stored : Text → Option Node) (before after : Session) : Prop where
  collections : ∀ c ∈ calls, c.isColl = true →
    after.nodes (Text.join target c.name) = some .coll
  objects : ∀ c ∈ calls, c.isColl = false → ∃ data,
    stored (Text.join coll c.name) = some (.obj data)
      ∧ after.nodes (Text.join target c.name) = some (.obj data)
  others : ∀ q, q ≠ target → (∀ c ∈ calls, q ≠ Text.join target c.name) →
    after.nodes q = before.nodes q ∧ after.avus q = before.avus q

/-- A part of the calls of a tree, laid out. -/
theorem itemsLaidOut_of_lay {K : Catalog} {J : Jansson} {archive coll target : Text}
    {t : CollTree} {stored : Text → Option Node} (hs : t.Shows K coll) (hrow : t.OneRowEach)
    (hdistinct : t.paths.Nodup) (hsized : t.Sized archive coll stored) {part : List ArchiveCall}
    (hpart : List.SublistForall₂ ArchiveCall.CutFrom part (t.archived K J archive coll))
    {before after : Session}
    (hnodes : ∀ q, q ≠ target → after.nodes q
      = lay target (part.map (fun c => (c.name, c.node coll stored))) before.nodes q)
    (havus : ∀ q, (∀ c ∈ part, q ≠ Text.join target c.name) → after.avus q = before.avus q) :
    ItemsLaidOut coll target part stored before after := by
  have hne : ∀ name : Text, Text.join target name ≠ target := by
    intro name h
    have hlen := congrArg List.length h
    rw [Text.length_join] at hlen
    omega
  have hnames : (part.map ArchiveCall.name).Sublist ((t.calls K J).map ArchiveCall.name) := by
    obtain ⟨l, hl, hsub⟩ := List.sublistForall₂_iff.mp hpart
    have hsame : part.map ArchiveCall.name = l.map ArchiveCall.name :=
      List.forall₂_eq_eq_eq ▸ List.rel_map (fun _ _ hcut => hcut.name) hl
    rw [hsame]
    exact (hsub.trans List.filter_sublist).map _
  have hnodup : ((part.map (fun c => (c.name, c.node coll stored))).map Prod.fst).Nodup := by
    rw [List.map_map]
    exact hnames.nodup ((CollTree.names_calls_perm (J := J) hs hrow).nodup_iff.mpr hdistinct)
  -- the names are distinct, so that nothing that is laid out is laid over
  have hthere : ∀ c ∈ part, after.nodes (Text.join target c.name) = some (c.node coll stored) := by
    intro c hc
    rw [hnodes _ (hne _)]
    exact lay_of_mem hnodup (List.mem_map_of_mem (f := fun c => (c.name, c.node coll stored)) hc) _
  refine ⟨fun c hc hkind => ?_, fun c hc hkind => ?_, fun q hq hother => ?_⟩
  · rw [hthere c hc, ArchiveCall.node, if_pos hkind]
  · obtain ⟨c', hc', hcut⟩ := hpart.exists_right hc
    rcases CollTree.mem_archived hs hc' with ⟨hcoll, -⟩ | ⟨-, p, hp, hmem⟩
    · exact absurd (hkind.symm.trans (hcut.isColl.trans hcoll)) Bool.false_ne_true
    · obtain ⟨-, data, hdata, -⟩ := hsized p hp
      obtain ⟨row, -, rfl⟩ := List.mem_map.mp hmem
      have hname : c.name = p.1 := hcut.name
      refine ⟨data, hname ▸ hdata, ?_⟩
      rw [hthere c hc, ArchiveCall.node, if_neg (by simp [hkind]), hname, WriteArchive.content,
        hdata]
  · refine ⟨(hnodes q hq).trans (lay_of_not_mem (fun p hp => ?_) _), havus q hother⟩
    obtain ⟨c, hc, rfl⟩ := List.mem_map.mp hp
    exact hother c hc

/-- **The round trip of a part.** Whatever requests fail while an archive is made, where its
creation returns 0 and it is stored whole, it is the archive of a part of the tree: its index
lists the items of the part, in the order of the whole tree, each after the collections that
it is located in, which are all in the part; and an extraction that returns no error lays out
just these items as they were when the creation started. Where no request has failed, the
part is the whole tree. -/
theorem curtailed_round_trip {L : Libarchive} {J : Jansson} {Q : GenQuery} {E E' : Irods}
    {rows : SpaceQuery} {fuel : ℕ} {archive coll target : Text}
    {createResource extractIn extractResource : MsParam} {t : CollTree} {s s' : Session}
    {r : Created} {r' : Extracted} {w : ArchiveWriter} {data : Bytes}
    (hL : L.ReadsBack) (hJ : J.Lawful) (hE' : E'.Honest)
    (hsource : Source Q J archive coll t s.nodes) (hnamed : t.Named) (hobjects : t.ObjectsNamed)
    (hfits : archive.length < Text.maxNameLen ∧ target.length < Text.maxNameLen
      ∧ ∀ name ∈ t.paths, (Text.join target name).length < Text.maxNameLen)
    (hcreate : msiArchiveCreate L E J Q fuel (.ofText archive) (.ofText coll) createResource s
      = .ok r) (hcreated : r.status = .num 0) (hwriter : r.writer = some w)
    (hcomplete : w.Complete L r.session)
    (hkept : s'.nodes archive = r.session.nodes archive)
    (hdata : s'.nodes archive = some (.obj data))
    (hall : extractIn.parseMspForStr = none)
    (hextract : msiArchiveExtract J E' rows (L.entryAt data) (.ofText archive) (.ofText target)
      extractIn extractResource s' = .ok r') (hextracted : r'.status.isNeg = false) :
    ∃ part, Curtailed part (t.archived Q.toCatalog J archive coll)
      ∧ (Q.Fine r.walk → part = t.archived Q.toCatalog J archive coll)
      ∧ part.Pairwise (fun a b => ¬ a.LocatedIn b)
      ∧ (∃ a s₁, openArchive J E' (L.entryAt data) archive s' = .ok (some a, s₁)
        ∧ List.Forall₂ (fun c item => (c.item J).equal item = true) part a.items)
      ∧ ItemsLaidOut coll target part s.nodes s' r'.session := by
  obtain ⟨hfitsA, hfitsT, hfitsP⟩ := hfits
  obtain ⟨data', hdata', hproduced, hpart⟩ :=
    produced_of_curtailed hsource hnamed hobjects hfitsA hcreate hcreated hwriter hcomplete
  obtain rfl : data' = data :=
    Node.obj.inj (Option.some.inj (hdata'.symm.trans (hkept.symm.trans hdata)))
  have hindexed := hpart.indexed archive coll
  obtain ⟨hs, hid, hpos, hrow, hdistinct, -, hutf8, hsized⟩ := hsource
  have hpaths : ∀ c ∈ indexed archive coll r.walk.calls, c.name ∈ t.paths := by
    intro c hc
    obtain ⟨c', hc', hcut⟩ := hindexed.cut.exists_right hc
    rw [hcut.name]
    exact CollTree.name_mem_paths hs hrow hc'
  obtain ⟨hnodes, havus⟩ := hproduced.lays hL hJ (fun c hc => hutf8 _ (hpaths c hc)) hE'
    ⟨hfitsT, fun c hc => hfitsP _ (hpaths c hc)⟩ hall hextract hextracted
  refine ⟨indexed archive coll r.walk.calls, hindexed, fun hfine => ?_,
    pairwise_cut hindexed.cut ((CollTree.contents_parents_first [] hnamed).filter _), ?_,
    itemsLaidOut_of_lay hs hrow hdistinct hsized hindexed.cut hnodes havus⟩
  · obtain ⟨-, -, -, -, hwalk, -⟩ := msiArchiveCreate_made hid hcreate hwriter
    rw [GenQuery.walk_calls hs hwalk hfine, GenQuery.collID_calls]
    rfl
  · obtain ⟨path, _, a, s₁, loop, harchive, -, hopen, -⟩ :=
      msiArchiveExtract_spec hextract hextracted
    obtain rfl := MsParam.eq_of_parseMspForStr harchive
    exact ⟨a, s₁, hopen, (hproduced.opened_equal hL hJ hopen).1.imp (fun _ _ h => h.2.2)⟩

/-! ## A part of the sample tree -/

/-- A creation that returns 0 has stored the whole archive, where nothing is refused. -/
theorem complete_of_made {L : Libarchive} {E : Irods} (hE : E.Willing) {J : Jansson}
    {Q : GenQuery} {fuel : ℕ} {archive coll : Text} {resourceIn : MsParam} {s : Session} {id : ℤ}
    (hid : Q.collIds (nameCond coll) = [id]) {r : Created}
    (h : msiArchiveCreate L E J Q fuel (.ofText archive) (.ofText coll) resourceIn s = .ok r)
    (hstatus : r.status = .num 0) {w : ArchiveWriter} (hwriter : r.writer = some w) :
    w.Complete L r.session := by
  obtain ⟨resource, s₁, c, hopen, -, hconstruct, hzero, rfl, hsession⟩ :=
    msiArchiveCreate_made hid h hwriter
  have hnew : s₁.nodes (Text.rstrcpy archive) = some (.obj []) := by
    rw [createArchive_nodes hopen]
    exact Function.update_self ..
  obtain ⟨t, hall, hfreed, hfree⟩ :=
    WriteArchive.construct_zero (.start hnew _) hconstruct (hzero.symm.trans hstatus)
  have hsound := (WriteArchive.keeps_writeAll (.start hnew _) hall).1
  rw [hsession, if_pos hfreed, hfree]
  exact (ArchiveWriter.free_spec hsound rfl).1.mp (ArchiveWriter.free_of_willing hE hsound)

namespace Sample

/-- The request for the data objects of the inner collection fails. -/
def halfway : GenQuery := failing (catalog object) 5

/-- What has been seen by then. -/
def seen : List ArchiveCall := [(collection "a".toList 2 [object]).call JsonText.codec "a".toList]

theorem source_halfway : Source halfway JsonText.codec "/z/x.tar".toList coll (tree object) nodes :=
  ⟨source_tree.shows, source_tree.id, source_tree.id_nonneg, source_tree.oneRow,
    source_tree.distinct, source_tree.utf8_coll, source_tree.utf8, source_tree.sized⟩

theorem walk_halfway : ∃ walk, halfway.walk JsonText.codec 6 coll 1
    (halfway.collID coll Walk.start).2 = some walk ∧ walk.calls = seen := ⟨_, rfl, rfl⟩

/-- The creation of the archive returns 0 all the same. -/
theorem create_halfway : ∃ r w, msiArchiveCreate ArchiveText.library .obliging JsonText.codec
      halfway 6 (.ofText "/z/x.tar".toList) (.ofText coll) noParam (.fresh nodes) = .ok r
    ∧ r.status = .num 0 ∧ r.walk.calls = seen ∧ r.writer = some w := by
  obtain ⟨walk, hwalk, hcalls⟩ := walk_halfway
  obtain ⟨s₁, hcreat⟩ :
      ∃ s₁, creat .obliging "/z/x.tar".toList none (.fresh nodes) = (.ok (), s₁) :=
    creat_of_willing Irods.obliging_willing none (.inr ⟨rfl, rfl⟩)
  have hopen : createArchive .obliging "/z/x.tar".toList coll none (.fresh nodes)
      = (some (.create "/z/x.tar".toList coll, .start "/z/x.tar".toList false), s₁) := by
    unfold createArchive
    rw [hcreat]
    rfl
  have hnew : s₁.nodes "/z/x.tar".toList = some (.obj []) := by
    rw [createArchive_nodes hopen]
    exact Function.update_self ..
  set a := (WriteArchive.create "/z/x.tar".toList coll).run JsonText.codec walk.calls with ha
  have hready : ∀ item ∈ a.list,
      WriteArchive.Ready a.origin "/z/x.tar".toList 6 s₁.nodes item := by
    rw [ha, hcalls]
    exact List.forall_mem_singleton.mpr ⟨"a".toList, "coll".toList, rfl, rfl, .inl rfl⟩
  obtain ⟨c, hconstruct, hzero⟩ := WriteArchive.construct_of_willing (J := JsonText.codec)
    Irods.obliging_willing ArchiveText.library_accepting (.start hnew false) hready
  obtain ⟨r, hr, hstatus, hwalk'⟩ := msiArchiveCreate_eq (by decide) rfl (by decide)
    (show createArchive _ _ _ (if noParam.isStr then _ else none) _ = _ from hopen) hwalk hconstruct
  have hseen : r.walk.calls = seen := by rw [hwalk', hcalls]
  obtain ⟨w, hw⟩ := writer_of_calls hr (by rw [hseen]; exact List.cons_ne_nil _ _)
  exact ⟨r, w, hr, hstatus.trans hzero, hseen, hw⟩

/-- A produced archive text opens, and what is found in it is what was written. -/
theorem produced_opens {archive coll : Text} {calls : List ArchiveCall}
    {nodes : Text → Option Node} {data : Bytes}
    (h : Produced ArchiveText.library JsonText.codec archive coll calls nodes data)
    (hutf8 : JsonText.codec.utf8 coll = true) {s s₁ : Session}
    (hobj : s.objOpen .obliging archive false none = (.ok (), s₁)) :
    ∃ b, openArchive JsonText.codec .obliging (ArchiveText.library.entryAt data) archive s
        = .ok (some b, s₁)
      ∧ b.items = (indexed archive coll calls).map (ArchiveCall.item JsonText.codec) := by
  set a := (WriteArchive.create archive coll).run JsonText.codec calls with ha
  have hrun : a.origin = coll
      ∧ a.list = (indexed archive coll calls).map (ArchiveCall.item JsonText.codec) := by
    rw [ha, WriteArchive.run_eq]
    exact ⟨rfl, rfl⟩
  obtain ⟨hindex, hcollection, hitems⟩ := WriteArchive.indexJson_spec
    (hrun.1.symm ▸ hutf8) (hrun.2.symm ▸ h.valid_items)
  obtain ⟨zip, calls', rfl, hentries, hcalls⟩ := h.entries JsonText.codec_lawful
  have hall : ∀ p ∈ Libarchive.entriesOf calls', Libarchive.Faithful p := by
    rw [hentries]
    refine List.forall_mem_cons.mpr ⟨rfl, fun p hp => ?_⟩
    obtain ⟨c, hc, rfl⟩ := List.mem_map.mp hp
    exact (hcalls c hc).1
  obtain ⟨e, hheader, -, hfile, hdata, -, -⟩ :=
    ArchiveText.library_readsBack.entry zip calls' hall 0 _ (by rw [hentries]; rfl)
  refine ⟨_, openArchive_eq (by rwa [Text.rstrcpy_of_fits h.fits]) hheader (hfile rfl).1
    (hfile rfl).2 hdata (JsonText.codec_lawful.text_nul 2 _)
    (JsonText.codec_loads_text 2 hindex (WriteArchive.isContainer_indexJson _ _)) hcollection, ?_⟩
  unfold ReadArchive.items
  dsimp only
  rw [hitems, ← hrun.2]
  rfl

end Sample

/-- The archive of what has been seen, extracted. -/
theorem curtailed_round_trip_sample : ∃ (r : Created) (r' : Extracted) (data : Bytes),
    msiArchiveCreate ArchiveText.library .obliging JsonText.codec Sample.halfway 6
        (.ofText "/z/x.tar".toList) (.ofText Sample.coll) Sample.noParam (.fresh Sample.nodes)
        = .ok r
      ∧ msiArchiveExtract JsonText.codec .obliging (fun _ => .ok [])
        (ArchiveText.library.entryAt data) (.ofText "/z/x.tar".toList) (.ofText "/z/t".toList)
        Sample.noParam Sample.noParam (Sample.before data) = .ok r'
      ∧ ∃ part, Curtailed part ((Sample.tree Sample.object).archived Sample.halfway.toCatalog
          JsonText.codec "/z/x.tar".toList Sample.coll)
        ∧ ItemsLaidOut Sample.coll "/z/t".toList part Sample.nodes (Sample.before data)
          r'.session := by
  obtain ⟨r, w, hr, hstatus, hseen, hw⟩ := Sample.create_halfway
  have hcomplete := complete_of_made Irods.obliging_willing (Sample.source_halfway.id) hr hstatus hw
  have hobjects : (Sample.tree Sample.object).ObjectsNamed :=
    .node (List.forall_mem_nil _) (List.forall_mem_singleton.mpr
      (.node (List.forall_mem_singleton.mpr (by decide)) (List.forall_mem_nil _)))
  have hnamed : (Sample.tree Sample.object).Named :=
    .node (List.nodup_singleton _) (List.forall_mem_singleton.mpr (by decide))
      (List.forall_mem_singleton.mpr (.node List.nodup_nil (List.forall_mem_nil _)
        (List.forall_mem_nil _)))
  obtain ⟨data, hdata, hproduced, -⟩ := produced_of_curtailed Sample.source_halfway hnamed
    hobjects (by decide) hr hstatus hw hcomplete
  obtain ⟨b, hb, hitems⟩ := Sample.produced_opens hproduced (by decide)
    (show (Sample.before data).objOpen .obliging "/z/x.tar".toList false none = (.ok (), _)
      from rfl)
  rw [hseen] at hproduced hitems
  obtain ⟨⟨pathname, isDir, size, blocks, fails⟩, hheader, rfl, -⟩ :=
    hproduced.header (k := 0) ArchiveText.library_readsBack
    JsonText.codec_lawful rfl
  obtain ⟨r', hr', hstatus'⟩ : ∃ r', msiArchiveExtract JsonText.codec .obliging (fun _ => .ok [])
        (ArchiveText.library.entryAt data) (.ofText "/z/x.tar".toList) (.ofText "/z/t".toList)
        Sample.noParam Sample.noParam (Sample.before data) = .ok r' ∧ r'.status = .num 0 := by
    have hlist : b.items = [((Sample.collection "a".toList 2 [Sample.object]).call JsonText.codec
        "a".toList).item JsonText.codec] := hitems
    have hfirst : ArchiveText.library.entryAt data 1 = .ok ⟨pathname, _, size, blocks, fails⟩ :=
      hheader
    obtain ⟨loop, hloop, hzero⟩ : ∃ loop, extractLoop .obliging (ArchiveText.library.entryAt data)
        none none "/z/t".toList 0 b.items 1 (.num 0)
        (((Sample.before data).record (.objOpen "/z/x.tar".toList false none) true).collCreate
          .obliging "/z/t".toList false).2 = .ok loop ∧ loop.status = .num 0 := by
      rw [hlist, extractLoop_cons hfirst rfl]
      exact ⟨_, rfl, rfl⟩
    have hrun : msiArchiveExtract JsonText.codec .obliging (fun _ => .ok [])
        (ArchiveText.library.entryAt data) (.ofText "/z/x.tar".toList) (.ofText "/z/t".toList)
        Sample.noParam Sample.noParam (Sample.before data)
        = (extractLoop .obliging (ArchiveText.library.entryAt data) none none "/z/t".toList 0
          b.items 1 (.num 0) (((Sample.before data).record (.objOpen "/z/x.tar".toList false none)
            true).collCreate .obliging "/z/t".toList false).2).map
          (fun r => ⟨r.status, some r.status, r.extracted,
            (r.session.objClose .obliging b.path).2⟩) :=
      msiArchiveExtract_eq rfl rfl hb
    rw [hrun, hloop]
    exact ⟨_, rfl, hzero⟩
  obtain ⟨part, hpart, -, -, -, hlaid⟩ := curtailed_round_trip ArchiveText.library_readsBack
    JsonText.codec_lawful Irods.obliging_honest Sample.source_halfway hnamed hobjects
    ⟨by decide, by decide, by decide⟩ hr hstatus hw hcomplete (hdata ▸ rfl) rfl rfl hr'
    (by rw [hstatus']; rfl)
  exact ⟨r, r', data, hr, hr', part, hpart, hlaid⟩
