import IrodsMicroservices.IndexReport

/-!
# Archives over a run

Archives are made to be kept: between the call that makes one and the one that extracts
it there may be any number of others, of the same services and of anybody else.

What an archive is made of is a *snapshot*, the tree of a collection with the places as
they are at that moment. A run is a sequence of calls of the services, on any servers and
however they end, and of changes by others, each with the places it may change; a
snapshot is known from the call that has made its archive on, until a call may change the
object of the archive. In every state of every run the archives of the snapshots that are
known are whole (`stores_of_reaches`). So their indexes are told as they have been
written (`archives_tell_index`), and what they lay out is what there was when they were
made (`archives_extract`).
-/

open Session

/-- **What an archive is made of**: the tree of a collection, as a catalog shows it. -/
structure Snapshot (J : Jansson) (archive : Text) where
  /-- The server whose catalog has been walked. -/
  server : GenQuery
  /-- The collection. -/
  coll : Text
  /-- What is below it. -/
  tree : CollTree
  /-- The places when the archive was made. -/
  nodes : Text → Option Node
  /-- The tree is what the catalog shows, and what is stored. -/
  source : Source server J archive coll tree nodes

namespace Snapshot

variable {J : Jansson} {archive : Text}

/-- The calls the tree is listed by. -/
def calls (m : Snapshot J archive) : List ArchiveCall := m.tree.calls m.server.toCatalog J

/-- The calls that are indexed, those of all but the archive itself. -/
def archived (m : Snapshot J archive) : List ArchiveCall :=
  m.tree.archived m.server.toCatalog J archive m.coll

/-- The document of the index. -/
def index (m : Snapshot J archive) : Json :=
  ((WriteArchive.create archive m.coll).run J m.calls).indexJson J

end Snapshot

/-- The archives that are known, by their paths. -/
abbrev Archives (J : Jansson) := (archive : Text) → Option (Snapshot J archive)

open Classical in
/-- Archives at places that may have changed are known no more. -/
noncomputable def Archives.forget {J : Jansson} (known : Archives J) (D : Text → Prop) :
    Archives J :=
  fun p => if D p then none else known p

/-- **The archives that are known are whole.** -/
def Stores {J : Jansson} (L : Libarchive) (known : Archives J) (s : Session) : Prop :=
  ∀ p m, known p = some m →
    ∃ data, s.nodes p = some (.obj data) ∧ Produced L J p m.coll m.calls m.nodes data

/-- The places an extraction may change: the target and those of the items of the archive
that it opens. -/
def ExtractionPlace (J : Jansson) (E : Irods) (headers : ℕ → HeaderResult)
    (archiveIn pathIn extractIn : MsParam) (s : Session) (p : Text) : Prop :=
  ∃ archive path a s₁, archiveIn.parseMspForStr = some archive
    ∧ pathIn.parseMspForStr = some path
    ∧ openArchive J E headers archive s = .ok (some a, s₁)
    ∧ (p = Text.rstrcpy path ∨ ExtractPlace extractIn.parseMspForStr path a.items p)

/-- **A step of a run**: a call of a service that has returned, whatever its status is, or
what others do. -/
inductive ServiceStep {J : Jansson} (L : Libarchive) :
    Archives J × Session → Archives J × Session → Prop
  /-- An archive is made, of which nothing is known. -/
  | create {E : Irods} {Q : GenQuery} {fuel : ℕ} {archiveIn collectionIn resourceIn : MsParam}
      {known : Archives J} {s : Session} {r : Created}
      (h : msiArchiveCreate L E J Q fuel archiveIn collectionIn resourceIn s = .ok r) :
      ServiceStep L (known, s) (known.forget (ArchivePlace archiveIn), r.session)
  /-- A collection has been archived, with no query failing and all of the archive stored. -/
  | archived {E : Irods} {Q : GenQuery} {fuel : ℕ} {archive coll : Text} {resourceIn : MsParam}
      {t : CollTree} {known : Archives J} {s : Session} {r : Created}
      (hsource : Source Q J archive coll t s.nodes) (hfits : archive.length < Text.maxNameLen)
      (h : msiArchiveCreate L E J Q fuel (.ofText archive) (.ofText coll) resourceIn s = .ok r)
      (hstatus : r.status = .num 0) (hfine : Q.Fine r.walk)
      (hcomplete : ∀ w, r.writer = some w → w.Complete L r.session) :
      ServiceStep L (known, s)
        (Function.update (known.forget (ArchivePlace (.ofText archive))) archive
          (some ⟨Q, coll, t, s.nodes, hsource⟩), r.session)
  /-- An archive is extracted, whole or in part. -/
  | extract {E : Irods} {rows : SpaceQuery} {headers : ℕ → HeaderResult}
      {archiveIn pathIn extractIn resourceIn : MsParam} {known : Archives J} {s : Session}
      {r : Extracted}
      (h : msiArchiveExtract J E rows headers archiveIn pathIn extractIn resourceIn s = .ok r) :
      ServiceStep L (known, s)
        (known.forget (ExtractionPlace J E headers archiveIn pathIn extractIn s), r.session)
  /-- The index of an archive is told. -/
  | index {E : Irods} {headers : ℕ → HeaderResult} {archiveIn : MsParam} {known : Archives J}
      {s : Session} {r : Indexed} (h : msiArchiveIndex J E headers archiveIn s = .ok r) :
      ServiceStep L (known, s) (known, r.session)
  /-- Others change what they will. -/
  | other {D : Text → Prop} {known : Archives J} {s s' : Session}
      (h : ∀ q, ¬ D q → s'.nodes q = s.nodes q) :
      ServiceStep L (known, s) (known.forget D, s')

/-- The runs, from one state to another. -/
def Reaches {J : Jansson} (L : Libarchive) :
    Archives J × Session → Archives J × Session → Prop :=
  Relation.ReflTransGen (ServiceStep L)

section Stores

variable {J : Jansson} {L : Libarchive} {known : Archives J} {s s' : Session}

theorem Archives.of_forget {D : Text → Prop} {p : Text} {m : Snapshot J p}
    (h : known.forget D p = some m) : ¬ D p ∧ known p = some m := by
  unfold Archives.forget at h
  split at h
  · cases h
  · rename_i hD
    exact ⟨hD, h⟩

theorem Archives.forget_of_not {D : Text → Prop} {p : Text} (h : ¬ D p) :
    known.forget D p = known p :=
  if_neg h

/-- What is changed elsewhere leaves an archive whole. -/
theorem Stores.forget {D : Text → Prop} (h : Stores L known s)
    (hkept : ∀ q, ¬ D q → s'.nodes q = s.nodes q) : Stores L (known.forget D) s' := by
  intro p m hm
  obtain ⟨hD, hknown⟩ := Archives.of_forget hm
  obtain ⟨data, hdata, hproduced⟩ := h p m hknown
  exact ⟨data, (hkept p hD).trans hdata, hproduced⟩

theorem Stores.confined {D : Text → Prop} (h : Stores L known s) (hconfined : s.Confined D s') :
    Stores L (known.forget D) s' :=
  h.forget (fun q hq => (hconfined q hq).1)

/-- **An extraction changes nothing but at its places**, however it ends. -/
theorem confined_extraction {E : Irods} {rows : SpaceQuery} {headers : ℕ → HeaderResult}
    {archiveIn pathIn extractIn resourceIn : MsParam} {r : Extracted}
    (h : msiArchiveExtract J E rows headers archiveIn pathIn extractIn resourceIn s = .ok r) :
    s.Confined (ExtractionPlace J E headers archiveIn pathIn extractIn s) r.session := by
  rcases msiArchiveExtract_cases h with ⟨hsame, -⟩ | ⟨archive, path, harchive, hpath, hend⟩
  · rw [hsame]
    exact Confined.refl _ _
  rcases hend with ⟨hopen, -⟩ | ⟨a, s₁, hopen⟩
  · obtain ⟨hnodes, havus⟩ := openArchive_frame hopen
    exact .of_eq hnodes havus
  · exact (handled_extract harchive hpath hopen h).confined.mono
      (fun p hp => ⟨archive, path, a, s₁, harchive, hpath, hopen, hp⟩)

/-- **A step keeps the archives that are known whole**, the one it makes included. -/
theorem stores_of_step {x y : Archives J × Session} (h : ServiceStep L x y)
    (hx : Stores L x.1 x.2) : Stores L y.1 y.2 := by
  cases h with
  | create h => exact hx.confined (handled_create h).confined
  | @archived E Q fuel archive coll resourceIn t known s r hsource hfits h hstatus hfine
      hcomplete =>
    intro p m hm
    by_cases hp : p = archive
    · subst hp
      have hm' := (Function.update_self ..).symm.trans hm
      obtain rfl := Option.some.inj hm'
      exact produced_of_create hsource hfits h hstatus hfine hcomplete
    · have hm' := (Function.update_of_ne hp ..).symm.trans hm
      exact hx.confined (handled_create h).confined p m hm'
  | extract h => exact hx.confined (confined_extraction h)
  | index h =>
    intro p m hm
    obtain ⟨data, hdata, hproduced⟩ := hx p m hm
    exact ⟨data, ((handled_index h).confined p id).1.trans hdata, hproduced⟩
  | other h => exact hx.forget h

/-- **In every state of a run the archives that are known are whole.** -/
theorem stores_of_reaches {x y : Archives J × Session} (h : Reaches L x y)
    (hx : Stores L x.1 x.2) : Stores L y.1 y.2 := by
  induction h with
  | refl => exact hx
  | tail _ hstep ih => exact stores_of_step hstep ih

/-- So are they where nothing was known at first. -/
theorem whole_of_reaches (h : Reaches L ((fun _ => none : Archives J), s) (known, s')) {p : Text}
    {m : Snapshot J p} (hm : known p = some m) :
    ∃ data, s'.nodes p = some (.obj data) ∧ Produced L J p m.coll m.calls m.nodes data :=
  stores_of_reaches h (fun _ _ hnone => absurd hnone (by simp)) p m hm

end Stores

/-! ## What is known of an archive -/

namespace Produced

variable {L : Libarchive} {J : Jansson} {archive coll : Text} {calls : List ArchiveCall}
  {nodes : Text → Option Node} {data : Bytes}

/-- **A produced archive opens**, and the text of its index is the one written. -/
theorem opens (hL : L.ReadsBack) (hJ : J.Lawful) (h : Produced L J archive coll calls nodes data)
    (hutf8 : J.utf8 coll = true) {E : Irods} {s s₁ : Session}
    (hobj : s.objOpen E archive false none = (.ok (), s₁)) :
    ∃ a, openArchive J E (L.entryAt data) archive s = .ok (some a, s₁)
      ∧ a.indexItems = J.text 2 (((WriteArchive.create archive coll).run J calls).indexJson J)
      ∧ a.origin = coll := by
  have hrun : ((WriteArchive.create archive coll).run J calls).origin = coll
      ∧ ((WriteArchive.create archive coll).run J calls).list
        = (indexed archive coll calls).map (ArchiveCall.item J) := by
    rw [WriteArchive.run_eq]
    exact ⟨rfl, rfl⟩
  obtain ⟨hvalid, hcollection, -⟩ := WriteArchive.indexJson_spec
    (hrun.1.symm ▸ hutf8) (hrun.2.symm ▸ h.valid_items)
  -- the first entry is that of the index
  obtain ⟨zip, calls', rfl, hentries, hcalls⟩ := h.entries hJ
  have hall : ∀ p ∈ Libarchive.entriesOf calls', Libarchive.Faithful p := by
    rw [hentries]
    refine List.forall_mem_cons.mpr ⟨rfl, fun p hp => ?_⟩
    obtain ⟨c, hc, rfl⟩ := List.mem_map.mp hp
    exact (hcalls c hc).1
  obtain ⟨e, hheader, -, hfile, hdata, -, -⟩ :=
    hL.entry zip calls' hall 0 _ (by rw [hentries]; rfl)
  obtain ⟨json, hloads, hequal⟩ :=
    hJ.loads_text 2 hvalid (WriteArchive.isContainer_indexJson J _)
  have horigin := Json.stringMember_of_equal hvalid (hJ.loads_valid hloads) hequal
    "collection".toList
  rw [hcollection] at horigin
  exact ⟨_, openArchive_eq (by rwa [Text.rstrcpy_of_fits h.fits]) hheader (hfile rfl).1
    (hfile rfl).2 hdata (hJ.text_nul 2 _) hloads horigin.symm, rfl, hrun.1⟩

/-- **What an extraction of a produced archive lays out**: the items of its calls. -/
theorem lays (hL : L.ReadsBack) (hJ : J.Lawful) (h : Produced L J archive coll calls nodes data)
    (hutf8 : ∀ c ∈ indexed archive coll calls, J.utf8 c.name = true) {E : Irods} (hE : E.Honest)
    {rows : SpaceQuery} {target : Text} {extractIn resourceIn : MsParam} {s : Session}
    {r : Extracted} (hfits : target.length < Text.maxNameLen
      ∧ ∀ c ∈ indexed archive coll calls, (Text.join target c.name).length < Text.maxNameLen)
    (hall : extractIn.parseMspForStr = none)
    (hextract : msiArchiveExtract J E rows (L.entryAt data) (.ofText archive) (.ofText target)
      extractIn resourceIn s = .ok r) (hstatus : r.status.isNeg = false) :
    (∀ q, q ≠ target → r.session.nodes q = lay target
        ((indexed archive coll calls).map (fun c => (c.name, c.node coll nodes))) s.nodes q)
      ∧ ∀ q, (∀ c ∈ indexed archive coll calls, q ≠ Text.join target c.name) →
        r.session.avus q = s.avus q := by
  obtain ⟨_, _, b, s₁, loop, harchive, htarget, hopen, -, hloop, rfl⟩ :=
    msiArchiveExtract_spec hextract hstatus
  obtain rfl := MsParam.eq_of_parseMspForStr harchive
  obtain rfl := MsParam.eq_of_parseMspForStr htarget
  rw [hall, Text.rstrcpy_of_fits hfits.1] at hloop
  obtain ⟨hopened, hopenedAvus⟩ := openArchive_frame hopen
  have hnames : List.Forall₂ (fun item l => item.stringMember "name".toList = some l.1) b.items
      ((indexed archive coll calls).map
        (fun c => (c.name, WriteArchive.entryOf coll nodes (c.item J)))) := by
    rw [List.forall₂_map_right_iff]
    have hitems := (h.opened hL hJ hopen).1
    refine List.Forall₂.imp (fun item c hc => ?_)
      ((List.forall₂_and_left _ _).mpr ⟨hutf8, hitems⟩).flip
    exact (hc.2.1 _).trans (ArchiveCall.item_nameText hc.1)
  have hlay := extractLoop_lay hE hnames
    (fun k l hl => by
      rw [List.getElem?_map] at hl
      obtain ⟨c, hc, rfl⟩ := Option.map_eq_some_iff.mp hl
      exact h.header hL hJ hc)
    (fun l hl => by
      obtain ⟨c, hc, rfl⟩ := List.mem_map.mp hl
      exact hfits.2 c hc)
    hloop hstatus
  obtain ⟨hclosed, hclosedAvus⟩ := objClose_frame loop.session E b.path
  refine ⟨fun q hq => ?_, fun q hq => ?_⟩
  · show (loop.session.objClose E b.path).2.nodes q = _
    rw [hclosed, hlay.1, List.map_map,
      lay_congr _ ((collCreate_frame hE hq s₁).trans (congrFun hopened q))]
    refine congrArg (fun items => lay target items s.nodes q) (List.map_congr_left (fun c hc => ?_))
    exact congrArg (Prod.mk c.name) (h.entryNode_entryOf hJ hc)
  · show (loop.session.objClose E b.path).2.avus q = _
    have hmade : (s₁.collCreate E target false).2.avus = s.avus :=
      (collCreate_spec hE rfl).1.trans hopenedAvus
    rw [hclosedAvus, hlay.2 q (fun l hl => ?_), hmade]
    obtain ⟨c, hc, rfl⟩ := List.mem_map.mp hl
    exact hq c hc

end Produced

/-- **What the archive of a snapshot lays out**: the tree it is made of. -/
theorem Snapshot.laidOut {L : Libarchive} {J : Jansson} {archive : Text} {m : Snapshot J archive}
    {data : Bytes} (hL : L.ReadsBack) (hJ : J.Lawful)
    (h : Produced L J archive m.coll m.calls m.nodes data) {E : Irods} (hE : E.Honest)
    {rows : SpaceQuery} {target : Text} {extractIn resourceIn : MsParam} {s : Session}
    {r : Extracted} (hfits : target.length < Text.maxNameLen
      ∧ ∀ name ∈ m.tree.paths, (Text.join target name).length < Text.maxNameLen)
    (hall : extractIn.parseMspForStr = none)
    (hextract : msiArchiveExtract J E rows (L.entryAt data) (.ofText archive) (.ofText target)
      extractIn resourceIn s = .ok r) (hstatus : r.status.isNeg = false) :
    LaidOut archive m.coll target m.tree m.nodes s r.session := by
  obtain ⟨hs, -, -, hrow, hdistinct, -, hutf8, hsized⟩ := m.source
  have hpaths : ∀ c ∈ m.archived, c.name ∈ m.tree.paths :=
    fun c hc => CollTree.name_mem_paths hs hrow hc
  obtain ⟨hnodes, havus⟩ := h.lays hL hJ (fun c hc => hutf8 _ (hpaths c hc)) hE
    ⟨hfits.1, fun c hc => hfits.2 _ (hpaths c hc)⟩ hall hextract hstatus
  exact laidOut_of_lay (J := J) hs hrow hdistinct hsized hnodes havus

section Run

variable {L : Libarchive} {J : Jansson} {known : Archives J} {s s₀ : Session} {archive : Text}
  {m : Snapshot J archive} {data : Bytes}

/-- **The index of an archive is told as it has been written**, at any time in any run:
by any server that opens its object, and with that the items of the snapshot. -/
theorem archives_tell_index (hL : L.ReadsBack) (hJ : J.Lawful)
    (hrun : Reaches L ((fun _ => none : Archives J), s₀) (known, s))
    (hknown : known archive = some m) (hnull : archive ≠ "null".toList)
    (hdata : s.nodes archive = some (.obj data)) (E : Irods) :
    ∃ r, msiArchiveIndex J E (L.entryAt data) (.ofText archive) s = .ok r
      ∧ r.session.nodes = s.nodes ∧ r.session.avus = s.avus
      ∧ (E.deny s.log.length = none → r.status = .num 0
        ∧ r.indexOut = some (J.text 2 m.index)
        ∧ ∃ json, J.loads (J.text 2 m.index) = some json
          ∧ json.stringMember "collection".toList = some m.coll
          ∧ List.Forall₂ (fun c item =>
              (∀ key, item.stringMember key = (c.item J).stringMember key)
              ∧ ∀ key, item.integerMember key = (c.item J).integerMember key)
            m.archived json.indexItems) := by
  obtain ⟨data', hdata', hproduced⟩ := whole_of_reaches hrun hknown
  obtain rfl := Node.obj.inj (Option.some.inj (hdata.symm.trans hdata'))
  have harchive := MsParam.parseMspForStr_ofText hnull
  have hpath := Text.rstrcpy_of_fits hproduced.fits
  cases hobj : s.objOpen E archive false none with
  | mk y t =>
    cases y with
    | error f =>
      have hindex : msiArchiveIndex J E (L.entryAt data) (.ofText archive) s
          = .ok ⟨.named .sysTarOpenErr, none, t⟩ := by
        rw [msiArchiveIndex_eq harchive]
        unfold openArchive
        rw [hpath, hobj]
      have hsame := (handled_index hindex).confined
      refine ⟨_, hindex, funext (fun q => (hsame q id).1), funext (fun q => (hsame q id).2),
        fun hgranted => ?_⟩
      rcases request_error_cases hobj with hdeny | hanswer
      · rw [hgranted] at hdeny
        cases hdeny
      · rw [hdata] at hanswer
        cases hanswer
    | ok =>
      obtain ⟨a, hopen, htext, horigin⟩ := hproduced.opens hL hJ m.source.utf8_coll hobj
      have hindex : msiArchiveIndex J E (L.entryAt data) (.ofText archive) s
          = .ok ⟨.num 0, some a.indexItems, (t.objClose E a.path).2⟩ := by
        rw [msiArchiveIndex_eq harchive, hopen]
      have hsame := (handled_index hindex).confined
      refine ⟨_, hindex, funext (fun q => (hsame q id).1), funext (fun q => (hsame q id).2),
        fun _ => ⟨rfl, congrArg some htext, ?_⟩⟩
      obtain ⟨json, hloads, hitems, hcollection⟩ := loads_indexItems hopen
      rw [htext] at hloads
      rw [horigin] at hcollection
      refine ⟨json, hloads, hcollection, ?_⟩
      rw [hitems]
      exact (hproduced.opened hL hJ hopen).1

/-- **An archive lays out what there was when it was made**, at any time in any run: an
extraction of all of it that returns no error, on a server that keeps its errors apart,
leaves below the target the tree of the snapshot, and all else as it is. -/
theorem archives_extract (hL : L.ReadsBack) (hJ : J.Lawful)
    (hrun : Reaches L ((fun _ => none : Archives J), s₀) (known, s))
    (hknown : known archive = some m) (hdata : s.nodes archive = some (.obj data)) {E : Irods}
    (hE : E.Honest) {rows : SpaceQuery} {target : Text} {extractIn resourceIn : MsParam}
    {r : Extracted} (hfits : target.length < Text.maxNameLen
      ∧ ∀ name ∈ m.tree.paths, (Text.join target name).length < Text.maxNameLen)
    (hall : extractIn.parseMspForStr = none)
    (hextract : msiArchiveExtract J E rows (L.entryAt data) (.ofText archive) (.ofText target)
      extractIn resourceIn s = .ok r) (hstatus : r.status.isNeg = false) :
    LaidOut archive m.coll target m.tree m.nodes s r.session := by
  obtain ⟨data', hdata', hproduced⟩ := whole_of_reaches hrun hknown
  obtain rfl := Node.obj.inj (Option.some.inj (hdata.symm.trans hdata'))
  exact Snapshot.laidOut hL hJ hproduced hE hfits hall hextract hstatus

end Run

namespace Sample

/-- What the tree is archived as. -/
def snapshot : Snapshot JsonText.codec "/z/x.tar".toList :=
  ⟨server (catalog object), coll, tree object, nodes, source_tree⟩

/-- **A run**: the tree is archived, and others change all places but that of the archive. -/
theorem reaches_before : ∃ (data : Bytes) (known : Archives JsonText.codec),
    Reaches ArchiveText.library ((fun _ => none : Archives JsonText.codec), .fresh nodes)
        (known, before data)
      ∧ known "/z/x.tar".toList = some snapshot
      ∧ ∃ a s₁ r, openArchive JsonText.codec .obliging (ArchiveText.library.entryAt data)
          "/z/x.tar".toList (before data) = .ok (some a, s₁)
        ∧ msiArchiveExtract JsonText.codec .obliging (fun _ => .ok [])
          (ArchiveText.library.entryAt data) (.ofText "/z/x.tar".toList) (.ofText "/z/t".toList)
          noParam noParam (before data) = .ok r
        ∧ r.status = .num 0 := by
  obtain ⟨r, hr, hstatus⟩ := create_succeeds
  have hfine : (server (catalog object)).Fine r.walk := (server_reliable _).fine r.walk
  obtain ⟨data, hdata, -, hopens⟩ := created_opens source_tree (by decide) hr hstatus hfine
  obtain ⟨b, hb, hitems, hentries⟩ := hopens (show (before data).objOpen .obliging
    "/z/x.tar".toList false none = (.ok (), _) from rfl)
  obtain ⟨r', hr', hstatus'⟩ := extract_tree rfl hb hitems hentries
  have harchived : ServiceStep ArchiveText.library
      ((fun _ => none : Archives JsonText.codec), .fresh nodes) _ :=
    .archived source_tree (by decide) hr hstatus hfine
      (complete_of_willing Irods.obliging_willing rfl (by decide) hr hstatus)
  refine ⟨data, _, (Relation.ReflTransGen.single harchived).tail
    (.other (D := fun p => p ≠ "/z/x.tar".toList) (fun q hq => ?_)), ?_, b, _, r', hb, hr',
    hstatus'⟩
  · obtain rfl := not_not.mp hq
    exact hdata.symm
  · rw [Archives.forget_of_not (not_not_intro rfl), Function.update_self]
    rfl

end Sample

/-- The index of the archive of the tree, told after others have changed all else. -/
theorem archives_tell_index_sample : ∃ (data : Bytes) (r : Indexed),
    msiArchiveIndex JsonText.codec .obliging (ArchiveText.library.entryAt data)
        (.ofText "/z/x.tar".toList) (Sample.before data) = .ok r
      ∧ r.status = .num 0 ∧ r.indexOut = some (JsonText.codec.text 2 Sample.snapshot.index) := by
  obtain ⟨data, known, hrun, hknown, -⟩ := Sample.reaches_before
  obtain ⟨r, hr, -, -, htold⟩ := archives_tell_index ArchiveText.library_readsBack
    JsonText.codec_lawful hrun hknown (by decide) rfl .obliging
  obtain ⟨hstatus, hindex, -⟩ := htold rfl
  exact ⟨data, r, hr, hstatus, hindex⟩

/-- The tree, extracted after that. -/
theorem archives_extract_sample : ∃ (data : Bytes) (r : Extracted),
    msiArchiveExtract JsonText.codec .obliging (fun _ => .ok [])
        (ArchiveText.library.entryAt data) (.ofText "/z/x.tar".toList) (.ofText "/z/t".toList)
        Sample.noParam Sample.noParam (Sample.before data) = .ok r
      ∧ LaidOut "/z/x.tar".toList Sample.coll "/z/t".toList (Sample.tree Sample.object)
        Sample.nodes (Sample.before data) r.session := by
  obtain ⟨data, known, hrun, hknown, -, -, r, -, hr, hstatus⟩ := Sample.reaches_before
  refine ⟨data, r, hr, archives_extract ArchiveText.library_readsBack JsonText.codec_lawful hrun
    hknown rfl Irods.obliging_honest ⟨by decide, by decide⟩ rfl hr ?_⟩
  rw [hstatus]
  rfl
