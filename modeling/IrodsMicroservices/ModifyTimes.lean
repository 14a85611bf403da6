import IrodsMicroservices.ArchiveStore
import IrodsMicroservices.Registers
import IrodsMicroservices.Retry
import IrodsMicroservices.SingleExtract

/-!
# Modify times

The modify time of a data object is that of the last change of its data, which iRODS takes
from its clock when the object is created, truncated, written or closed, or the one that
`rsModDataObjMeta` has set since. An extraction sets the archived time of each data object
after the object is closed and before it goes on to the next one, so that nothing it asks
for later may change it again.

The times are registers under the log of the requests: one that is set is known, and one
taken from the clock is not.
-/

open Session

/-- The path a request is about. -/
def Request.path : Request → Text
  | .collCreate path _ => path
  | .objOpen path _ _ => path
  | .objCreate path _ => path
  | .objRead path => path
  | .objWrite path _ => path
  | .objClose path => path
  | .modDataObjMeta path _ => path
  | .modAvuMetadata _ _ path _ _ _ => path

/-- The modify time a request gives: none is one of the clock. -/
def Request.time : Request × Bool → Option (Option ℤ)
  | (.objOpen _ true _, true) => some none
  | (.objCreate _ _, true) => some none
  | (.objWrite _ _, _) => some none
  | (.objClose _, _) => some none
  | (.modDataObjMeta _ modified, true) => some (some modified)
  | _ => none

/-- **The modify times after a log.** -/
def times : Registers Text (Request × Bool) (Option ℤ) := ⟨fun q => q.1.path, Request.time⟩

/-- **All requests between two states are of a kind.** -/
def Logs (P : Request × Bool → Prop) (s s' : Session) : Prop :=
  ∃ log, s.Since s' log ∧ ∀ q ∈ log, P q

section Logs

variable {P : Request × Bool → Prop} {s t u : Session}

theorem Logs.refl (P : Request × Bool → Prop) (s : Session) : Logs P s s :=
  ⟨[], .refl s, List.forall_mem_nil _⟩

theorem Logs.trans (h : Logs P s t) (h' : Logs P t u) : Logs P s u := by
  obtain ⟨log, hlog, hP⟩ := h
  obtain ⟨log', hlog', hP'⟩ := h'
  exact ⟨log ++ log', hlog.trans hlog', List.forall_mem_append.mpr ⟨hP, hP'⟩⟩

theorem Logs.of_since {r : Request} (h : ∃ b, s.Since t [(r, b)]) (hP : ∀ b, P (r, b)) :
    Logs P s t := by
  obtain ⟨b, hlog⟩ := h
  exact ⟨_, hlog, List.forall_mem_singleton.mpr (hP b)⟩

end Logs

/-- About one path. -/
def AtPath (path : Text) (q : Request × Bool) : Prop := q.1.path = path

section Extract

variable {E : Irods} {headers : ℕ → HeaderResult} {resource : Option Text} {target : Text}

theorem logs_creat (E : Irods) (path : Text) (resource : Option Text) (s : Session) :
    Logs (AtPath (Text.rstrcpy path)) s (creat E path resource s).2 := by
  have hopen : Logs (AtPath (Text.rstrcpy path)) s
      (s.objOpen E (Text.rstrcpy path) true resource).2 :=
    .of_since (since_objOpen ..) (fun _ => rfl)
  unfold creat
  split
  · rename_i h
    rwa [h] at hopen
  · rename_i f t h
    rw [h] at hopen
    split
    · exact hopen.trans (.of_since (since_objCreate ..) (fun _ => rfl))
    · exact hopen

theorem logs_writeBlocks (E : Irods) (path : Text) (fails : Bool) (blocks : List Bytes) :
    ∀ s, Logs (AtPath path) s (writeBlocks E path fails blocks s).2 := by
  have hclose : ∀ s : Session, Logs (AtPath path) s (s.objClose E path).2 :=
    fun s => .of_since (since_objClose ..) (fun _ => rfl)
  induction blocks with
  | nil =>
    intro s
    unfold writeBlocks
    split
    · exact hclose s
    · exact hclose s
  | cons block blocks ih =>
    intro s
    cases block with
    | nil => exact hclose s
    | cons b buf =>
      have hwrite : Logs (AtPath path) s (s.objWrite E path (b :: buf)).2 :=
        .of_since (since_objWrite ..) (fun _ => rfl)
      unfold writeBlocks
      split
      · rename_i f t h
        rw [h] at hwrite
        exact hwrite.trans (hclose t)
      · rename_i n t h
        rw [h] at hwrite
        exact hwrite.trans (ih t)

/-- An item is extracted with requests about its path. -/
theorem logs_extractItem (E : Irods) (resource : Option Text) (e : ReadEntry) (file : Text)
    (s : Session) :
    Logs (AtPath (Text.rstrcpy file)) s (extractItem E resource e file s).2 := by
  unfold extractItem
  split
  · have hcreate : Logs (AtPath (Text.rstrcpy file)) s
        (s.collCreate E (Text.rstrcpy file) false).2 :=
      .of_since (since_collCreate ..) (fun _ => rfl)
    split
    · rename_i f t h
      rw [h] at hcreate
      split
      · exact hcreate
      · exact hcreate
    · exact hcreate
  · have hcreat := logs_creat E file resource s
    split
    · rename_i f t h
      rwa [h] at hcreat
    · rename_i t h
      rw [h] at hcreat
      exact hcreat.trans (logs_writeBlocks E _ e.fails e.blocks t)

/-- About one path, with no effect on its modify time. -/
def Timeless (path : Text) (q : Request × Bool) : Prop := q.1.path = path ∧ Request.time q = none

/-- Attributes have no effect on the modify time. -/
theorem logs_attributesLoop (file : Text) (isColl : Bool) (list : List Json) :
    ∀ {prev : Option Text} {s s' : Session}, attributesLoop E file isColl prev list s = .ok s' →
      Logs (Timeless file) s s' := by
  induction list with
  | nil =>
    intro prev s s' h
    obtain rfl := Except.ok.inj h
    exact .refl _ _
  | cons json list ih =>
    intro prev s s' h
    unfold attributesLoop at h
    dsimp only at h
    split at h
    · cases h
    · exact .trans (.of_since (since_modAvuMetadata ..) (fun _ => ⟨rfl, rfl⟩)) (ih h)

/-- **What the metadata of an item ask for**: for a data object first its modify time, and
for the rest nothing that has an effect on it. -/
theorem logs_setMetadata (hE : ∀ n, E.deny n = none) {file : Text}
    (hfits : file.length < Text.maxNameLen) {json : Json} {s s' : Session}
    (h : setMetadata E file json s = .ok s') :
    ∃ t, Logs (Timeless file) t s'
      ∧ (json.stringMember "type".toList = some "coll".toList → t = s)
      ∧ (json.stringMember "type".toList ≠ some "coll".toList → s.Since t
        [(.modDataObjMeta file (json.integerMember "modified".toList), true)]) := by
  unfold setMetadata at h
  cases htype : json.stringMember "type".toList with
  | none =>
    rw [htype] at h
    cases h
  | some type =>
    rw [htype] at h
    dsimp only at h
    have hmodify : s.Since (s.modify E file json)
        [(.modDataObjMeta file (json.integerMember "modified".toList), true)] := by
      unfold Session.modify modDataObjMeta
      rw [Text.rstrcpy_of_fits hfits, request_of_willing hE]
      rfl
    have hlists : Logs (Timeless file)
        (if decide (type = "coll".toList) = true then s else s.modify E file json) s' := by
      split at h
      · obtain rfl := Except.ok.inj h
        exact .refl _ _
      · exact logs_attributesLoop _ _ _ h
    refine ⟨_, hlists, fun hcoll => ?_, fun hcoll => ?_⟩
    · rw [if_pos (decide_eq_true (Option.some.inj hcoll))]
    · rw [if_neg (fun hd => hcoll (congrArg some (of_decide_eq_true hd)))]
      exact hmodify

/-- **An item that is extracted asks for nothing but about its path**, and a data object
has its archived modify time then. -/
theorem times_extractEntry (hE : ∀ n, E.deny n = none) {file : Text}
    (hfits : file.length < Text.maxNameLen) {e : ReadEntry} {json : Json} {s s' : Session}
    (h : extractEntry E resource file e json s = .ok (.ok (), s')) :
    ∃ log, s.Since s' log ∧ (∀ q ∈ log, AtPath file q)
      ∧ (json.stringMember "type".toList ≠ some "coll".toList → ∀ v,
        times.read file log v = some (json.integerMember "modified".toList)) := by
  obtain ⟨t, hitem, hset⟩ := extractEntry_ok_iff.mp h
  have hextract := logs_extractItem E resource e file s
  rw [hitem, Text.rstrcpy_of_fits hfits] at hextract
  obtain ⟨log, hlog, hpaths⟩ := hextract
  obtain ⟨u, ⟨log', hlog', htimeless⟩, hcoll, hobj⟩ := logs_setMetadata hE hfits hset
  by_cases htype : json.stringMember "type".toList = some "coll".toList
  · obtain rfl := hcoll htype
    exact ⟨log ++ log', hlog.trans hlog', List.forall_mem_append.mpr
      ⟨hpaths, fun q hq => (htimeless q hq).1⟩, fun hne => absurd htype hne⟩
  · have hmodify := hobj htype
    refine ⟨log ++ (_ :: log'), hlog.trans (hmodify.trans hlog'), ?_, fun _ v => ?_⟩
    · exact List.forall_mem_append.mpr ⟨hpaths, List.forall_mem_cons.mpr
        ⟨rfl, fun q hq => (htimeless q hq).1⟩⟩
    · have hput : times.put (.modDataObjMeta file (json.integerMember "modified".toList), true)
          = some (some (json.integerMember "modified".toList)) := rfl
      exact times.read_last rfl hput (fun q hq _ => (htimeless q hq).2) log v

/-- A name of an item of its own is at no place of the others. -/
theorem not_placeOf_cons {json : Json} {items : List Json} {name : Text}
    (hdistinct : NamesDistinct (json :: items))
    (hname : json.stringMember "name".toList = some name) :
    ¬ PlaceOf target items (Text.join target name) := by
  rintro ⟨item, hitem, name', hname', hjoin⟩
  obtain rfl := Text.join_right_injective target hjoin
  exact (List.nodup_cons.mp hdistinct).1 (List.mem_map.mpr ⟨item, hitem, hname'.trans hname.symm⟩)

/-- **The items extracted one after the other**: each data object keeps the time it has
been given, since the items after it have names of their own. -/
theorem Passes.timed (hE : ∀ n, E.deny n = none) {items : List Json} {n : ℕ} {s u : Session}
    (h : Passes E headers resource target items n s u) (hdistinct : NamesDistinct items)
    (hfits : PathsFit target items) :
    ∃ log, s.Since u log ∧ (∀ q ∈ log, PlaceOf target items q.1.path)
      ∧ ∀ item ∈ items, item.stringMember "type".toList ≠ some "coll".toList →
        ∀ name, item.stringMember "name".toList = some name → ∀ v,
          times.read (Text.join target name) log v
            = some (item.integerMember "modified".toList) := by
  induction h with
  | nil n s => exact ⟨[], .refl s, List.forall_mem_nil _, List.forall_mem_nil _⟩
  | @cons json items n e name s t u hheader hname hentry hrest ih =>
    obtain ⟨log, hlog, hpaths, htime⟩ :=
      times_extractEntry hE (hfits json List.mem_cons_self name hname) hentry
    obtain ⟨log', hlog', hplaces, htimes⟩ := ih (List.nodup_cons.mp hdistinct).2
      (fun item hitem => hfits item (List.mem_cons_of_mem _ hitem))
    refine ⟨log ++ log', hlog.trans hlog', List.forall_mem_append.mpr ⟨fun q hq => ?_,
      fun q hq => ?_⟩, List.forall_mem_cons.mpr ⟨fun htype name' hname' v => ?_,
      fun item hitem htype name' hname' v => ?_⟩⟩
    · exact ⟨json, List.mem_cons_self, name, hname, hpaths q hq⟩
    · obtain ⟨item, hitem, hplace⟩ := hplaces q hq
      exact ⟨item, List.mem_cons_of_mem _ hitem, hplace⟩
    · obtain rfl := Option.some.inj (hname.symm.trans hname')
      rw [times.read_append, times.read_untouched (fun q hq hkey => ?_), htime htype]
      have hplace := hplaces q hq
      rw [show q.1.path = Text.join target name from hkey] at hplace
      exact absurd hplace (not_placeOf_cons hdistinct hname)
    · rw [times.read_append]
      exact htimes item hitem htype name' hname' _

end Extract

/-! ## The archived times -/

namespace CollTree

/-- The calls of the rows of a data object that is archived are archived. -/
theorem mem_archived_of_row {K : Catalog} {J : Jansson} {archive coll : Text} {t : CollTree}
    (hs : t.Shows K coll) {p : Text × DataObject} (hp : p ∈ t.archivable archive coll)
    {c : ArchiveCall} (hc : c ∈ rowCalls J p) : c ∈ t.archived K J archive coll := by
  have hflat := (dataObj_calls_perm (J := J) archive hs).mem_iff.mpr
    (List.mem_flatMap.mpr ⟨p, hp, hc⟩)
  obtain ⟨hcall, hkind⟩ := List.mem_filter.mp hflat
  rw [Bool.and_eq_true, Bool.not_eq_true', Bool.not_eq_true'] at hkind
  exact List.mem_filter.mpr ⟨hcall, congrArg not hkind.2⟩

end CollTree

/-- The member `modified` of the item of a data object. -/
theorem ArchiveCall.item_modified (J : Jansson) (name : Text) (size : BitVec 64)
    (created modified : ℤ) (owner zone checksum : Text) (attributes acl : Option Json) :
    ((addDataObj name size created modified owner zone checksum attributes acl).item
      J).integerMember
      "modified".toList = modified := by
  have hmember : ∀ o : Json, o.isObject = true →
      (o.objectSetNew "modified".toList (some (Json.integer modified))).objectGet "modified".toList
        = some (.integer modified) :=
    fun o ho => Json.objectGet_objectSetNew_self ho _
  have hget : ((addDataObj name size created modified owner zone checksum attributes acl).item
      J).objectGet "modified".toList = some (.integer modified) := by
    unfold item
    simp (disch := decide) only [WriteArchive.dataObjItem, WriteArchive.setLists,
      objectGet_ite_objectSetNew, Json.objectGet_objectSetNew_of_ne]
    refine hmember _ ?_
    simp only [Json.isObject_objectSetNew]
    rfl
  rw [Json.integerMember, hget]
  rfl

namespace Snapshot

variable {L : Libarchive} {J : Jansson} {archive : Text} {m : Snapshot J archive} {data : Bytes}

/-- The names in an index are all different. -/
theorem archived_nodup (m : Snapshot J archive) : (m.archived.map ArchiveCall.name).Nodup := by
  have hall := (CollTree.names_calls_perm (J := J) m.source.shows m.source.oneRow).nodup_iff.mpr
    m.source.distinct
  exact hall.sublist (List.filter_sublist.map ArchiveCall.name)

/-- **The items of a whole archive, passed by the loop**, with their names. -/
theorem passed (hL : L.ReadsBack) (hJ : J.Lawful)
    (h : Produced L J archive m.coll m.calls m.nodes data) {E : Irods} {path target : Text}
    {b : ReadArchive} {s s₁ t : Session}
    (hopen : openArchive J E (L.entryAt data) path s = .ok (some b, s₁)) {resource : Option Text}
    {space : ℤ} {status : Status} {loop : Extraction}
    (hloop : extractLoop E (L.entryAt data) resource none target space b.items 1 status t
      = .ok loop)
    (hstatus : loop.status.isNeg = false) :
    Passes E (L.entryAt data) resource target b.items 1 t loop.session
      ∧ b.items.map (fun item => item.stringMember "name".toList)
        = (m.archived.map ArchiveCall.name).map some := by
  have hpass := passes_of_loop (fun k hk => by
    obtain ⟨c, hc, -⟩ := h.call_of_item hL hJ hopen (List.getElem?_eq_getElem hk)
    obtain ⟨e, he, -⟩ := h.header hL hJ hc
    exact ⟨e, he⟩) hloop hstatus
  exact ⟨hpass, (h.passed hL hJ hopen hpass).2⟩

/-- A name of an item in the index is that of an archived call. -/
theorem mem_archived_of_names {items : List Json}
    (hnames : items.map (fun item => item.stringMember "name".toList)
      = (m.archived.map ArchiveCall.name).map some) {name : Text} :
    (∃ item ∈ items, item.stringMember "name".toList = some name)
      ↔ ∃ c ∈ m.archived, c.name = name := by
  have hin := congrArg (fun names => some name ∈ names) hnames
  rw [List.mem_map_of_injective (Option.some_injective _), List.mem_map, List.mem_map] at hin
  exact iff_of_eq hin

/-- **The items of a snapshot** have names of their own, which fit where the paths of the
tree do. -/
theorem items_fit {items : List Json} {target : Text}
    (hnames : items.map (fun item => item.stringMember "name".toList)
      = (m.archived.map ArchiveCall.name).map some)
    (hfits : ∀ name ∈ m.tree.paths, (Text.join target name).length < Text.maxNameLen) :
    NamesDistinct items ∧ PathsFit target items := by
  constructor
  · unfold NamesDistinct
    rw [hnames]
    exact m.archived_nodup.map (Option.some_injective _)
  · intro item hitem name hname
    obtain ⟨c, hc, rfl⟩ := (mem_archived_of_names hnames).mp ⟨item, hitem, hname⟩
    exact hfits _ (CollTree.name_mem_paths m.source.shows m.source.oneRow hc)

/-- The name of a data object that is archived is one of the paths of the tree. -/
theorem mem_paths {p : Text × DataObject} (hp : p ∈ m.tree.archivable archive m.coll) :
    p.1 ∈ m.tree.paths := by
  obtain ⟨c, hc, -, hname⟩ := CollTree.mem_archived_of_archivable (J := J) m.source.shows hp
  rw [← hname]
  exact CollTree.name_mem_paths m.source.shows m.source.oneRow hc

/-- **The item of an archived call**, as it is found in the index. -/
theorem item_of_call (hL : L.ReadsBack) (hJ : J.Lawful)
    (h : Produced L J archive m.coll m.calls m.nodes data) {E : Irods} {path : Text}
    {b : ReadArchive} {s s₁ : Session}
    (hopen : openArchive J E (L.entryAt data) path s = .ok (some b, s₁)) {c : ArchiveCall}
    (hc : c ∈ m.archived) :
    ∃ item ∈ b.items, item.stringMember "name".toList = some c.name ∧ (c.item J).Valid
      ∧ item.Valid ∧ (c.item J).equal item = true := by
  obtain ⟨k, hk⟩ := List.mem_iff_getElem?.mp hc
  obtain ⟨hitems, -⟩ := h.opened_equal hL hJ hopen
  obtain ⟨hlt, hget⟩ := List.getElem?_eq_some_iff.mp hk
  have hlt' : k < b.items.length := by
    rw [← hitems.length_eq]
    exact hlt
  obtain ⟨hv, hw, hequal⟩ := hitems.get hlt hlt'
  rw [List.get_eq_getElem] at hv hequal
  rw [show (indexed archive m.coll m.calls)[k] = c from hget] at hv hequal
  refine ⟨b.items.get ⟨k, hlt'⟩, List.get_mem _ _, ?_, hv, hw, hequal⟩
  rw [← Json.stringMember_of_equal hv hw hequal]
  exact ArchiveCall.item_nameText
    (m.source.utf8 _ (CollTree.name_mem_paths m.source.shows m.source.oneRow hc))

/-- **The item of a data object**, as it is found in the index. -/
theorem item_of_row (hL : L.ReadsBack) (hJ : J.Lawful)
    (h : Produced L J archive m.coll m.calls m.nodes data) {E : Irods} {path : Text}
    {b : ReadArchive} {s s₁ : Session}
    (hopen : openArchive J E (L.entryAt data) path s = .ok (some b, s₁)) {p : Text × DataObject}
    (hp : p ∈ m.tree.archivable archive m.coll) {row : DataRow} (hrow : row ∈ p.2.rows) :
    ∃ item ∈ b.items, item.stringMember "name".toList = some p.1
      ∧ item.stringMember "type".toList ≠ some "coll".toList
      ∧ item.integerMember "modified".toList = row.modified := by
  have hmem := CollTree.mem_archived_of_row (J := J) m.source.shows hp (List.mem_map_of_mem hrow)
  obtain ⟨item, hitem, hname, hv, hw, hequal⟩ := item_of_call hL hJ h hopen hmem
  refine ⟨item, hitem, hname, ?_, ?_⟩
  · have hne : some "dataObj".toList ≠ some "coll".toList := by decide
    rw [← Json.stringMember_of_equal hv hw hequal, ArchiveCall.item_typeText hJ]
    exact hne
  · rw [← Json.integerMember_of_equal hv hw hequal, ArchiveCall.item_modified]

end Snapshot

/-- **Modify times survive archiving**: an extraction of all of an archive, at any time in
any run, leaves each data object with the modify time that the catalog had for it when the
archive was made. -/
theorem archives_restore_times {L : Libarchive} {J : Jansson} {known : Archives J}
    {s s₀ : Session} {archive : Text} {m : Snapshot J archive} {data : Bytes} (hL : L.ReadsBack)
    (hJ : J.Lawful) (hrun : Reaches L ((fun _ => none : Archives J), s₀) (known, s))
    (hknown : known archive = some m) (hdata : s.nodes archive = some (.obj data)) {E : Irods}
    (hE : E.Serves) {rows : SpaceQuery} {target : Text} {extractIn resourceIn : MsParam}
    {r : Extracted} (hfits : target.length < Text.maxNameLen
      ∧ ∀ name ∈ m.tree.paths, (Text.join target name).length < Text.maxNameLen)
    (hapart : ∀ name ∈ m.tree.paths, archive ≠ Text.join target name)
    (hall : extractIn.parseMspForStr = none)
    (hextract : msiArchiveExtract J E rows (L.entryAt data) (.ofText archive) (.ofText target)
      extractIn resourceIn s = .ok r) (hstatus : r.status.isNeg = false) :
    ∃ log, s.Since r.session log ∧ ∀ p ∈ m.tree.archivable archive m.coll, ∀ row ∈ p.2.rows,
      ∀ v, times.read (Text.join target p.1) log v = some row.modified := by
  obtain ⟨data', hdata', hproduced⟩ := whole_of_reaches hrun hknown
  obtain rfl := Node.obj.inj (Option.some.inj (hdata.symm.trans hdata'))
  obtain ⟨_, _, b, s₁, loop, harchive, htarget, hopen, -, hloop, rfl⟩ :=
    msiArchiveExtract_spec hextract hstatus
  obtain rfl := MsParam.eq_of_parseMspForStr harchive
  obtain rfl := MsParam.eq_of_parseMspForStr htarget
  rw [hall, Text.rstrcpy_of_fits hfits.1] at hloop
  obtain ⟨hpass, hnames⟩ := Snapshot.passed hL hJ hproduced hopen hloop hstatus
  obtain ⟨hdistinct, hitems⟩ := Snapshot.items_fit hnames hfits.2
  obtain ⟨log, hlog, -, htimes⟩ := hpass.timed (fun n => (hE n).1) hdistinct hitems
  obtain ⟨hobj, hpath, -⟩ := openArchive_spec hopen
  obtain ⟨o, hopened⟩ := since_objOpen E (Text.rstrcpy archive) false none s
  rw [hobj] at hopened
  obtain ⟨c, hmade⟩ := since_collCreate E target false s₁
  obtain ⟨e, hclosed⟩ := since_objClose E b.path loop.session
  refine ⟨_, hopened.trans (hmade.trans (hlog.trans hclosed)), fun p hp row hrow v => ?_⟩
  obtain ⟨item, hitem, hname, htype, hmodified⟩ :=
    Snapshot.item_of_row hL hJ hproduced hopen hp hrow
  -- the close of the archive is about another path
  have hlast : ∀ q ∈ [(Request.objClose b.path, e)], times.key q = Text.join target p.1 →
      times.put q = none := by
    rw [List.forall_mem_singleton]
    intro hkey
    refine absurd ?_ (hapart p.1 (Snapshot.mem_paths hp))
    rw [← show b.path = Text.join target p.1 from hkey, hpath, Text.rstrcpy_of_fits hproduced.fits]
  rw [times.read_append, times.read_append, times.read_append, times.read_untouched hlast,
    htimes item hitem htype p.1 hname, hmodified]

/-- The modify time of the data object of the tree, extracted after others have changed
all but the archive. -/
theorem archives_restore_times_sample : ∃ (data : Bytes) (r : Extracted)
    (log : List (Request × Bool)),
    msiArchiveExtract JsonText.codec .obliging (fun _ => .ok [])
        (ArchiveText.library.entryAt data) (.ofText "/z/x.tar".toList) (.ofText "/z/t".toList)
        Sample.noParam Sample.noParam (Sample.before data) = .ok r
      ∧ (Sample.before data).Since r.session log
      ∧ ∀ p ∈ (Sample.tree Sample.object).archivable "/z/x.tar".toList Sample.coll,
        ∀ row ∈ p.2.rows,
          times.read (Text.join "/z/t".toList p.1) log none = some row.modified := by
  obtain ⟨data, known, hrun, hknown, -, -, r, -, hr, hstatus⟩ := Sample.reaches_before
  obtain ⟨log, hlog, htimes⟩ := archives_restore_times ArchiveText.library_readsBack
    JsonText.codec_lawful hrun hknown rfl Irods.obliging_serves ⟨by decide, by decide⟩ (by decide)
    rfl hr (by rw [hstatus]; rfl)
  exact ⟨data, r, log, hr, hlog, fun p hp row hrow => htimes p hp row hrow none⟩
