import IrodsMicroservices.HostFiles

/-!
# The listing of a directory

`msiDirList` goes through a directory and asks of each entry what it is and when it was
last written. The first question has an answer for a link that leads nowhere, and the code
has a type for such a link; the second one has none, and what is thrown then discards the
whole listing. A listing is therefore complete exactly where no link of the directory is
dangling (`listing_complete_iff`).

The content of a directory is given apart from what is told about it (`FileState.Shows`),
and the directories of a host are told about in this way (`Host.files_shows`).
-/

open LexicalPath

/-! ## What is in a directory -/

/-- What an entry is, or what it leads to. -/
inductive InodeKind
  | file (size : ℕ)
  | dir (names : List Text)
  | special

/-- What an entry is, and when it was last written. -/
structure Inode where
  kind : InodeKind
  mtime : ℤ

/-- What stands in a directory under a name: a link may be dangling. -/
inductive Content
  | inode (i : Inode)
  | link (target : Option Inode)

namespace InodeKind

/-- The type `status` tells. -/
def fileType : InodeKind → FileType
  | file _ => .regular
  | dir _ => .directory
  | special => .other

end InodeKind

namespace Content

/-- What is there once links have been followed. -/
def target : Content → Option Inode
  | inode i => some i
  | link target => target

/-- Whether it is a link. -/
def isLink : Content → Bool
  | inode _ => false
  | link _ => true

end Content

namespace FileState

/-- **What is told about a directory with some entries.** `status` and `last_write_time`
follow links; `status` finds nothing where a link is dangling, and `last_write_time`
throws. -/
structure Shows (F : FileState) (path : Text) (entries : List (Text × Content)) : Prop where
  names : F.names path = .ok (entries.map Prod.fst)
  nodup : (entries.map Prod.fst).Nodup
  status : ∀ e ∈ entries, F.status (Host.appendPath path e.1)
    = .ok (e.2.target.map fun i => i.kind.fileType)
  isSymlink : ∀ e ∈ entries, F.isSymlink (Host.appendPath path e.1) = .ok e.2.isLink
  fileSize : ∀ e ∈ entries, ∀ size mtime, e.2.target = some ⟨.file size, mtime⟩ →
    F.fileSize (Host.appendPath path e.1) = .ok size
  subdirectory : ∀ e ∈ entries, ∀ names mtime, e.2.target = some ⟨.dir names, mtime⟩ →
    F.names (Host.appendPath path e.1) = .ok names
  lastWriteTime : ∀ e ∈ entries, ∀ i, e.2.target = some i →
    F.lastWriteTime (Host.appendPath path e.1) = .ok i.mtime
  dangling : ∀ e ∈ entries, e.2.target = none →
    F.lastWriteTime (Host.appendPath path e.1) = .error {}

/-- An element of the list is about an entry: it has its path and its name, and the type of
a link where that is dangling. -/
structure About (path : Text) (e : Text × Content) (d : Host.DirEntry) : Prop where
  path : d.path = Host.appendPath path e.1
  name : d.name = e.1
  symlink : e.2 = .link none → d.type = some .symlink

/-- **The listing is complete**: one element for each entry, and no two for one path. -/
structure DirList.Complete (path : Text) (entries : List (Text × Content)) (r : DirList) :
    Prop where
  status : r.status = .num 0
  list : ∃ list, r.list = some list ∧ (list.map Host.DirEntry.path).Nodup
    ∧ List.Forall₂ (About path) entries list

/-! ## One entry -/

variable {F : FileState} {path : Text} {entries : List (Text × Content)} {e : Text × Content}

/-- An entry that leads somewhere is listed, for each kind of it. -/
theorem dirEntry_shown (h : F.Shows path entries) (he : e ∈ entries) {i : Inode}
    (htarget : e.2.target = some i) : ∃ d, F.dirEntry path e.1 = .ok d ∧ About path e d := by
  have hstatus := h.status e he
  have htime := h.lastWriteTime e he i htarget
  have hdangling : e.2 ≠ .link none := by
    intro hlink
    rw [hlink] at htarget
    exact nomatch htarget
  rw [htarget] at hstatus
  obtain ⟨kind, mtime⟩ := i
  cases kind with
  | file size =>
    have hsize := h.fileSize e he size mtime htarget
    exact ⟨_, dirEntry_ok hstatus rfl (congrArg (Except.map some) hsize) rfl htime, rfl, rfl,
      fun hlink => absurd hlink hdangling⟩
  | dir names =>
    have hnames := h.subdirectory e he names mtime htarget
    exact ⟨_, dirEntry_ok hstatus rfl rfl (congrArg (Except.map _) hnames) htime, rfl, rfl,
      fun hlink => absurd hlink hdangling⟩
  | special =>
    have hlink := h.isSymlink e he
    exact ⟨_, dirEntry_ok hstatus (congrArg (Except.map _) hlink) rfl rfl htime, rfl, rfl,
      fun hlink => absurd hlink hdangling⟩

/-- What is appended to a path is told apart. -/
theorem appendPath_injective (path : Text) : Function.Injective (Host.appendPath path) := by
  intro x y h
  unfold Host.appendPath at h
  split at h
  · exact List.append_cancel_left h
  · exact Text.join_right_injective path h

/-! ## All entries -/

/-- Where no link is dangling all entries are listed. -/
theorem listing_shown (h : F.Shows path entries) (hall : ∀ e ∈ entries, e.2 ≠ .link none) :
    ∃ list, F.listing path = .ok list ∧ List.Forall₂ (About path) entries list := by
  have hmap : ∀ es : List (Text × Content), (∀ e ∈ es, e ∈ entries) →
      ∃ list, (es.map Prod.fst).mapM (F.dirEntry path) = .ok list
        ∧ List.Forall₂ (About path) es list := by
    intro es
    induction es with
    | nil => exact fun _ => ⟨[], rfl, .nil⟩
    | cons e es ih =>
      intro hes
      rw [List.forall_mem_cons] at hes
      obtain ⟨i, htarget⟩ : ∃ i, e.2.target = some i := by
        cases hcontent : e.2 with
        | inode i => exact ⟨i, rfl⟩
        | link target =>
          cases target with
          | none => exact absurd hcontent (hall e hes.1)
          | some i => exact ⟨i, rfl⟩
      obtain ⟨d, hd, habout⟩ := dirEntry_shown h hes.1 htarget
      obtain ⟨list, hlist, hforall⟩ := ih hes.2
      rw [List.map_cons, List.mapM_cons, hd, hlist]
      exact ⟨d :: list, rfl, .cons habout hforall⟩
  obtain ⟨list, hlist, hforall⟩ := hmap entries fun e he => he
  refine ⟨list, ?_, hforall⟩
  unfold listing
  rw [h.names]
  exact hlist

/-- One dangling link, and nothing is listed. -/
theorem listing_dangling (h : F.Shows path entries) (he : e ∈ entries)
    (hdangling : e.2 = .link none) : ∃ err, F.listing path = .error err := by
  have hentry := dirEntry_of_lastWriteTime_error (h.dangling e he (by rw [hdangling]; rfl))
  have hnone : ((entries.map Prod.fst).mapM (F.dirEntry path)).toOption = none :=
    Except.toOption_mapM_eq_none (List.mem_map_of_mem he) hentry
  unfold listing
  rw [h.names]
  show ∃ err, (entries.map Prod.fst).mapM (F.dirEntry path) = .error err
  cases hrun : (entries.map Prod.fst).mapM (F.dirEntry path) with
  | error err => exact ⟨err, rfl⟩
  | ok list =>
    rw [hrun] at hnone
    exact nomatch hnone

/-- The paths of a complete list are told apart as the names are. -/
theorem nodup_paths {list : List Host.DirEntry} (h : List.Forall₂ (About path) entries list)
    (hnodup : (entries.map Prod.fst).Nodup) : (list.map Host.DirEntry.path).Nodup := by
  have hpaths : list.map Host.DirEntry.path
      = (entries.map Prod.fst).map (Host.appendPath path) := by
    induction h with
    | nil => rfl
    | cons habout _ ih =>
      rw [List.map_cons, List.map_cons, List.map_cons, habout.path,
        ih (List.nodup_cons.mp hnodup).2]
  rw [hpaths]
  exact hnodup.map (appendPath_injective path)

/-- **Which directories are listed.** Where the checks are passed, the listing is complete
exactly if no link of the directory is dangling. -/
theorem listing_complete_iff {H : Host} {p q l : MsParam} {resource text : Text}
    (hp : p.parseMspForStr = some path) (hq : q.parseMspForStr = some resource)
    (hl : l.parseMspForStr = some text) (hallowed : F.ListAllowed H path resource)
    (h : F.Shows path entries) :
    (∃ r, F.msiDirList H p q l = .ok r ∧ r.Complete path entries)
      ↔ ∀ e ∈ entries, e.2 ≠ .link none := by
  unfold msiDirList
  rw [dirListChecks_eq_ok F hp hq hl hallowed]
  constructor
  · rintro ⟨r, hr, hcomplete⟩ e he hdangling
    obtain ⟨err, herr⟩ := listing_dangling h he hdangling
    dsimp only at hr
    rw [herr] at hr
    obtain rfl := Except.ok.inj hr
    exact nomatch hcomplete.status
  · intro hall
    obtain ⟨list, hlist, hforall⟩ := listing_shown h hall
    dsimp only
    rw [hlist]
    exact ⟨_, rfl, rfl, list, rfl, nodup_paths hforall h.nodup, hforall⟩

end FileState

/-! ## The directories of a host -/

namespace Host

/-- What stands at a location. -/
def inodeAt (H : Host) (loc : Location) : Inode :=
  ⟨match H.fs.node loc with
    | some (.file data) => .file data.length
    | some .dir => .dir (H.fs.names loc)
    | _ => .special, H.fs.mtime loc⟩

/-- Where an entry of a directory leads. -/
def entryTarget (H : Host) (path x : Text) : Option Inode :=
  match H.fs.resolve H.cwd (appendPath path x) with
  | .ok loc => some (H.inodeAt loc)
  | .error _ => none

/-- What stands in the directory at a location. -/
def content (H : Host) (path : Text) (loc : Location) (x : Text) : Content :=
  match H.fs.node (loc ++ [x]) with
  | some (.link _) => .link (H.entryTarget path x)
  | _ => .inode (H.inodeAt (loc ++ [x]))

theorem fileType_inodeAt {H : Host} {loc : Location} (h : H.fs.Arrived loc) :
    (H.fs.node loc).map FsNode.fileType = some (H.inodeAt loc).kind.fileType := by
  obtain ⟨node, hnode, hlink⟩ := h
  unfold inodeAt
  rw [hnode]
  cases node with
  | link t => exact absurd rfl (hlink t)
  | dir => rfl
  | file data => rfl

/-- What `status` tells of an entry, where it does not lead around in circles. -/
theorem status_entryTarget {H : Host} {path x : Text}
    (h : H.fs.resolve H.cwd (appendPath path x) ≠ .error .loop) :
    H.files.status (appendPath path x)
      = .ok ((H.entryTarget path x).map fun i => i.kind.fileType) := by
  unfold entryTarget
  cases hres : H.fs.resolve H.cwd (appendPath path x) with
  | ok t =>
    rw [(files_of_resolve hres).1, fileType_inodeAt (Filesystem.resolve_arrived hres)]
    rfl
  | error err =>
    have hstatus : H.fileStatus (appendPath path x) = .ok none := by
      unfold fileStatus
      rw [hres]
      cases err with
      | loop => exact absurd hres h
      | noEntry => rfl
      | notDir => rfl
    exact files_status_ok hstatus

/-- An entry that is no link leads to itself. -/
theorem target_content {H : Host} {path x : Text} {loc : Location}
    (hpath : H.fs.resolve H.cwd path = .ok loc) (hx : x ∈ H.fs.names loc) :
    (H.content path loc x).target = H.entryTarget path x
      ∧ (H.content path loc x).isLink = (H.fs.node (loc ++ [x]) matches some (.link _)) := by
  obtain ⟨node, hnode⟩ := Option.ne_none_iff_exists'.mp ((H.fs.mem_names loc x).mp hx)
  unfold content
  rw [hnode]
  cases node with
  | link t => exact ⟨rfl, rfl⟩
  | dir =>
    unfold entryTarget
    rw [Filesystem.resolve_appendPath hpath hnode (by simp)]
    exact ⟨rfl, rfl⟩
  | file data =>
    unfold entryTarget
    rw [Filesystem.resolve_appendPath hpath hnode (by simp)]
    exact ⟨rfl, rfl⟩

/-- **What a host tells about a directory**, where no entry is a link that leads around in
circles. -/
theorem files_shows {H : Host} {path : Text} {loc : Location}
    (hpath : H.fs.resolve H.cwd path = .ok loc) (hdir : H.fs.node loc = some .dir)
    (hloop : ∀ x ∈ H.fs.names loc, H.fs.resolve H.cwd (appendPath path x) ≠ .error .loop) :
    H.files.Shows path ((H.fs.names loc).map fun x => (x, H.content path loc x)) := by
  have hnames : ((H.fs.names loc).map fun x => (x, H.content path loc x)).map Prod.fst
      = H.fs.names loc := by
    rw [List.map_map]
    exact List.map_id _
  have hall : ∀ P : Text × Content → Prop,
      (∀ x ∈ H.fs.names loc, P (x, H.content path loc x)) →
      ∀ e ∈ (H.fs.names loc).map fun x => (x, H.content path loc x), P e := by
    intro P h e he
    obtain ⟨x, hx, rfl⟩ := List.mem_map.mp he
    exact h x hx
  -- an entry that has a target leads to a file or to a directory
  have htarget : ∀ x ∈ H.fs.names loc, ∀ i, (H.content path loc x).target = some i →
      ∃ t, H.fs.resolve H.cwd (appendPath path x) = .ok t ∧ i = H.inodeAt t := by
    intro x hx i hi
    rw [(target_content hpath hx).1] at hi
    unfold entryTarget at hi
    split at hi
    · rename_i t ht
      exact ⟨t, ht, (Option.some.inj hi).symm⟩
    · exact nomatch hi
  refine ⟨?_, by rw [hnames]; exact H.fs.nodup_names loc,
    hall _ fun x hx => ?_, hall _ fun x hx => ?_,
    hall _ fun x hx size mtime hi => ?_, hall _ fun x hx names mtime hi => ?_,
    hall _ fun x hx i hi => ?_, hall _ fun x hx hi => ?_⟩
  · rw [hnames]
    exact (files_of_resolve hpath).2.2.2 hdir
  · dsimp only
    rw [(target_content hpath hx).1]
    exact status_entryTarget (hloop x hx)
  · dsimp only
    rw [(target_content hpath hx).2]
    exact files_isSymlink hpath (H.fs.isName ((H.fs.mem_names loc x).mp hx))
  · obtain ⟨t, hres, hinode⟩ := htarget x hx _ hi
    unfold inodeAt at hinode
    split at hinode
    · rename_i data hnode
      obtain rfl : size = data.length := InodeKind.file.inj (Inode.mk.inj hinode).1
      exact (files_of_resolve hres).2.2.1 data hnode
    · exact nomatch (Inode.mk.inj hinode).1
    · exact nomatch (Inode.mk.inj hinode).1
  · obtain ⟨t, hres, hinode⟩ := htarget x hx _ hi
    unfold inodeAt at hinode
    split at hinode
    · exact nomatch (Inode.mk.inj hinode).1
    · rename_i hnode
      obtain rfl : names = H.fs.names t := InodeKind.dir.inj (Inode.mk.inj hinode).1
      exact (files_of_resolve hres).2.2.2 hnode
    · exact nomatch (Inode.mk.inj hinode).1
  · obtain ⟨t, hres, rfl⟩ := htarget x hx i hi
    exact (files_of_resolve hres).2.1
  · rw [(target_content hpath hx).1] at hi
    unfold entryTarget at hi
    split at hi
    · exact nomatch hi
    · rename_i err hres
      exact files_lastWriteTime_error hres

/-- A directory with two entries, neither of which leads around in circles. -/
theorem not_loop_of_pair {H : Host} {path x y : Text} {loc : Location}
    (hnames : H.fs.names loc = [x, y])
    (hx : H.fs.resolve H.cwd (appendPath path x) ≠ .error .loop)
    (hy : H.fs.resolve H.cwd (appendPath path y) ≠ .error .loop) :
    ∀ z ∈ H.fs.names loc, H.fs.resolve H.cwd (appendPath path z) ≠ .error .loop := by
  rw [hnames, List.forall_mem_cons, List.forall_mem_singleton]
  exact ⟨hx, hy⟩

end Host

namespace Sample

/-- What is in the vault of the sample: a link to a directory, and a file. -/
def vaultContent : List (Text × Content) :=
  [("l".toList, .link (some ⟨.dir [], 0⟩)), ("f".toList, .inode ⟨.file 2, 0⟩)]

theorem linkHost_shows : linkHost.files.Shows "/vault/".toList vaultContent := by
  have hcontent : (linkHost.fs.names ["vault".toList]).map
      (fun x => (x, linkHost.content "/vault/".toList ["vault".toList] x)) = vaultContent := by
    rfl
  rw [← hcontent]
  refine Host.files_shows rfl rfl (Host.not_loop_of_pair rfl ?_ ?_)
  · exact fun h => nomatch h
  · exact fun h => nomatch h

/-- The same vault where the directory is missing that the link leads to. -/
def danglingHost : Host :=
  Host.withVault (.ofEntries [(["vault".toList], .dir),
    (["vault".toList, "l".toList], .link "/o/d".toList),
    (["vault".toList, "f".toList], .file "in".toList)] (by decide)) "/vault".toList

/-- What is in that vault. -/
def danglingContent : List (Text × Content) :=
  [("l".toList, .link none), ("f".toList, .inode ⟨.file 2, 0⟩)]

theorem danglingHost_shows : danglingHost.files.Shows "/vault/".toList danglingContent := by
  have hcontent : (danglingHost.fs.names ["vault".toList]).map
      (fun x => (x, danglingHost.content "/vault/".toList ["vault".toList] x))
        = danglingContent := by
    rfl
  rw [← hcontent]
  refine Host.files_shows rfl rfl (Host.not_loop_of_pair rfl ?_ ?_)
  · exact fun h => nomatch h
  · exact fun h => nomatch h

end Sample

/-- A directory with a link to a directory and with a file. -/
theorem listing_complete_sample :
    (∃ r, Sample.linkHost.files.msiDirList Sample.linkHost (.ofText "/vault/".toList)
        (.ofText "resc".toList) (.ofText []) = .ok r
      ∧ r.Complete "/vault/".toList Sample.vaultContent)
      ↔ ∀ e ∈ Sample.vaultContent, e.2 ≠ .link none :=
  FileState.listing_complete_iff (MsParam.parseMspForStr_ofText (by decide))
    (MsParam.parseMspForStr_ofText (by decide)) (MsParam.parseMspForStr_ofText (by decide))
    ⟨rfl, ⟨_, rfl⟩, rfl, ⟨_, rfl, rfl⟩, rfl⟩ Sample.linkHost_shows

/-- One dangling link in the vault, and its listing is an error. -/
theorem dangling_not_listed :
    (Sample.danglingHost.msiDirList (.ofText "/vault/".toList) (.ofText "resc".toList)
        (.ofText [])).map Host.DirList.observed = .ok ⟨.named .sysInvalidFilePath, none⟩
      ∧ Sample.danglingHost.files.Shows "/vault/".toList Sample.danglingContent
      ∧ Sample.danglingHost.files.ListAllowed Sample.danglingHost "/vault/".toList "resc".toList
      ∧ ¬ ∃ r, Sample.danglingHost.files.msiDirList Sample.danglingHost
          (.ofText "/vault/".toList) (.ofText "resc".toList) (.ofText []) = .ok r
        ∧ r.Complete "/vault/".toList Sample.danglingContent := by
  have hrun : (Sample.danglingHost.msiDirList (.ofText "/vault/".toList)
      (.ofText "resc".toList) (.ofText [])).map Host.DirList.observed
        = .ok ⟨.named .sysInvalidFilePath, none⟩ := by
    rfl
  refine ⟨hrun, Sample.danglingHost_shows, ⟨rfl, ⟨_, rfl⟩, rfl, ⟨_, rfl, rfl⟩, rfl⟩, ?_⟩
  rintro ⟨r, hr, hcomplete⟩
  rw [Host.msiDirList_files, hrun] at hr
  obtain rfl := Except.ok.inj hr
  exact nomatch hcomplete.status
