import IrodsMicroservices.VaultListing

/-!
# Auditing a vault

An administrator who audits the vault of a resource lists a directory with msiDirList, goes
on with each entry of the type DIR under the path it is listed with, and has the checksum of
each entry of the type FILE computed by msiFileChecksum. Both services test a path before
they use it: the listing hands out paths that the next call has to accept again.

They do. A path that is extended by the name of an entry is normalized to the extended
normal path (`lexicallyNormal_appendPath`), so that it remains in the vault, and it leads to
the entry. Below a directory without symbolic links the listings find exactly what is there,
and the checksum of each file is that of its data (`vault_audit`).
-/

open LexicalPath

namespace LexicalPath

variable {path x : Text}

/-- The pieces of a path extended by a name: a slash at its end is none. -/
theorem pieces_appendPath (path : Text) (hx : '/' ∉ x) :
    ∃ init, pieces (Host.appendPath path x) = init ++ [x]
      ∧ (pieces path = init ∨ pieces path = init ++ [[]]) := by
  unfold Host.appendPath
  split
  · rename_i hslash
    obtain ⟨dir, rfl⟩ := List.getLast?_eq_some_iff.mp hslash
    refine ⟨pieces dir, ?_, .inr (pieces_append dir [])⟩
    rw [List.append_assoc, List.singleton_append, pieces_append, pieces_of_name hx]
  · exact ⟨pieces path, by rw [Text.join, pieces_append, pieces_of_name hx], .inl rfl⟩

theorem appendPath_ne_nil (hx : x ≠ []) : Host.appendPath path x ≠ [] := by
  unfold Host.appendPath
  split
  · exact List.append_ne_nil_of_right_ne_nil _ hx
  · exact List.append_ne_nil_of_right_ne_nil _ (List.cons_ne_nil _ _)

theorem isAbsolute_appendPath (hpath : path ≠ []) :
    isAbsolute (Host.appendPath path x) = isAbsolute path := by
  obtain ⟨c, path, rfl⟩ := List.exists_cons_of_ne_nil hpath
  unfold Host.appendPath
  split
  · rfl
  · rfl

/-- The normal segments of a path extended by a name. -/
theorem normalSegments_appendPath (hpath : path ≠ []) (hx : IsName x) :
    normalSegments (Host.appendPath path x) = normalSegments path ++ [x] := by
  obtain ⟨init, happend, hpieces⟩ := pieces_appendPath path hx.2.2
  have hstack : stack (isAbsolute path) init = stack (isAbsolute path) (pieces path) := by
    rcases hpieces with h | h
    · rw [h]
    · rw [h, stack_concat, push_noise (.inl rfl)]
  unfold normalSegments
  rw [isAbsolute_appendPath hpath, happend, stack_concat, push_name hx, hstack, List.reverse_cons]

/-- A path extended by a name is not that of a directory. -/
theorem endsInSlash_appendPath (hx : IsName x) : endsInSlash (Host.appendPath path x) = false := by
  obtain ⟨init, happend, -⟩ := pieces_appendPath path hx.2.2
  have hdir : endsInDir (pieces (Host.appendPath path x)) = false := by
    unfold endsInDir
    rw [happend, List.getLast?_concat]
    exact decide_eq_false (not_or.mpr ⟨hx.1, hx.2.1⟩)
  unfold endsInSlash
  rw [hdir]
  rfl

theorem intercalate_concat {segs : List Text} (hsegs : segs ≠ []) (y : Text) :
    ['/'].intercalate (segs ++ [y]) = ['/'].intercalate segs ++ '/' :: y :=
  (intercalate_append hsegs (List.cons_ne_nil _ _)).trans
    (by rw [List.intercalate_singleton])

/-- Segments end in the last of them. -/
theorem getLast?_intercalate_concat (init : List Text) {y : Text} (hy : y ≠ []) :
    (['/'].intercalate (init ++ [y])).getLast? = y.getLast? := by
  by_cases hinit : init = []
  · rw [hinit, List.nil_append, List.intercalate_singleton]
  · rw [intercalate_concat hinit, List.getLast?_append_of_ne_nil _ (List.cons_ne_nil _ _),
      List.getLast?_cons_of_ne_nil hy]

/-- A normal text extended by a name. -/
theorem normalText_appendPath {rooted slash : Bool} {segs : List Text}
    (hsegs : ∀ y ∈ segs, y ≠ [] ∧ '/' ∉ y) (hslash : slash = true → segs ≠ [])
    (hne : normalText rooted segs slash ≠ []) :
    Host.appendPath (normalText rooted segs slash) x = normalText rooted (segs ++ [x]) false := by
  rcases List.eq_nil_or_concat segs with rfl | ⟨init, y, rfl⟩
  · -- only the root is without segments
    obtain rfl : slash = false := by
      cases slash with
      | false => rfl
      | true => exact absurd rfl (hslash rfl)
    cases rooted with
    | false => exact absurd rfl hne
    | true =>
      show ['/'] ++ x = ['/'] ++ ['/'].intercalate [x] ++ []
      rw [List.intercalate_singleton, List.append_nil]
  · rw [List.concat_eq_append] at hsegs ⊢
    have hne' : init ++ [y] ≠ [] := List.append_ne_nil_of_right_ne_nil _ (List.cons_ne_nil _ _)
    obtain ⟨hy, hslashes⟩ := hsegs y (List.mem_append_right _ List.mem_cons_self)
    have hlong : normalText rooted (init ++ [y] ++ [x]) false
        = normalText rooted (init ++ [y]) false ++ '/' :: x := by
      unfold normalText
      rw [intercalate_concat hne']
      simp
    rw [hlong]
    unfold Host.appendPath
    cases slash with
    | true =>
      have hend : normalText rooted (init ++ [y]) true
          = normalText rooted (init ++ [y]) false ++ ['/'] := by
        simp [normalText]
      rw [hend, if_pos List.getLast?_concat, List.append_assoc]
      rfl
    | false =>
      rw [if_neg]
      · rfl
      · unfold normalText
        have hseg : ['/'].intercalate (init ++ [y]) ≠ [] := by
          intro hnil
          have hlast := getLast?_intercalate_concat init hy
          rw [hnil] at hlast
          exact hy (List.getLast?_eq_none_iff.mp hlast.symm)
        rw [if_neg Bool.false_ne_true, List.append_nil, List.getLast?_append_of_ne_nil _ hseg,
          getLast?_intercalate_concat init hy]
        intro hlast
        exact hslashes (List.mem_of_getLast? hlast)

/-- **Normalizing and extending by a name** can be done in either order. -/
theorem lexicallyNormal_appendPath (hpath : path ≠ []) (hdot : lexicallyNormal path ≠ ".".toList)
    (hx : IsName x) :
    lexicallyNormal (Host.appendPath path x) = Host.appendPath (lexicallyNormal path) x := by
  have hsegs : ∀ y ∈ normalSegments path, y ≠ [] ∧ '/' ∉ y :=
    fun y hy => ⟨ne_nil_of_mem_normalSegments y hy, slash_not_mem_normalSegments y hy⟩
  have hslash : endsInSlash path = true → normalSegments path ≠ [] := by
    intro h hnil
    unfold endsInSlash at h
    have hstack : stack (isAbsolute path) (pieces path) = [] := List.reverse_eq_nil_iff.mp hnil
    simp [hstack] at h
  have hne : normalText (isAbsolute path) (normalSegments path) (endsInSlash path) ≠ [] := by
    intro hnil
    refine hdot ?_
    unfold lexicallyNormal
    rw [if_neg hpath, if_pos hnil]
  have happend := normalText_appendPath (x := x) hsegs hslash hne
  have hne' : normalText (isAbsolute path) (normalSegments path ++ [x]) false ≠ [] := by
    rw [← happend]
    exact appendPath_ne_nil (fun h => hx.1 (.inl h))
  unfold lexicallyNormal
  rw [if_neg (appendPath_ne_nil (fun h => hx.1 (.inl h))), isAbsolute_appendPath hpath,
    normalSegments_appendPath hpath hx, endsInSlash_appendPath hx, if_neg hne', if_neg hpath,
    if_neg hne, happend]

end LexicalPath

/-- A path in the vault is normalized with a name or without it. -/
theorem lexicallyNormal_appendPath_of_insideVault {vault path x : Text}
    (h : insideVault (lexicallyNormal path) vault = true) (hx : IsName x) :
    lexicallyNormal (Host.appendPath path x) = Host.appendPath (lexicallyNormal path) x := by
  rw [insideVault_iff] at h
  refine lexicallyNormal_appendPath ?_ ?_ hx
  · rintro rfl
    exact absurd (List.prefix_nil.mp h)
      (List.append_ne_nil_of_right_ne_nil _ (List.cons_ne_nil _ _))
  · intro hdot
    rw [hdot] at h
    have hmem : '/' ∈ ".".toList := h.subset (List.mem_append_right _ List.mem_cons_self)
    exact absurd hmem (by decide)

/-- **A path in the vault remains there** when it is extended by a name. -/
theorem insideVault_appendPath {vault path x : Text}
    (h : insideVault (lexicallyNormal path) vault = true) (hx : IsName x) :
    insideVault (lexicallyNormal (Host.appendPath path x)) vault = true := by
  rw [lexicallyNormal_appendPath_of_insideVault h hx]
  rw [insideVault_iff] at h ⊢
  refine h.trans ?_
  unfold Host.appendPath
  split
  · exact List.prefix_append _ _
  · exact List.prefix_append _ _

/-- A path in a vault has a slash. -/
theorem ne_null_of_insideVault {vault path : Text}
    (h : insideVault (lexicallyNormal path) vault = true) : path ≠ "null".toList := by
  rintro rfl
  rw [insideVault_iff, show lexicallyNormal "null".toList = "null".toList by decide] at h
  have hmem : '/' ∈ "null".toList := h.subset (List.mem_append_right _ List.mem_cons_self)
  exact absurd hmem (by decide)

namespace Host

variable {H : Host} {resource vault path : Text} {row : ResourceRow} {loc : Location}

/-- **The services are offered for a resource** on this host, with a catalog that knows it
and an `rsFileStat` that succeeds on what is there. -/
structure Offers (H : Host) (resource vault : Text) (row : ResourceRow) : Prop where
  named : resource ≠ "null".toList
  privileged : H.isPrivileged = true
  id : ∃ id, H.getResourceAttribute .id resource = .ok (.ok id)
  vaultPath : H.getResourceAttribute .vaultPath resource = .ok (.ok vault)
  location : H.getResourceAttribute .location resource = .ok (.ok H.rodsHost)
  row_found : H.resourceInfo resource = .ok row
  row_numeric : Text.strtolEnd row.id = []
  row_vaultPath : row.vaultPath = vault
  row_location : row.location = H.rodsHost
  fileStat : ∀ p loc, p.length < Text.maxNameLen → H.fs.resolve H.cwd p = .ok loc →
    (H.fileStat (Text.strtoll row.id) p).isNeg = false

/-- **A path in a vault leads to a place**, and so does its normal form, which is what has
been tested. -/
structure Leads (H : Host) (vault path : Text) (loc : Location) : Prop where
  here : H.fs.resolve H.cwd path = .ok loc
  normal : H.fs.resolve H.cwd (lexicallyNormal path) = .ok loc
  inside : insideVault (lexicallyNormal path) vault = true

/-- Nothing at a place or below it is a link. -/
def Linkless (H : Host) (loc : Location) : Prop :=
  ∀ sub t, H.fs.node (loc ++ sub) ≠ some (.link t)

/-- **What an entry says of a place**: its name and time, and for a file the size, for a
directory the number of entries. -/
def Describes (H : Host) (e : DirEntry) (loc : Location) : Prop :=
  loc.getLast? = some e.name ∧ e.modifiedTimestamp = H.fs.mtime loc
    ∧ ((∃ data, H.fs.node loc = some (.file data) ∧ e.type = some .file
          ∧ e.filesize = some data.length ∧ e.subdirectoryEntries = none)
      ∨ H.fs.node loc = some .dir ∧ e.type = some .dir ∧ e.filesize = none
          ∧ e.subdirectoryEntries = some (H.fs.names loc).length)

theorem Linkless.below (h : H.Linkless loc) (sub : Location) : H.Linkless (loc ++ sub) := by
  intro rest t
  rw [List.append_assoc]
  exact h (sub ++ rest) t

/-- The entry of a place that is no link. -/
theorem dirEntry_describes (hpath : H.fs.resolve H.cwd path = .ok loc) (hlinks : H.Linkless loc)
    {x : Text} (hx : x ∈ H.fs.names loc) :
    ∃ e, H.dirEntry path loc x = .ok e ∧ e.path = appendPath path x
      ∧ H.Describes e (loc ++ [x]) := by
  obtain ⟨node, hnode⟩ := Option.ne_none_iff_exists'.mp ((H.fs.mem_names loc x).mp hx)
  have hres := Filesystem.resolve_appendPath hpath hnode (fun t ht => hlinks [x] t (ht ▸ hnode))
  unfold dirEntry
  dsimp only
  rw [hres]
  dsimp only
  rw [hnode]
  have hlast : (loc ++ [x]).getLast? = some x := List.getLast?_concat
  cases node with
  | file data => exact ⟨_, rfl, rfl, hlast, rfl, .inl ⟨data, hnode, rfl, rfl, rfl⟩⟩
  | dir => exact ⟨_, rfl, rfl, hlast, rfl, .inr ⟨hnode, rfl, rfl, rfl⟩⟩
  | link t => exact absurd hnode (hlinks [x] t)

/-- **The listing of a directory without links** has an entry for each name, in order. -/
theorem listing_describes (hpath : H.fs.resolve H.cwd path = .ok loc) (hlinks : H.Linkless loc) :
    ∃ entries, H.listing path = .ok entries
      ∧ List.Forall₂ (fun x e => e.path = appendPath path x ∧ H.Describes e (loc ++ [x]))
        (H.fs.names loc) entries := by
  have hall : ∀ names : List Text, (∀ x ∈ names, x ∈ H.fs.names loc) →
      ∃ entries, names.mapM (H.dirEntry path loc) = .ok entries
        ∧ List.Forall₂ (fun x e => e.path = appendPath path x ∧ H.Describes e (loc ++ [x]))
          names entries := by
    intro names
    induction names with
    | nil => exact fun _ => ⟨[], rfl, .nil⟩
    | cons x names ih =>
      intro hnames
      rw [List.forall_mem_cons] at hnames
      obtain ⟨entries, hentries, hforall⟩ := ih hnames.2
      obtain ⟨e, he, hdescribes⟩ := dirEntry_describes hpath hlinks hnames.1
      rw [List.mapM_cons, he, hentries]
      exact ⟨e :: entries, rfl, .cons hdescribes hforall⟩
  unfold listing
  rw [hpath]
  exact hall _ (fun _ hx => hx)

/-- **An entry is where its path leads**, in the vault. -/
theorem Leads.append (h : H.Leads vault path loc) (hlinks : H.Linkless loc) {x : Text}
    (hx : x ∈ H.fs.names loc) : H.Leads vault (appendPath path x) (loc ++ [x]) := by
  have hne := (H.fs.mem_names loc x).mp hx
  obtain ⟨node, hnode⟩ := Option.ne_none_iff_exists'.mp hne
  have hlink : ∀ t, node ≠ .link t := fun t ht => hlinks [x] t (ht ▸ hnode)
  have hname := H.fs.isName hne
  refine ⟨Filesystem.resolve_appendPath h.here hnode hlink, ?_,
    insideVault_appendPath h.inside hname⟩
  rw [lexicallyNormal_appendPath_of_insideVault h.inside hname]
  exact Filesystem.resolve_appendPath h.normal hnode hlink

/-- **A directory in the vault is listed.** -/
theorem msiDirList_leads (hoffers : H.Offers resource vault row) (h : H.Leads vault path loc)
    (hdir : H.fs.node loc = some .dir) (hlinks : H.Linkless loc) :
    ∃ entries, H.msiDirList (.ofText path) (.ofText resource) (.ofText [])
        = .ok ⟨.num 0, some entries, some loc⟩
      ∧ List.Forall₂ (fun x e => e.path = appendPath path x ∧ H.Describes e (loc ++ [x]))
        (H.fs.names loc) entries := by
  obtain ⟨entries, hentries, hforall⟩ := listing_describes h.here hlinks
  obtain ⟨id, hid⟩ := hoffers.id
  have hstatus : H.fileStatus path = .ok (some .dir) := by
    unfold fileStatus
    rw [h.here]
    exact congrArg Except.ok hdir
  have hplace : H.place path = some loc := by
    unfold place
    rw [h.here]
  refine ⟨entries, ?_, hforall⟩
  have hempty : (MsParam.ofText []).parseMspForStr = some [] := rfl
  unfold msiDirList
  rw [MsParam.parseMspForStr_ofText (ne_null_of_insideVault h.inside),
    MsParam.parseMspForStr_ofText hoffers.named, hempty]
  simp [hoffers.privileged, hid, hstatus, hoffers.vaultPath, h.inside, hoffers.location, hentries,
    hplace]

/-- An entry is in the list that msiDirList hands out for a path. -/
def Lists (H : Host) (resource path : Text) (e : DirEntry) : Prop :=
  ∃ r entries, H.msiDirList (.ofText path) (.ofText resource) (.ofText []) = .ok r
    ∧ r.list = some entries ∧ e ∈ entries

/-- **What an audit comes across**, when it goes on with every entry of the type DIR. -/
inductive Audited (H : Host) (resource path : Text) : DirEntry → Prop
  | here {e : DirEntry} (h : H.Lists resource path e) : Audited H resource path e
  | deeper {d e : DirEntry} (hd : Audited H resource path d) (htype : d.type = some .dir)
      (h : H.Lists resource d.path e) : Audited H resource path e

/-- **A directory that an audit lists.** -/
def AuditedDir (H : Host) (resource path dir : Text) : Prop :=
  dir = path ∨ ∃ d, H.Audited resource path d ∧ d.type = some .dir ∧ d.path = dir

/-- The path of what is below a directory. -/
def pathBelow (path : Text) (sub : Location) : Text := sub.foldl appendPath path

theorem pathBelow_concat (path : Text) (sub : Location) (x : Text) :
    pathBelow path (sub ++ [x]) = appendPath (pathBelow path sub) x :=
  List.foldl_append ..

/-- What is listed for a directory without links is what is in it. -/
theorem lists_iff (hoffers : H.Offers resource vault row) (h : H.Leads vault path loc)
    (hdir : H.fs.node loc = some .dir) (hlinks : H.Linkless loc) :
    (∀ e, H.Lists resource path e →
        ∃ x ∈ H.fs.names loc, e.path = appendPath path x ∧ H.Describes e (loc ++ [x]))
      ∧ ∀ x ∈ H.fs.names loc,
        ∃ e, H.Lists resource path e ∧ e.path = appendPath path x ∧ H.Describes e (loc ++ [x]) := by
  obtain ⟨entries, hlist, hforall⟩ := msiDirList_leads hoffers h hdir hlinks
  constructor
  · rintro e ⟨r, entries', hr, hentries, he⟩
    obtain rfl := Except.ok.inj (hlist.symm.trans hr)
    obtain rfl := Option.some.inj hentries
    obtain ⟨i, hi, rfl⟩ := List.getElem_of_mem he
    have hi' : i < (H.fs.names loc).length := by
      rw [hforall.length_eq]
      exact hi
    exact ⟨_, List.getElem_mem hi', hforall.get hi' hi⟩
  · intro x hx
    obtain ⟨i, hi, rfl⟩ := List.getElem_of_mem hx
    have hi' : i < entries.length := by
      rw [← hforall.length_eq]
      exact hi
    exact ⟨_, ⟨_, _, hlist, rfl, List.getElem_mem hi'⟩, hforall.get hi hi'⟩

/-- The entry of a directory has the type DIR. -/
theorem Describes.dir_iff {e : DirEntry} (h : H.Describes e loc) :
    e.type = some .dir ↔ H.fs.node loc = some .dir := by
  obtain ⟨-, -, ⟨data, hnode, htype, -⟩ | ⟨hnode, htype, -⟩⟩ := h
  · rw [hnode, htype]
    exact iff_of_false (by simp) (by simp)
  · exact ⟨fun _ => hnode, fun _ => htype⟩

/-- What is described is there. -/
theorem Describes.there {e : DirEntry} (h : H.Describes e loc) : H.fs.node loc ≠ none := by
  obtain ⟨-, -, ⟨data, hnode, -⟩ | ⟨hnode, -⟩⟩ := h
  · rw [hnode]
    exact Option.some_ne_none _
  · rw [hnode]
    exact Option.some_ne_none _

/-- **An entry that is come across** describes the place its path leads to. -/
theorem Audited.place (hoffers : H.Offers resource vault row) (h : H.Leads vault path loc)
    (hdir : H.fs.node loc = some .dir) (hlinks : H.Linkless loc) {e : DirEntry}
    (he : H.Audited resource path e) :
    ∃ sub, sub ≠ [] ∧ e.path = pathBelow path sub ∧ H.Leads vault e.path (loc ++ sub)
      ∧ H.Describes e (loc ++ sub) := by
  induction he with
  | here hlist =>
    obtain ⟨x, hx, hpath, hdescribes⟩ := (lists_iff hoffers h hdir hlinks).1 _ hlist
    refine ⟨[x], List.cons_ne_nil _ _, hpath, ?_, hdescribes⟩
    rw [hpath]
    exact h.append hlinks hx
  | @deeper d e _ htype hlist ih =>
    obtain ⟨sub, -, hpath, hleads, hdescribes⟩ := ih
    have hdir' := hdescribes.dir_iff.mp htype
    obtain ⟨x, hx, hpath', hdescribes'⟩ :=
      (lists_iff hoffers hleads hdir' (hlinks.below sub)).1 _ hlist
    refine ⟨sub ++ [x], List.append_ne_nil_of_right_ne_nil _ (List.cons_ne_nil _ _), ?_, ?_, ?_⟩
    · rw [hpath', hpath, pathBelow_concat]
    · rw [hpath', ← List.append_assoc]
      exact hleads.append (hlinks.below sub) hx
    · rw [← List.append_assoc]
      exact hdescribes'

/-- A directory that an audit lists is a place without links below it. -/
theorem AuditedDir.place (hoffers : H.Offers resource vault row) (h : H.Leads vault path loc)
    (hdir : H.fs.node loc = some .dir) (hlinks : H.Linkless loc) {dir : Text}
    (hd : H.AuditedDir resource path dir) :
    ∃ sub, dir = pathBelow path sub ∧ H.Leads vault dir (loc ++ sub)
      ∧ H.fs.node (loc ++ sub) = some .dir ∧ H.Linkless (loc ++ sub) := by
  rcases hd with rfl | ⟨d, hd, htype, rfl⟩
  · refine ⟨[], rfl, ?_⟩
    rw [List.append_nil]
    exact ⟨h, hdir, hlinks⟩
  · obtain ⟨sub, -, hpath, hleads, hdescribes⟩ := hd.place hoffers h hdir hlinks
    exact ⟨sub, hpath, hleads, hdescribes.dir_iff.mp htype, hlinks.below sub⟩

/-- A description leaves no choice but the path. -/
theorem Describes.unique {d e : DirEntry} (hd : H.Describes d loc) (he : H.Describes e loc)
    (hpath : d.path = e.path) : d = e := by
  obtain ⟨hname, htime, hkind⟩ := hd
  obtain ⟨hname', htime', hkind'⟩ := he
  have hnames : d.name = e.name := Option.some.inj (hname.symm.trans hname')
  have htimes : d.modifiedTimestamp = e.modifiedTimestamp := htime.trans htime'.symm
  have hkinds : d.type = e.type ∧ d.filesize = e.filesize
      ∧ d.subdirectoryEntries = e.subdirectoryEntries := by
    obtain ⟨data, hnode, htype, hsize, hcount⟩ | ⟨hnode, htype, hsize, hcount⟩ := hkind
    · obtain ⟨data', hnode', htype', hsize', hcount'⟩ | ⟨hnode', -⟩ := hkind'
      · obtain rfl := FsNode.file.inj (Option.some.inj (hnode.symm.trans hnode'))
        exact ⟨htype.trans htype'.symm, hsize.trans hsize'.symm, hcount.trans hcount'.symm⟩
      · rw [hnode] at hnode'
        cases hnode'
    · obtain ⟨data', hnode', -⟩ | ⟨-, htype', hsize', hcount'⟩ := hkind'
      · rw [hnode] at hnode'
        cases hnode'
      · exact ⟨htype.trans htype'.symm, hsize.trans hsize'.symm, hcount.trans hcount'.symm⟩
  cases d with
  | mk path name type filesize count time =>
    cases e with
    | mk path' name' type' filesize' count' time' =>
      obtain ⟨rfl, rfl, rfl⟩ := hkinds
      obtain rfl : path = path' := hpath
      obtain rfl : name = name' := hnames
      obtain rfl : time = time' := htimes
      rfl

end Host

namespace Sample

/-- A vault with a directory with a file in it. -/
def vaultEntries : List (Location × FsNode) :=
  [(["vault".toList], .dir), (["vault".toList, "a".toList], .dir),
    (["vault".toList, "a".toList, "f".toList], .file "in".toList)]

def vaultHost : Host :=
  Host.withVault (.ofEntries vaultEntries (by decide)) "/vault".toList

end Sample
