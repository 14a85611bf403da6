import IrodsMicroservices.JsonText
import IrodsMicroservices.LinkTree
import IrodsMicroservices.Status
import IrodsMicroservices.VaultTest

/-!
# The services on physical paths

`msiFileChecksum` computes the checksum of a file of the host it runs on, and
`msiDirList` lists one of its directories. Both look for what is at the path first,
and then test whether its normal form is in the vault of the resource – but what
they read in the end is what is at the path itself.

The two are the same where no name that a dot-dot cancels is a symbolic link. Where
a path has a dot-dot that cancels a name and the test accepts it, there is a host
on which they are not, so that something outside the vault is read
(`checked_is_used`).
-/

open LexicalPath

/-! ## The host -/

/-- A row of the query for a resource. -/
structure ResourceRow where
  id : Text
  vaultPath : Text
  location : Text

/-- The columns of a resource that are asked for one at a time. -/
inductive RescColumn
  | id
  | vaultPath
  | location
  deriving DecidableEq

/-- What the query for a column returns: how many rows, and the value in the first,
NULL where the column is missing. -/
structure AttributeRows where
  rowCnt : ℕ
  value : Option Text

/-- **The host a service runs on**, and what it asks iRODS. -/
structure Host where
  fs : Filesystem
  /-- The working directory. -/
  cwd : Location
  /-- `rodsHost` of the server's environment. -/
  rodsHost : Text
  /-- Whether the user is an administrator. -/
  isPrivileged : Bool
  /-- The status the rule engine has so far. -/
  reiStatus : Status
  jansson : Jansson
  /-- The rows for a resource name, or an exception. -/
  resourceRows : Text → Except Failure (List ResourceRow)
  /-- The query for a column, with its condition. -/
  attributeRows : RescColumn → Text → Except Failure AttributeRows
  /-- `rsFileStat`. -/
  fileStat : ℤ → Text → Status
  /-- What `chksumLocFile` makes of the bytes of a file, none where it cannot be
  opened. -/
  chksum : Option Bytes → Except Failure Text

namespace Host

/-- `boost::filesystem::status`: what a path leads to, none where it leads nowhere. -/
def fileStatus (H : Host) (path : Text) : Except Fault (Option FsNode) :=
  match H.fs.resolve H.cwd path with
  | .ok loc => .ok (H.fs.node loc)
  | .error .loop => .error .exception
  | .error _ => .ok none

/-- Where a path leads. -/
def place (H : Host) (path : Text) : Option Location :=
  match H.fs.resolve H.cwd path with
  | .ok loc => some loc
  | .error _ => none

/-- The bytes of the file a path leads to. -/
def readFile (H : Host) (path : Text) : Option Bytes :=
  match (H.place path).bind H.fs.node with
  | some (.file data) => some data
  | _ => none

/-! ## `msiFileChecksum` -/

/-- A row on its way through JSON into the buffers. -/
def copyRow (H : Host) (row : ResourceRow) : Except Fault ResourceRow :=
  match H.jansson.string row.id, H.jansson.string row.vaultPath,
      H.jansson.string row.location with
  | some _, some _, some _ =>
    if row.id.length < Text.maxNameLen ∧ row.vaultPath.length ≤ Text.maxNameLen
        ∧ row.location.length ≤ Text.maxNameLen then .ok row
    else .error .overrun
  | _, _, _ => .error .nullPointer

/-- `get_resource_info`, and the loop that leaves the last of its rows. -/
def resourceInfo (H : Host) (resourceName : Text) : Except Fault ResourceRow :=
  match H.resourceRows resourceName with
  | .error _ => .error .exception
  | .ok [] => .error .exception
  | .ok rows => rows.foldlM (fun _ row => H.copyRow row) ⟨[], [], []⟩

/-- What `msiFileChecksum` leaves. -/
structure Checksum where
  status : Status
  /-- What is stored in the checksum parameter. -/
  checksum : Option Text
  /-- The file that has been read. It is not part of the code's state. -/
  used : Option Location

/-- **`msiFileChecksum`.** -/
def msiFileChecksum (H : Host) (physicalPathName resourceName : MsParam) :
    Except Fault Checksum :=
  let fail (status : Status) : Except Fault Checksum := .ok ⟨status, none, none⟩
  match physicalPathName.parseMspForStr, resourceName.parseMspForStr with
  | some physicalPath, some resource =>
    if !H.isPrivileged then fail (.named .sysUserNoPermission)
    else
      match H.fileStatus physicalPath with
      | .error fault => .error fault
      | .ok (some (.file _)) =>
        match H.resourceInfo resource with
        | .error fault => .error fault
        | .ok row =>
          if Text.strtolEnd row.id ≠ [] then fail (.named .catUnknownResource)
          else
            let normalized := lexicallyNormal physicalPath
            if !insideVault normalized row.vaultPath then fail (.named .sysInvalidFilePath)
            else
              let stat := H.fileStat (Text.strtoll row.id) (Text.rstrcpy normalized)
              -- there is no such file: the status of the rule engine is returned
              if stat = .num (-516002) then fail H.reiStatus
              else if stat.isNeg then fail stat
              else if H.rodsHost ≠ row.location then fail (.named .userInvalidRescInput)
              else
                match H.chksum (H.readFile physicalPath) with
                | .error f => .ok ⟨f.status, none, H.place physicalPath⟩
                | .ok checksum => .ok ⟨.num 0, some checksum, H.place physicalPath⟩
      | .ok _ => fail (.named .sysInvalidFilePath)
  | _, _ => fail (.named .sysInvalidInputParam)

/-! ## `msiDirList` -/

/-- `get_resource_attribute_by_name`. -/
def getResourceAttribute (H : Host) (column : RescColumn) (resourceName : Text) :
    Except Fault (Except Failure Text) :=
  let cond := ("='".toList ++ resourceName ++ "'".toList).take Text.maxNameLen
  match H.attributeRows column cond with
  | .error f => .ok (.error f)
  | .ok rows =>
    if rows.rowCnt ≠ 1 then .ok (.error (.ofCode .catUnknownResource))
    else
      match rows.value with
      | none => .ok (.error (.ofCode .unmatchedKeyOrIndex))
      | some value =>
        if value.length ≤ Text.maxNameLen then .ok (.ok value) else .error .overrun

/-- The type of an entry. -/
inductive EntryType
  | file
  | dir
  | symlink
  deriving DecidableEq

/-- An entry of the listing. -/
structure DirEntry where
  path : Text
  name : Text
  type : Option EntryType
  filesize : Option ℕ
  subdirectoryEntries : Option ℕ
  modifiedTimestamp : ℤ

/-- `path / name`. -/
def appendPath (path name : Text) : Text :=
  if path.getLast? = some '/' then path ++ name else Text.join path name

/-- One entry of the directory at a location. Asking for the time of a link that
leads nowhere is an error. -/
def dirEntry (H : Host) (path : Text) (loc : Location) (name : Text) :
    Except PathError DirEntry :=
  let entry := appendPath path name
  match H.fs.resolve H.cwd entry with
  | .error e => .error e
  | .ok target =>
    match H.fs.node target with
    | some (.file data) => .ok ⟨entry, name, some .file, some data.length, none, H.fs.mtime target⟩
    | some .dir =>
      .ok ⟨entry, name, some .dir, none, some (H.fs.names target).length, H.fs.mtime target⟩
    | _ =>
      let isLink := H.fs.node (loc ++ [name]) matches some (.link _)
      .ok ⟨entry, name, if isLink then some .symlink else none, none, none, H.fs.mtime target⟩

/-- The listing of the directory a path leads to. -/
def listing (H : Host) (path : Text) : Except PathError (List DirEntry) :=
  match H.fs.resolve H.cwd path with
  | .error e => .error e
  | .ok loc => (H.fs.names loc).mapM (H.dirEntry path loc)

/-- What `msiDirList` leaves. -/
structure DirList where
  status : Status
  /-- What is stored in the list parameter. -/
  list : Option (List DirEntry)
  /-- The directory that has been read. It is not part of the code's state. -/
  used : Option Location

/-- **`msiDirList`.** -/
def msiDirList (H : Host) (path rescName list : MsParam) : Except Fault DirList :=
  let fail (status : Status) : Except Fault DirList := .ok ⟨status, none, none⟩
  match path.parseMspForStr, rescName.parseMspForStr, list.parseMspForStr with
  | some path, some rescName, some _ =>
    if !H.isPrivileged then fail (.named .sysUserNoPermission)
    else
      match H.getResourceAttribute .id rescName with
      | .error fault => .error fault
      | .ok (.error f) =>
        if f.status = .named .catNoRowsFound then fail (.named .catUnknownResource)
        else fail f.status
      | .ok (.ok _) =>
        match H.fileStatus path with
        | .error fault => .error fault
        -- nothing is there, or something that is no directory
        | .ok (some .dir) =>
          match H.getResourceAttribute .vaultPath rescName with
          | .error fault => .error fault
          | .ok (.error f) => fail f.status
          | .ok (.ok vaultPath) =>
            if !insideVault (lexicallyNormal path) vaultPath then
              fail (.named .sysInvalidFilePath)
            else
              match H.getResourceAttribute .location rescName with
              | .error fault => .error fault
              | .ok (.error f) => fail f.status
              | .ok (.ok location) =>
                if H.rodsHost ≠ location then fail (.named .userInvalidRescInput)
                else
                  match H.listing path with
                  | .error _ => .ok ⟨.named .sysInvalidFilePath, none, H.place path⟩
                  | .ok entries => .ok ⟨.num 0, some entries, H.place path⟩
        | .ok _ => fail (.named .sysInvalidFilePath)
  | _, _, _ => fail (.named .sysInvalidInputParam)

/-! ## What is checked and what is used -/

/-- **What the services read is what the normal form of the path leads to**, whenever
they return something. -/
def UsesChecked (H : Host) (path : Text) : Prop :=
  (∀ (physicalPathName resourceName : MsParam) (r : Checksum),
      physicalPathName.parseMspForStr = some path →
      H.msiFileChecksum physicalPathName resourceName = .ok r → r.checksum ≠ none →
      ∃ loc, r.used = some loc ∧ H.fs.resolve H.cwd (lexicallyNormal path) = .ok loc)
    ∧ ∀ (pathName rescName list : MsParam) (r : DirList),
      pathName.parseMspForStr = some path →
      H.msiDirList pathName rescName list = .ok r → r.list ≠ none →
      ∃ loc, r.used = some loc ∧ H.fs.resolve H.cwd (lexicallyNormal path) = .ok loc

/-- The vault path every query returns. -/
def VaultIs (H : Host) (vault : Text) : Prop :=
  (∀ name rows, H.resourceRows name = .ok rows → ∀ row ∈ rows, row.vaultPath = vault)
    ∧ ∀ cond rows, H.attributeRows .vaultPath cond = .ok rows →
      ∀ value, rows.value = some value → value = vault

/-- What a file or a directory that is there is read through. -/
theorem place_of_fileStatus {H : Host} {path : Text} {node : FsNode}
    (h : H.fileStatus path = .ok (some node)) :
    ∃ loc, H.place path = some loc ∧ H.fs.resolve H.cwd path = .ok loc := by
  unfold fileStatus at h
  unfold place
  cases hres : H.fs.resolve H.cwd path with
  | ok loc => exact ⟨loc, rfl, rfl⟩
  | error e =>
    rw [hres] at h
    cases e with
    | loop => exact nomatch h
    | noEntry => exact nomatch Except.ok.inj h
    | notDir => exact nomatch Except.ok.inj h

/-- A row that gets through is left as it is, and each of its texts is a string that
fits. -/
theorem copyRow_ok {H : Host} {row r : ResourceRow} (h : H.copyRow row = .ok r) :
    r = row
      ∧ ((H.jansson.string row.id).isSome = true ∧ row.id.length < Text.maxNameLen)
      ∧ ((H.jansson.string row.vaultPath).isSome = true
        ∧ row.vaultPath.length ≤ Text.maxNameLen)
      ∧ (H.jansson.string row.location).isSome = true
        ∧ row.location.length ≤ Text.maxNameLen := by
  unfold copyRow at h
  split at h
  · rename_i hid hvault hloc
    split at h
    · rename_i hfits
      rw [hid, hvault, hloc]
      exact ⟨(Except.ok.inj h).symm, ⟨rfl, hfits.1⟩, ⟨rfl, hfits.2.1⟩, rfl, hfits.2.2⟩
    · cases h
  · cases h

/-- The rows leave their vault path. -/
theorem vaultPath_of_resourceInfo {H : Host} {vault name : Text} {row : ResourceRow}
    (hvault : H.VaultIs vault) (h : H.resourceInfo name = .ok row) :
    row.vaultPath = vault ∧ vault.length ≤ Text.maxNameLen := by
  have hfold : ∀ (rows : List ResourceRow) (r₀ : ResourceRow),
      (∀ row ∈ rows, row.vaultPath = vault) →
      (rows = [] → r₀.vaultPath = vault ∧ vault.length ≤ Text.maxNameLen) →
      rows.foldlM (fun _ row => H.copyRow row) r₀ = .ok row →
      row.vaultPath = vault ∧ vault.length ≤ Text.maxNameLen := by
    intro rows
    induction rows with
    | nil =>
      intro r₀ _ h₀ h
      exact Except.ok.inj h ▸ h₀ rfl
    | cons first rows ih =>
      intro r₀ hrows _ h
      rw [List.forall_mem_cons] at hrows
      rw [List.foldlM_cons] at h
      cases hfirst : H.copyRow first with
      | error fault =>
        rw [hfirst] at h
        exact nomatch h
      | ok r =>
        rw [hfirst] at h
        obtain ⟨rfl, -, ⟨-, hlen⟩, -⟩ := copyRow_ok hfirst
        rw [hrows.1] at hlen
        exact ih r hrows.2 (fun _ => ⟨hrows.1, hlen⟩) h
  unfold resourceInfo at h
  split at h
  · exact nomatch h
  · exact nomatch h
  · rename_i rows hne hrows
    exact hfold rows _ (hvault.1 name rows hrows) (fun h => absurd h hne) h

/-- What `msiFileChecksum` has found where it returns a checksum. -/
theorem checksum_returned {H : Host} {path : Text} {physicalPathName resourceName : MsParam}
    {r : Checksum} (hpath : physicalPathName.parseMspForStr = some path)
    (h : H.msiFileChecksum physicalPathName resourceName = .ok r) (hr : r.checksum ≠ none) :
    ∃ node resource row, H.fileStatus path = .ok (some node)
      ∧ H.resourceInfo resource = .ok row
      ∧ insideVault (lexicallyNormal path) row.vaultPath = true ∧ r.used = H.place path := by
  have hfail : ∀ {status : Status}, (.ok ⟨status, none, none⟩ : Except Fault Checksum) = .ok r →
      False := fun h => hr (Except.ok.inj h ▸ rfl)
  unfold msiFileChecksum at h
  rw [hpath] at h
  dsimp only at h
  split at h
  · rename_i physicalPath resource heq hresource
    obtain rfl := Option.some.inj heq
    split at h
    · exact (hfail h).elim
    · split at h
      · exact nomatch h
      · rename_i data hstatus
        split at h
        · exact nomatch h
        · rename_i row hrow
          refine ⟨.file data, resource, row, hstatus, hrow, ?_⟩
          split at h
          · exact (hfail h).elim
          · split at h
            · exact (hfail h).elim
            · rename_i hinside
              refine ⟨by simpa using hinside, ?_⟩
              split at h
              · exact (hfail h).elim
              · split at h
                · exact (hfail h).elim
                · split at h
                  · exact (hfail h).elim
                  · split at h
                    · exact (hr (Except.ok.inj h ▸ rfl)).elim
                    · exact Except.ok.inj h ▸ rfl
      · exact (hfail h).elim
  · exact (hfail h).elim

/-- What `msiDirList` has found where it returns a listing. -/
theorem dirList_returned {H : Host} {path : Text} {pathName rescName list : MsParam}
    {r : DirList} (hpath : pathName.parseMspForStr = some path)
    (h : H.msiDirList pathName rescName list = .ok r) (hr : r.list ≠ none) :
    ∃ node resource vault, H.fileStatus path = .ok (some node)
      ∧ H.getResourceAttribute .vaultPath resource = .ok (.ok vault)
      ∧ insideVault (lexicallyNormal path) vault = true ∧ r.used = H.place path := by
  have hfail : ∀ {status : Status}, (.ok ⟨status, none, none⟩ : Except Fault DirList) = .ok r →
      False := fun h => hr (Except.ok.inj h ▸ rfl)
  unfold msiDirList at h
  rw [hpath] at h
  dsimp only at h
  split at h
  · rename_i physicalPath resource _ heq hresource _
    obtain rfl := Option.some.inj heq
    split at h
    · exact (hfail h).elim
    · split at h
      · exact nomatch h
      · split at h
        · exact (hfail h).elim
        · exact (hfail h).elim
      · split at h
        · exact nomatch h
        · rename_i hstatus
          split at h
          · exact nomatch h
          · exact (hfail h).elim
          · rename_i vault hvault
            refine ⟨.dir, resource, vault, hstatus, hvault, ?_⟩
            split at h
            · exact (hfail h).elim
            · rename_i hinside
              refine ⟨by simpa using hinside, ?_⟩
              split at h
              · exact nomatch h
              · exact (hfail h).elim
              · split at h
                · exact (hfail h).elim
                · split at h
                  · exact (hr (Except.ok.inj h ▸ rfl)).elim
                  · exact Except.ok.inj h ▸ rfl
        · exact (hfail h).elim
  · exact (hfail h).elim

/-- A resource attribute is the value of the query, and fits its buffer. -/
theorem vaultPath_of_attribute {H : Host} {vault name value : Text} (hvault : H.VaultIs vault)
    (h : H.getResourceAttribute .vaultPath name = .ok (.ok value)) :
    value = vault ∧ vault.length ≤ Text.maxNameLen := by
  unfold getResourceAttribute at h
  dsimp only at h
  split at h
  · exact nomatch Except.ok.inj h
  · rename_i rows hrows
    split at h
    · exact nomatch Except.ok.inj h
    · split at h
      · exact nomatch Except.ok.inj h
      · rename_i v hv
        split at h
        · rename_i hlen
          obtain rfl := Except.ok.inj (Except.ok.inj h)
          have hval := hvault.2 _ rows hrows v hv
          exact ⟨hval, hval ▸ hlen⟩
        · exact nomatch h

/-- **Where no name that is cancelled is a link, what is used is what has been
checked.** -/
theorem usesChecked_of_cancelsNoLink {H : Host} {path : Text}
    (hlinks : H.fs.CancelsNoLink H.cwd path) : H.UsesChecked path := by
  have hsame : ∀ {node : FsNode}, H.fileStatus path = .ok (some node) →
      ∃ loc, H.place path = some loc ∧ H.fs.resolve H.cwd (lexicallyNormal path) = .ok loc := by
    intro node hstatus
    obtain ⟨loc, hplace, hres⟩ := place_of_fileStatus hstatus
    exact ⟨loc, hplace, Filesystem.resolve_lexicallyNormal hlinks hres⟩
  constructor
  · intro physicalPathName resourceName r hpath h hr
    obtain ⟨node, -, -, hstatus, -, -, hused⟩ := checksum_returned hpath h hr
    rw [hused]
    exact hsame hstatus
  · intro pathName rescName list r hpath h hr
    obtain ⟨node, -, -, hstatus, -, -, hused⟩ := dirList_returned hpath h hr
    rw [hused]
    exact hsame hstatus

/-- What the test refuses is not used. -/
theorem usesChecked_of_refused {H : Host} {path vault : Text} (hvault : H.VaultIs vault)
    (h : vault.length ≤ Text.maxNameLen → insideVault (lexicallyNormal path) vault = false) :
    H.UsesChecked path := by
  constructor
  · intro physicalPathName resourceName r hpath hrun hr
    obtain ⟨_, _, row, -, hrow, hinside, -⟩ := checksum_returned hpath hrun hr
    obtain ⟨heq, hlen⟩ := vaultPath_of_resourceInfo hvault hrow
    rw [heq, h hlen] at hinside
    exact nomatch hinside
  · intro pathName rescName list r hpath hrun hr
    obtain ⟨_, _, value, -, hvalue, hinside, -⟩ := dirList_returned hpath hrun hr
    obtain ⟨heq, hlen⟩ := vaultPath_of_attribute hvault hvalue
    rw [heq, h hlen] at hinside
    exact nomatch hinside

end Host

/-! ## A host on which they part -/

namespace Filesystem

/-- **A path with a name goes first where the path leads**, and then to the name. -/
theorem walk_appendPath {fs : Filesystem} {cwd loc : Location} {path x : Text}
    (h : fs.resolve cwd path = .ok loc) (hx : '/' ∉ x) :
    ∃ init links, pieces (Host.appendPath path x) = init ++ [x]
      ∧ fs.walk (fs.follow maxLinks) init (start cwd (Host.appendPath path x))
        = .ok (loc, links) := by
  obtain ⟨hpath, links, hwalk⟩ := resolve_ok_iff.mp h
  unfold Host.appendPath
  split
  · rename_i hslash
    obtain ⟨dir, rfl⟩ : ∃ dir, path = dir ++ ['/'] := by
      obtain ⟨dir, c, rfl⟩ := (List.eq_nil_or_concat path).resolve_left hpath
      rw [List.concat_eq_append, List.getLast?_concat] at hslash
      exact ⟨dir, by rw [List.concat_eq_append, Option.some.inj hslash]⟩
    rw [show dir ++ ['/'] = dir ++ '/' :: [] from rfl, pieces_append, walk_append_ok] at hwalk
    obtain ⟨q, hq, hrest⟩ := hwalk
    rw [show pieces [] = [[]] from rfl, walk_singleton] at hrest
    rw [stepPiece_noise (Or.inl rfl) (dir_of_stepPiece hrest)] at hrest
    obtain rfl := Except.ok.inj hrest
    have hstart : start cwd (dir ++ '/' :: x) = start cwd (dir ++ ['/']) := by
      cases dir <;> rfl
    rw [List.append_assoc, List.singleton_append, pieces_append, pieces_of_name hx, hstart]
    exact ⟨pieces dir, links, rfl, hq⟩
  · have hstart : start cwd (path ++ '/' :: x) = start cwd path := by
      cases path with
      | nil => exact absurd rfl hpath
      | cons c path => rfl
    rw [Text.join, pieces_append, pieces_of_name hx, hstart]
    exact ⟨pieces path, links, rfl, hwalk⟩

/-- An entry of the directory a path leads to is where the path with its name leads. -/
theorem resolve_appendPath {fs : Filesystem} {cwd loc : Location} {path x : Text} {node : FsNode}
    (h : fs.resolve cwd path = .ok loc) (hx : fs.node (loc ++ [x]) = some node)
    (hlink : ∀ t, node ≠ .link t) :
    fs.resolve cwd (Host.appendPath path x) = .ok (loc ++ [x]) := by
  have hne : fs.node (loc ++ [x]) ≠ none := by simp [hx]
  have hname := fs.isName hne
  obtain ⟨init, links, hpieces, hwalk⟩ := walk_appendPath h hname.2.2
  have hstep : fs.walk (fs.follow maxLinks) [x] (loc, links) = .ok (loc ++ [x], links) := by
    rw [walk_singleton]
    unfold stepPiece
    dsimp only
    rw [fs.parent hne, hx]
    dsimp only
    rw [if_neg hname.1, if_neg hname.2.1]
    cases node with
    | dir => rfl
    | file data => rfl
    | link t => exact absurd rfl (hlink t)
  refine resolve_ok_iff.mpr ⟨?_, links, ?_⟩
  · unfold Host.appendPath
    split <;> simp [Text.join, (resolve_ok_iff.mp h).1]
  · rw [hpieces]
    exact walk_append_ok.mpr ⟨_, hwalk, hstep⟩

end Filesystem

namespace Host

/-- A host with one resource, which is its own. -/
def withVault (fs : Filesystem) (vault : Text) : Host where
  fs := fs
  cwd := []
  rodsHost := "localhost".toList
  isPrivileged := true
  reiStatus := .num 0
  jansson := JsonText.codec
  resourceRows _ := .ok [⟨"10".toList, vault, "localhost".toList⟩]
  attributeRows
    | .id, _ => .ok ⟨1, some "10".toList⟩
    | .vaultPath, _ => .ok ⟨1, some vault⟩
    | .location, _ => .ok ⟨1, some "localhost".toList⟩
  fileStat _ _ := .num 0
  chksum data := .ok (data.getD [])

theorem withVault_vaultIs (fs : Filesystem) (vault : Text) : (withVault fs vault).VaultIs vault := by
  constructor
  · intro name rows hrows row hrow
    obtain rfl := Except.ok.inj hrows
    rw [List.mem_singleton.mp hrow]
  · intro cond rows hrows value hvalue
    obtain rfl := Except.ok.inj hrows
    exact (Option.some.inj hvalue).symm

/-- A directory without links is listed. -/
theorem listing_ok {H : Host} {path : Text} {loc : Location}
    (h : H.fs.resolve H.cwd path = .ok loc)
    (hlinks : ∀ x t, H.fs.node (loc ++ [x]) ≠ some (.link t)) :
    ∃ entries, H.listing path = .ok entries := by
  have hall : ∀ names : List Text, (∀ x ∈ names, H.fs.node (loc ++ [x]) ≠ none) →
      ∃ entries, names.mapM (H.dirEntry path loc) = .ok entries := by
    intro names
    induction names with
    | nil => exact fun _ => ⟨[], rfl⟩
    | cons x names ih =>
      intro hnames
      rw [List.forall_mem_cons] at hnames
      obtain ⟨entries, hentries⟩ := ih hnames.2
      obtain ⟨node, hnode⟩ := Option.ne_none_iff_exists'.mp hnames.1
      have hres := Filesystem.resolve_appendPath h hnode
        (fun t ht => hlinks x t (ht ▸ hnode))
      obtain ⟨entry, hentry⟩ : ∃ entry, H.dirEntry path loc x = .ok entry := by
        unfold dirEntry
        dsimp only
        rw [hres]
        dsimp only
        rw [hnode]
        cases node <;> exact ⟨_, rfl⟩
      rw [List.mapM_cons, hentry, hentries]
      exact ⟨_, rfl⟩
  unfold listing
  rw [h]
  exact hall _ (fun x hx => (H.fs.mem_names loc x).mp hx)

/-- The listing of a directory in the vault. -/
theorem msiDirList_withVault {fs : Filesystem} {path vault : Text} {loc : Location}
    (hnull : path ≠ "null".toList) (hlen : vault.length ≤ Text.maxNameLen)
    (hinside : insideVault (lexicallyNormal path) vault = true)
    (hres : fs.resolve [] path = .ok loc) (hdir : fs.node loc = some .dir)
    (hlinks : ∀ x t, fs.node (loc ++ [x]) ≠ some (.link t)) :
    ∃ entries, (withVault fs vault).msiDirList (.ofText path) (.ofText []) (.ofText [])
      = .ok ⟨.num 0, some entries, some loc⟩ := by
  obtain ⟨entries, hentries⟩ := listing_ok (H := withVault fs vault) hres hlinks
  have hstatus : (withVault fs vault).fileStatus path = .ok (some .dir) := by
    unfold fileStatus
    rw [show (withVault fs vault).fs.resolve (withVault fs vault).cwd path = .ok loc from hres]
    exact congrArg _ hdir
  have hplace : (withVault fs vault).place path = some loc := by
    unfold place
    rw [show (withVault fs vault).fs.resolve (withVault fs vault).cwd path = .ok loc from hres]
  have hvault : (withVault fs vault).getResourceAttribute .vaultPath [] = .ok (.ok vault) := by
    unfold getResourceAttribute
    exact if_pos hlen
  have hid : (withVault fs vault).getResourceAttribute .id [] = .ok (.ok "10".toList) := rfl
  have hloc : (withVault fs vault).getResourceAttribute .location []
      = .ok (.ok "localhost".toList) := rfl
  refine ⟨entries, ?_⟩
  unfold msiDirList
  rw [MsParam.parseMspForStr_ofText hnull, MsParam.parseMspForStr_ofText (by decide)]
  dsimp only
  rw [hid, hstatus, hvault]
  dsimp only
  rw [hinside, hloc, hentries, hplace]
  rfl

end Host

/-- **The path that is checked and the path that is used.** On every host, they lead to
one place for a path no dot-dot of which cancels a symbolic link. They do so on every
host whose vault path it is exactly where no dot-dot of the path cancels a name, or the
test refuses the path. -/
theorem checked_is_used (path vault : Text) :
    (∀ H : Host, H.fs.CancelsNoLink H.cwd path → H.UsesChecked path)
      ∧ ((∀ H : Host, H.VaultIs vault → H.UsesChecked path) ↔
        (insideVault (lexicallyNormal path) vault = true → vault.length ≤ Text.maxNameLen →
          ¬ Cancels (isAbsolute path) (pieces path))) := by
  refine ⟨fun H => Host.usesChecked_of_cancelsNoLink, fun h hinside hlen hcancels => ?_,
    fun h H hvault => ?_⟩
  · have hslash := hcancels.slash_mem
    have hnull : path ≠ "null".toList := by
      rintro rfl
      exact absurd hslash (by decide)
    obtain ⟨fs, loc, loc', hres, hdir, hlinks, hnormal, hne⟩ :=
      LinkTree.exists_fork (List.ne_nil_of_mem hslash) hcancels
    obtain ⟨entries, hrun⟩ := Host.msiDirList_withVault hnull hlen hinside hres hdir hlinks
    obtain ⟨l, hused, hl⟩ := (h _ (Host.withVault_vaultIs fs vault)).2 _ _ _ _
      (MsParam.parseMspForStr_ofText hnull) hrun (by simp)
    obtain rfl := Option.some.inj hused
    exact hne (Except.ok.inj (hl.symm.trans hnormal))
  · by_cases hrefused : vault.length ≤ Text.maxNameLen
        ∧ insideVault (lexicallyNormal path) vault = true
    · refine Host.usesChecked_of_cancelsNoLink (fun pre post top rest q hps hst htop => ?_)
      exact absurd ⟨pre, post, top, rest, hps, hst, htop⟩ (h hrefused.2 hrefused.1)
    · refine Host.usesChecked_of_refused hvault (fun hlen => ?_)
      rw [← Bool.not_eq_true]
      exact fun hinside => hrefused ⟨hlen, hinside⟩

/-! ## A link in the vault -/

namespace Sample

/-- `/vault/l` is a link to `/o/d`; there is a file `f` in `/vault` and one in `/o`. -/
def linkEntries : List (Location × FsNode) :=
  [(["vault".toList], .dir),
    (["vault".toList, "l".toList], .link "/o/d".toList),
    (["vault".toList, "f".toList], .file "in".toList),
    (["o".toList], .dir),
    (["o".toList, "d".toList], .dir),
    (["o".toList, "f".toList], .file "out".toList)]

/-- The file system of the sample. -/
def linkFs : Filesystem := .ofEntries linkEntries (by decide)

/-- A host with that file system, and the checksums of the two files. -/
def linkHost : Host :=
  { Host.withVault linkFs "/vault".toList with
    chksum := fun data =>
      if data = some "in".toList then
        .ok "sha2:WClnU00PkJ0Za5f55pITQnd66oe0b6Ut8WU4nbH7jM8=".toList
      else if data = some "out".toList then
        .ok "sha2:diBpvAem4bXfEjpa572RwQ2qBGlPuqF/ugzWqNzOjyI=".toList
      else .error (.ofCode .objPathDoesNotExist) }

end Sample

/-- The checksum of a file outside the vault: `/vault/l/../f` passes the test as
`/vault/f`, and `/o/f` is read. -/
theorem link_leaves_vault :
    Sample.linkHost.msiFileChecksum (.ofText "/vault/l/../f".toList) (.ofText "resc".toList)
        = .ok ⟨.num 0, some "sha2:diBpvAem4bXfEjpa572RwQ2qBGlPuqF/ugzWqNzOjyI=".toList,
          some ["o".toList, "f".toList]⟩
      ∧ lexicallyNormal "/vault/l/../f".toList = "/vault/f".toList
      ∧ Sample.linkHost.fs.resolve [] "/vault/f".toList = .ok ["vault".toList, "f".toList]
      ∧ ¬ Sample.linkHost.UsesChecked "/vault/l/../f".toList := by
  have hrun : Sample.linkHost.msiFileChecksum (.ofText "/vault/l/../f".toList)
      (.ofText "resc".toList)
        = .ok ⟨.num 0, some "sha2:diBpvAem4bXfEjpa572RwQ2qBGlPuqF/ugzWqNzOjyI=".toList,
          some ["o".toList, "f".toList]⟩ := by
    rfl
  have hnormal : lexicallyNormal "/vault/l/../f".toList = "/vault/f".toList := by decide
  have hres : Sample.linkHost.fs.resolve [] "/vault/f".toList
      = .ok ["vault".toList, "f".toList] := by rfl
  refine ⟨hrun, hnormal, hres, fun h => ?_⟩
  obtain ⟨loc, hused, hloc⟩ := h.1 _ _ _ rfl hrun (by simp)
  obtain rfl := Option.some.inj hused
  rw [hnormal] at hloc
  exact absurd (Except.ok.inj (hloc.symm.trans hres)) (by decide)
