import IrodsMicroservices.PhysicalPath

/-!
# The services in a vault and what they ask of the files

`msiFileChecksum`, `msiDirList` and `msiStatVault` make some checks first, and only then
look at the file or the directory they have been asked about. What the operating system
answers them, and what `rsFileStat` does, is a `FileState`: whether there is anything at a
path and of which type, the names in a directory, sizes and times. Any answer may be an
error that boost throws. Everything that does not depend on the files is in the `Host`.

Each service has its checks passed under conditions that are a structure of their own:
`ChecksumAllowed`, `ListAllowed`, `StatAllowed`.
-/

namespace Except

variable {ε δ α β : Type}

theorem toOption_bind (x : Except ε α) (f : α → Except ε β) :
    (x >>= f).toOption = x.toOption.bind fun a => (f a).toOption := by
  cases x <;> rfl

/-- What is left of a traversal is told by what is left of its steps. -/
theorem toOption_mapM_congr {f : α → Except ε β} {g : α → Except δ β} {xs : List α}
    (h : ∀ x ∈ xs, (f x).toOption = (g x).toOption) :
    (xs.mapM f).toOption = (xs.mapM g).toOption := by
  induction xs with
  | nil => rfl
  | cons x xs ih =>
    rw [List.forall_mem_cons] at h
    rw [List.mapM_cons, List.mapM_cons, toOption_bind, toOption_bind, h.1]
    refine congrArg _ (funext fun b => ?_)
    rw [toOption_bind, toOption_bind, ih h.2]
    rfl

/-- A step that fails is a traversal that fails. -/
theorem toOption_mapM_eq_none {f : α → Except ε β} {xs : List α} {x : α} (hx : x ∈ xs)
    (h : (f x).toOption = none) : (xs.mapM f).toOption = none := by
  induction xs with
  | nil => exact absurd hx List.not_mem_nil
  | cons y xs ih =>
    rw [List.mapM_cons, toOption_bind, Option.bind_eq_none_iff]
    intro b hb
    rcases List.mem_cons.mp hx with rfl | hx
    · exact nomatch h.symm.trans hb
    · rw [toOption_bind, ih hx]
      rfl

end Except

open LexicalPath

/-- What `boost::filesystem::status` tells of what is at a path. -/
inductive FileType
  | regular
  | directory
  | other
  deriving DecidableEq

/-- A `filesystem_error`. -/
structure FsError where
  deriving DecidableEq

/-- What `rsFileStat` returns, and what it fills in. -/
structure FileStat where
  status : Status
  /-- `st_mode`. -/
  mode : BitVec 32
  /-- `st_size`. -/
  size : ℤ

/-- **What the services are told about the files.** -/
structure FileState where
  /-- `status`, which follows links: none where there is nothing. -/
  status : Text → Except FsError (Option FileType)
  /-- `is_symlink(symlink_status)`. -/
  isSymlink : Text → Except FsError Bool
  /-- What a `directory_iterator` goes through. -/
  names : Text → Except FsError (List Text)
  /-- `file_size`. -/
  fileSize : Text → Except FsError ℕ
  /-- `last_write_time`. -/
  lastWriteTime : Text → Except FsError ℤ
  /-- `rsFileStat`. -/
  fileStat : ℤ → Text → FileStat
  /-- `chksumLocFile`: what it returns, and what is in the buffer then. -/
  chksumLocFile : Text → Status × Text

/-- A row of the query of `msiStatVault`. -/
structure VaultRow where
  id : Text
  type : Text
  vaultPath : Text

namespace FileState

variable (F : FileState)

/-! ## `msiFileChecksum` -/

/-- The checks of `msiFileChecksum`, up to the vault test: a status that is returned, or
the path and the row of its resource. -/
def checksumChecks (H : Host) (physicalPathName resourceName : MsParam) :
    Except Fault (Except Status (Text × ResourceRow)) :=
  match physicalPathName.parseMspForStr, resourceName.parseMspForStr with
  | some physicalPath, some resource =>
    if !H.isPrivileged then .ok (.error (.named .sysUserNoPermission))
    else
      match F.status physicalPath with
      -- nothing catches what `is_regular_file` throws
      | .error _ => .error .exception
      | .ok (some .regular) =>
        match H.resourceInfo resource with
        | .error fault => .error fault
        | .ok row =>
          if Text.strtolEnd row.id ≠ [] then .ok (.error (.named .catUnknownResource))
          else if !insideVault (lexicallyNormal physicalPath) row.vaultPath then
            .ok (.error (.named .sysInvalidFilePath))
          else .ok (.ok (physicalPath, row))
      | .ok _ => .ok (.error (.named .sysInvalidFilePath))
  | _, _ => .ok (.error (.named .sysInvalidInputParam))

/-- **The checks of `msiFileChecksum` are passed.** -/
structure ChecksumAllowed (H : Host) (path resource : Text) (row : ResourceRow) : Prop where
  privileged : H.isPrivileged = true
  regular : F.status path = .ok (some .regular)
  found : H.resourceInfo resource = .ok row
  numeric : Text.strtolEnd row.id = []
  inside : insideVault (lexicallyNormal path) row.vaultPath = true

theorem checksumChecks_eq_ok_iff {H : Host} {p q : MsParam} {path : Text} {row : ResourceRow} :
    F.checksumChecks H p q = .ok (.ok (path, row)) ↔ ∃ resource,
      p.parseMspForStr = some path ∧ q.parseMspForStr = some resource
        ∧ F.ChecksumAllowed H path resource row := by
  unfold checksumChecks
  constructor
  · intro h
    split at h
    · rename_i physicalPath resource hp hq
      split at h
      · exact nomatch Except.ok.inj h
      · rename_i hpriv
        split at h
        · exact nomatch h
        · rename_i hstatus
          split at h
          · exact nomatch h
          · rename_i row hrow
            split at h
            · exact nomatch Except.ok.inj h
            · rename_i hid
              split at h
              · exact nomatch Except.ok.inj h
              · rename_i hinside
                obtain ⟨rfl, rfl⟩ := Prod.mk.inj (Except.ok.inj (Except.ok.inj h))
                exact ⟨resource, hp, hq, by simpa using hpriv, hstatus, hrow,
                  not_not.mp hid, by simpa using hinside⟩
        · exact nomatch Except.ok.inj h
    · exact nomatch Except.ok.inj h
  · rintro ⟨resource, hp, hq, h⟩
    rw [hp, hq]
    dsimp only
    rw [h.privileged, h.regular]
    dsimp only
    rw [h.found]
    dsimp only
    rw [if_neg (not_not.mpr h.numeric), h.inside]
    rfl

/-- What `rsFileStat` is asked for a path that has passed the vault test. -/
def statOf (id path : Text) : FileStat :=
  F.fileStat (Text.strtoll id) (Text.rstrcpy (lexicallyNormal path))

/-- What `msiFileChecksum` leaves. -/
structure Checksum where
  status : Status
  /-- What is stored in the checksum parameter. -/
  checksum : Option Text

/-- **`msiFileChecksum`.** -/
def msiFileChecksum (H : Host) (physicalPathName resourceName : MsParam) :
    Except Fault Checksum :=
  match F.checksumChecks H physicalPathName resourceName with
  | .error fault => .error fault
  | .ok (.error status) => .ok ⟨status, none⟩
  | .ok (.ok (physicalPath, row)) =>
    let stat := (F.statOf row.id physicalPath).status
    -- there is no such file: this branch has no return of its own
    if stat = .num (-516002) then .ok ⟨H.reiStatus, none⟩
    else if stat.isNeg then .ok ⟨stat, none⟩
    else if H.rodsHost ≠ row.location then .ok ⟨.named .userInvalidRescInput, none⟩
    else
      let (status, checksum) := F.chksumLocFile physicalPath
      .ok ⟨status, if status.isNeg then none else some checksum⟩

/-! ## `msiDirList` -/

/-- The checks of `msiDirList`: a status that is returned, or the path. -/
def dirListChecks (H : Host) (path rescName list : MsParam) :
    Except Fault (Except Status Text) :=
  match path.parseMspForStr, rescName.parseMspForStr, list.parseMspForStr with
  | some path, some rescName, some _ =>
    if !H.isPrivileged then .ok (.error (.named .sysUserNoPermission))
    else
      match H.getResourceAttribute .id rescName with
      | .error fault => .error fault
      | .ok (.error f) =>
        if f.status = .named .catNoRowsFound then .ok (.error (.named .catUnknownResource))
        else .ok (.error f.status)
      | .ok (.ok _) =>
        match F.status path with
        -- the block that catches begins further down
        | .error _ => .error .exception
        | .ok (some .directory) =>
          match H.getResourceAttribute .vaultPath rescName with
          | .error fault => .error fault
          | .ok (.error f) => .ok (.error f.status)
          | .ok (.ok vaultPath) =>
            if !insideVault (lexicallyNormal path) vaultPath then
              .ok (.error (.named .sysInvalidFilePath))
            else
              match H.getResourceAttribute .location rescName with
              | .error fault => .error fault
              | .ok (.error f) => .ok (.error f.status)
              | .ok (.ok location) =>
                if H.rodsHost ≠ location then .ok (.error (.named .userInvalidRescInput))
                else .ok (.ok path)
        | .ok _ => .ok (.error (.named .sysInvalidFilePath))
  | _, _, _ => .ok (.error (.named .sysInvalidInputParam))

/-- **The checks of `msiDirList` are passed.** -/
structure ListAllowed (H : Host) (path resource : Text) : Prop where
  privileged : H.isPrivileged = true
  found : ∃ id, H.getResourceAttribute .id resource = .ok (.ok id)
  directory : F.status path = .ok (some .directory)
  inside : ∃ vault, H.getResourceAttribute .vaultPath resource = .ok (.ok vault)
    ∧ insideVault (lexicallyNormal path) vault = true
  here : H.getResourceAttribute .location resource = .ok (.ok H.rodsHost)

theorem dirListChecks_eq_ok {H : Host} {p q l : MsParam} {path resource list : Text}
    (hp : p.parseMspForStr = some path) (hq : q.parseMspForStr = some resource)
    (hl : l.parseMspForStr = some list) (h : F.ListAllowed H path resource) :
    F.dirListChecks H p q l = .ok (.ok path) := by
  obtain ⟨id, hid⟩ := h.found
  obtain ⟨vault, hvault, hinside⟩ := h.inside
  unfold dirListChecks
  rw [hp, hq, hl]
  dsimp only
  rw [h.privileged, hid, h.directory]
  dsimp only
  rw [hvault]
  dsimp only
  rw [hinside, h.here]
  exact if_neg (not_not.mpr rfl)

/-- The type of an entry: of a link what it leads to, where that is a file or a
directory. -/
def entryType (entry : Text) (type : Option FileType) : Except FsError (Option Host.EntryType) :=
  match type with
  | some .regular => .ok (some .file)
  | some .directory => .ok (some .dir)
  | _ => (F.isSymlink entry).map (fun link => if link then some .symlink else none)

/-- The size of an entry, where it is a file. -/
def entrySize (entry : Text) (type : Option FileType) : Except FsError (Option ℕ) :=
  if type = some .regular then (F.fileSize entry).map some else .ok none

/-- The number of entries of an entry, where it is a directory. -/
def entryCount (entry : Text) (type : Option FileType) : Except FsError (Option ℕ) :=
  if type = some .directory then (F.names entry).map (fun names => some names.length)
  else .ok none

/-- One entry of the directory. -/
def dirEntry (path name : Text) : Except FsError Host.DirEntry := do
  let entry := Host.appendPath path name
  let status ← F.status entry
  let type ← F.entryType entry status
  let filesize ← F.entrySize entry status
  let subdirectoryEntries ← F.entryCount entry status
  let modifiedTimestamp ← F.lastWriteTime entry
  pure ⟨entry, name, type, filesize, subdirectoryEntries, modifiedTimestamp⟩

theorem dirEntry_ok {F : FileState} {path name : Text} {status : Option FileType}
    {type : Option Host.EntryType} {filesize subdirectoryEntries : Option ℕ} {modified : ℤ}
    (hstatus : F.status (Host.appendPath path name) = .ok status)
    (htype : F.entryType (Host.appendPath path name) status = .ok type)
    (hsize : F.entrySize (Host.appendPath path name) status = .ok filesize)
    (hcount : F.entryCount (Host.appendPath path name) status = .ok subdirectoryEntries)
    (htime : F.lastWriteTime (Host.appendPath path name) = .ok modified) :
    F.dirEntry path name = .ok ⟨Host.appendPath path name, name, type, filesize,
      subdirectoryEntries, modified⟩ := by
  unfold dirEntry
  dsimp only
  rw [hstatus, htime]
  show (F.entryType (Host.appendPath path name) status >>= _) = _
  rw [htype]
  show (F.entrySize (Host.appendPath path name) status >>= _) = _
  rw [hsize]
  show (F.entryCount (Host.appendPath path name) status >>= _) = _
  rw [hcount]
  rfl

/-- Where the time of an entry cannot be told, there is no entry. -/
theorem dirEntry_of_lastWriteTime_error {F : FileState} {path name : Text} {e : FsError}
    (h : F.lastWriteTime (Host.appendPath path name) = .error e) :
    (F.dirEntry path name).toOption = none := by
  unfold dirEntry
  dsimp only
  rw [h]
  simp only [Except.toOption_bind]
  refine Option.bind_eq_none_iff.mpr fun status _ => ?_
  refine Option.bind_eq_none_iff.mpr fun type _ => ?_
  refine Option.bind_eq_none_iff.mpr fun filesize _ => ?_
  exact Option.bind_eq_none_iff.mpr fun count _ => rfl

/-- The listing of a directory. -/
def listing (path : Text) : Except FsError (List Host.DirEntry) := do
  let names ← F.names path
  names.mapM (F.dirEntry path)

/-- What `msiDirList` leaves. -/
structure DirList where
  status : Status
  /-- What is stored in the list parameter. -/
  list : Option (List Host.DirEntry)

/-- **`msiDirList`.** -/
def msiDirList (H : Host) (path rescName list : MsParam) : Except Fault DirList :=
  match F.dirListChecks H path rescName list with
  | .error fault => .error fault
  | .ok (.error status) => .ok ⟨status, none⟩
  | .ok (.ok path) =>
    match F.listing path with
    | .error _ => .ok ⟨.named .sysInvalidFilePath, none⟩
    | .ok entries => .ok ⟨.num 0, some entries⟩

/-! ## `msiStatVault` -/

/-- A row on its way through JSON into the buffers of `msiStatVault`. -/
def copyVaultRow (H : Host) (row : VaultRow) : Except Fault VaultRow :=
  match H.jansson.string row.id, H.jansson.string row.type, H.jansson.string row.vaultPath with
  | some _, some _, some _ =>
    if row.id.length < Text.maxNameLen ∧ row.type.length < Text.maxNameLen
        ∧ row.vaultPath.length ≤ Text.maxNameLen then .ok row
    else .error .overrun
  | _, _, _ => .error .nullPointer

theorem copyVaultRow_ok {H : Host} {row r : VaultRow} (h : copyVaultRow H row = .ok r) :
    r = row
      ∧ ((H.jansson.string row.id).isSome = true ∧ row.id.length < Text.maxNameLen)
      ∧ ((H.jansson.string row.type).isSome = true ∧ row.type.length < Text.maxNameLen)
      ∧ (H.jansson.string row.vaultPath).isSome = true
        ∧ row.vaultPath.length ≤ Text.maxNameLen := by
  unfold copyVaultRow at h
  split at h
  · rename_i hid htype hvault
    split at h
    · rename_i hfits
      rw [hid, htype, hvault]
      exact ⟨(Except.ok.inj h).symm, ⟨rfl, hfits.1⟩, ⟨rfl, hfits.2.1⟩, rfl, hfits.2.2⟩
    · cases h
  · cases h

/-- `get_resource_info` of `msiStatVault`, and the loop that leaves the last row. -/
def vaultInfo (H : Host) (rows : Except Failure (List VaultRow)) : Except Fault VaultRow :=
  match rows with
  | .error _ => .error .exception
  | .ok [] => .error .exception
  | .ok rows => rows.foldlM (fun _ row => copyVaultRow H row) ⟨[], [], []⟩

/-- The checks of `msiStatVault`: a status that is returned, or the path and the row. -/
def statChecks (H : Host) (rows : Text → Except Failure (List VaultRow))
    (resourceName physicalPathName type size : MsParam) :
    Except Fault (Except Status (Text × VaultRow)) :=
  match resourceName.parseMspForStr, physicalPathName.parseMspForStr, type.parseMspForStr,
      size.parseMspForStr with
  | some resource, some physicalPath, some _, some _ =>
    if !H.isPrivileged then .ok (.error (.named .sysUserNoPermission))
    else
      match vaultInfo H (rows resource) with
      | .error fault => .error fault
      | .ok row =>
        if Text.strtolEnd row.id ≠ [] then .ok (.error (.named .catUnknownResource))
        else if row.type ≠ "unixfilesystem".toList ∧ row.type ≠ "unix file system".toList then
          .ok (.error (.named .catUnknownResource))
        else if !insideVault (lexicallyNormal physicalPath) row.vaultPath then
          .ok (.error (.named .sysInvalidFilePath))
        else .ok (.ok (physicalPath, row))
  | _, _, _, _ => .ok (.error (.named .sysInvalidInputParam))

/-- **The checks of `msiStatVault` are passed.** -/
structure StatAllowed (H : Host) (rows : Text → Except Failure (List VaultRow))
    (path resource : Text) (row : VaultRow) : Prop where
  privileged : H.isPrivileged = true
  found : vaultInfo H (rows resource) = .ok row
  numeric : Text.strtolEnd row.id = []
  unixfilesystem : row.type = "unixfilesystem".toList ∨ row.type = "unix file system".toList
  inside : insideVault (lexicallyNormal path) row.vaultPath = true

theorem statChecks_eq_ok_iff {H : Host} {rows : Text → Except Failure (List VaultRow)}
    {p q t s : MsParam} {path : Text} {row : VaultRow} :
    statChecks H rows p q t s = .ok (.ok (path, row)) ↔ ∃ resource,
      p.parseMspForStr = some resource ∧ q.parseMspForStr = some path
        ∧ t.parseMspForStr ≠ none ∧ s.parseMspForStr ≠ none
        ∧ StatAllowed H rows path resource row := by
  unfold statChecks
  constructor
  · intro h
    split at h
    · rename_i resource physicalPath type size hp hq ht hs
      split at h
      · exact nomatch Except.ok.inj h
      · rename_i hpriv
        split at h
        · exact nomatch h
        · rename_i row hrow
          split at h
          · exact nomatch Except.ok.inj h
          · rename_i hid
            split at h
            · exact nomatch Except.ok.inj h
            · rename_i htype
              split at h
              · exact nomatch Except.ok.inj h
              · rename_i hinside
                obtain ⟨rfl, rfl⟩ := Prod.mk.inj (Except.ok.inj (Except.ok.inj h))
                refine ⟨resource, hp, hq, by simp [ht], by simp [hs], by simpa using hpriv, hrow,
                  not_not.mp hid, ?_, by simpa using hinside⟩
                rwa [not_and_or, not_not, not_not] at htype
    · exact nomatch Except.ok.inj h
  · rintro ⟨resource, hp, hq, ht, hs, h⟩
    obtain ⟨type, ht⟩ := Option.ne_none_iff_exists'.mp ht
    obtain ⟨size, hs⟩ := Option.ne_none_iff_exists'.mp hs
    have htype : ¬ (row.type ≠ "unixfilesystem".toList ∧ row.type ≠ "unix file system".toList) := by
      rw [not_and_or, not_not, not_not]
      exact h.unixfilesystem
    rw [hp, hq, ht, hs]
    dsimp only
    rw [h.privileged, h.found]
    dsimp only
    rw [if_neg (not_not.mpr h.numeric), if_neg htype, h.inside]
    rfl

/-- `S_IFREG`. -/
def modeRegular : BitVec 32 := 0o100000

/-- `S_IFDIR`. -/
def modeDirectory : BitVec 32 := 0o040000

/-- What `msiStatVault` leaves. -/
structure StatVault where
  status : Status
  /-- What is stored in the type parameter. -/
  type : Option Text
  /-- What is stored in the size parameter. -/
  size : Option Text

/-- `sprintf(size_output, "%lld", size)`, into 20 bytes. -/
def sizeOutput (size : ℤ) : Except Fault Text :=
  let text := JsonText.intText size
  if text.length < 20 then .ok text else .error .overrun

/-- **`msiStatVault`**, with the query it makes for a resource. -/
def msiStatVault (H : Host) (rows : Text → Except Failure (List VaultRow))
    (resourceName physicalPathName type size : MsParam) : Except Fault StatVault :=
  match statChecks H rows resourceName physicalPathName type size with
  | .error fault => .error fault
  | .ok (.error status) => .ok ⟨status, none, none⟩
  | .ok (.ok (physicalPath, row)) =>
    let stat := F.statOf row.id physicalPath
    let report (type size : Text) : Except Fault StatVault := .ok ⟨.num 0, some type, some size⟩
    if stat.status = .num (-516002) then report "NOTEXIST".toList "0".toList
    else if stat.status.isNeg then .ok ⟨stat.status, none, none⟩
    else if stat.mode &&& modeRegular ≠ 0 then
      match sizeOutput stat.size with
      | .error fault => .error fault
      | .ok text => report "FILE".toList text
    else if stat.mode &&& modeDirectory ≠ 0 then report "DIR".toList "0".toList
    else report "OTHER".toList "0".toList

end FileState
