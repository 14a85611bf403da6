import IrodsMicroservices.VaultServices

/-!
# The files of a host

The file system of a `Host` answers the services in a vault (`Host.files`). With these
answers, `msiFileChecksum` and `msiDirList` are the services of the host
(`Host.msiFileChecksum_files`, `Host.msiDirList_files`).
-/

open LexicalPath

/-- The type of what stands at a location. -/
def FsNode.fileType : FsNode → FileType
  | .file _ => .regular
  | .dir => .directory
  | .link _ => .other

/-- `lstat`: what a path leads to, without following a link at its end. -/
def Filesystem.lstat (fs : Filesystem) (cwd : Location) (p : Text) :
    Except PathError (Option FsNode) :=
  match fs.walk (fs.follow Filesystem.maxLinks) (pieces p).dropLast (Filesystem.start cwd p) with
  | .error .loop => .error .loop
  | .error _ => .ok none
  | .ok q =>
    match (pieces p).getLast? with
    | some x => .ok (fs.node (if IsNoise x then q.1 else if x = "..".toList then q.1.dropLast
        else q.1 ++ [x]))
    | none => .ok none

namespace Host

/-- What the services are told about the files of a host. Of `rsFileStat` a host has the
status alone. -/
def files (H : Host) : FileState where
  status path :=
    match H.fileStatus path with
    | .error _ => .error {}
    | .ok node => .ok (node.map FsNode.fileType)
  isSymlink path :=
    match H.fs.lstat H.cwd path with
    | .error _ => .error {}
    | .ok node => .ok (node matches some (.link _))
  names path :=
    match H.place path with
    | some loc => if H.fs.node loc = some .dir then .ok (H.fs.names loc) else .error {}
    | none => .error {}
  fileSize path :=
    match H.readFile path with
    | some data => .ok data.length
    | none => .error {}
  lastWriteTime path :=
    match H.place path with
    | some loc => .ok (H.fs.mtime loc)
    | none => .error {}
  fileStat id path := ⟨H.fileStat id path, 0, 0⟩
  chksumLocFile path :=
    match H.chksum (H.readFile path) with
    | .error f => (f.status, [])
    | .ok checksum => (.num 0, checksum)

/-- Nothing but a link that leads too far makes `status` throw. -/
theorem fileStatus_error {H : Host} {path : Text} {fault : Fault}
    (h : H.fileStatus path = .error fault) : fault = .exception := by
  unfold fileStatus at h
  split at h
  · exact nomatch h
  · exact (Except.error.inj h).symm
  · exact nomatch h

theorem files_status_error {H : Host} {path : Text} {fault : Fault}
    (h : H.fileStatus path = .error fault) : H.files.status path = .error {} := by
  unfold files
  dsimp only
  rw [h]

theorem files_status_ok {H : Host} {path : Text} {node : Option FsNode}
    (h : H.fileStatus path = .ok node) :
    H.files.status path = .ok (node.map FsNode.fileType) := by
  unfold files
  dsimp only
  rw [h]

theorem files_chksum_error {H : Host} {path : Text} {f : Failure}
    (h : H.chksum (H.readFile path) = .error f) : H.files.chksumLocFile path = (f.status, []) := by
  unfold files
  dsimp only
  rw [h]

theorem files_chksum_ok {H : Host} {path checksum : Text}
    (h : H.chksum (H.readFile path) = .ok checksum) :
    H.files.chksumLocFile path = (.num 0, checksum) := by
  unfold files
  dsimp only
  rw [h]

/-- What is left of a checksum when the file that has been read is forgotten. -/
def Checksum.observed (r : Checksum) : FileState.Checksum := ⟨r.status, r.checksum⟩

/-- What is computed in the end. -/
theorem files_chksum {H : Host} {path : Text} :
    (.ok ⟨(H.files.chksumLocFile path).1, if (H.files.chksumLocFile path).1.isNeg then none
        else some (H.files.chksumLocFile path).2⟩ : Except Fault FileState.Checksum)
      = (match H.chksum (H.readFile path) with
        | .error f => .ok ⟨f.status, none, H.place path⟩
        | .ok checksum => .ok ⟨.num 0, some checksum, H.place path⟩ :
          Except Fault Checksum).map Checksum.observed := by
  cases hsum : H.chksum (H.readFile path) with
  | error f =>
    rw [files_chksum_error hsum, if_pos f.neg]
    rfl
  | ok checksum =>
    rw [files_chksum_ok hsum]
    rfl

/-- **`msiFileChecksum` on the files of a host.** -/
theorem msiFileChecksum_files (H : Host) (physicalPathName resourceName : MsParam) :
    H.files.msiFileChecksum H physicalPathName resourceName
      = (H.msiFileChecksum physicalPathName resourceName).map Checksum.observed := by
  unfold FileState.msiFileChecksum FileState.checksumChecks msiFileChecksum
  cases physicalPathName.parseMspForStr with
  | none => rfl
  | some path =>
    cases resourceName.parseMspForStr with
    | none => rfl
    | some resource =>
      dsimp only
      cases hpriv : H.isPrivileged with
      | false => rfl
      | true =>
        simp only [Bool.not_true, Bool.false_eq_true, if_false]
        cases hstatus : H.fileStatus path with
        | error fault =>
          rw [files_status_error hstatus, fileStatus_error hstatus]
          rfl
        | ok node =>
          rw [files_status_ok hstatus]
          cases node with
          | none => rfl
          | some node =>
            cases node with
            | dir => rfl
            | link t => rfl
            | file data =>
              dsimp only [Option.map_some, FsNode.fileType]
              cases H.resourceInfo resource with
              | error fault => rfl
              | ok row =>
                dsimp only
                by_cases hid : Text.strtolEnd row.id ≠ []
                · rw [if_pos hid, if_pos hid]
                  rfl
                · rw [if_neg hid, if_neg hid]
                  by_cases hinside : (!insideVault (lexicallyNormal path) row.vaultPath) = true
                  · rw [if_pos hinside, if_pos hinside]
                    rfl
                  · rw [if_neg hinside, if_neg hinside]
                    -- the checks are passed
                    simp only [apply_ite (Except.map Checksum.observed)]
                    refine if_congr Iff.rfl rfl (if_congr Iff.rfl rfl (if_congr Iff.rfl rfl ?_))
                    exact files_chksum

/-! ### The entries of a directory -/

/-- Whether an entry is a link is asked without following it. -/
theorem files_isSymlink {H : Host} {path x : Text} {loc : Location}
    (h : H.fs.resolve H.cwd path = .ok loc) (hx : IsName x) :
    H.files.isSymlink (appendPath path x)
      = .ok (H.fs.node (loc ++ [x]) matches some (.link _)) := by
  obtain ⟨init, links, hpieces, hwalk⟩ := Filesystem.walk_appendPath h hx.2.2
  have hlstat : H.fs.lstat H.cwd (appendPath path x) = .ok (H.fs.node (loc ++ [x])) := by
    unfold Filesystem.lstat
    rw [hpieces, List.dropLast_concat, hwalk, List.getLast?_concat]
    dsimp only
    rw [if_neg hx.1, if_neg hx.2.1]
  unfold files
  dsimp only
  rw [hlstat]

/-- What an entry that leads somewhere is asked. -/
theorem files_of_resolve {H : Host} {path : Text} {loc : Location}
    (h : H.fs.resolve H.cwd path = .ok loc) :
    H.files.status path = .ok ((H.fs.node loc).map FsNode.fileType)
      ∧ H.files.lastWriteTime path = .ok (H.fs.mtime loc)
      ∧ (∀ data, H.fs.node loc = some (.file data) → H.files.fileSize path = .ok data.length)
      ∧ (H.fs.node loc = some .dir → H.files.names path = .ok (H.fs.names loc)) := by
  have hplace : H.place path = some loc := by
    unfold place
    rw [h]
  have hstatus : H.fileStatus path = .ok (H.fs.node loc) := by
    unfold fileStatus
    rw [h]
  refine ⟨files_status_ok hstatus, ?_, fun data hdata => ?_, fun hdir => ?_⟩
  · unfold files
    dsimp only
    rw [hplace]
  · have hread : H.readFile path = some data := by
      unfold readFile
      rw [hplace, Option.bind_some, hdata]
    unfold files
    dsimp only
    rw [hread]
  · unfold files
    dsimp only
    rw [hplace]
    exact if_pos hdir

/-- An entry that leads nowhere has no time. -/
theorem files_lastWriteTime_error {H : Host} {path : Text} {e : PathError}
    (h : H.fs.resolve H.cwd path = .error e) : H.files.lastWriteTime path = .error {} := by
  have hplace : H.place path = none := by
    unfold place
    rw [h]
  unfold files
  dsimp only
  rw [hplace]

/-- **An entry is what it is in the directory.** Both leave the same listing out, for
reasons of their own. -/
theorem dirEntry_files {H : Host} {path x : Text} {loc : Location}
    (h : H.fs.resolve H.cwd path = .ok loc) (hx : IsName x) :
    (H.files.dirEntry path x).toOption = (H.dirEntry path loc x).toOption := by
  cases hres : H.fs.resolve H.cwd (appendPath path x) with
  | error e =>
    rw [FileState.dirEntry_of_lastWriteTime_error (files_lastWriteTime_error hres), dirEntry]
    dsimp only
    rw [hres]
    rfl
  | ok target =>
    obtain ⟨hstatus, htime, hsize, hnames⟩ := files_of_resolve hres
    have hlink := files_isSymlink h hx
    rw [dirEntry]
    dsimp only
    rw [hres]
    dsimp only
    cases hnode : H.fs.node target with
    | none =>
      rw [hnode] at hstatus
      exact congrArg _ (FileState.dirEntry_ok hstatus (congrArg (Except.map _) hlink) rfl rfl htime)
    | some node =>
      rw [hnode] at hstatus
      cases node with
      | file data =>
        exact congrArg _ (FileState.dirEntry_ok hstatus rfl
          (congrArg (Except.map _) (hsize data hnode)) rfl htime)
      | dir =>
        exact congrArg _ (FileState.dirEntry_ok hstatus rfl rfl
          (congrArg (Except.map _) (hnames hnode)) htime)
      | link t =>
        exact congrArg _ (FileState.dirEntry_ok hstatus (congrArg (Except.map _) hlink) rfl rfl
          htime)

theorem listing_files {H : Host} {path : Text} (h : H.fileStatus path = .ok (some .dir)) :
    (H.files.listing path).toOption = (H.listing path).toOption := by
  obtain ⟨loc, -, hres⟩ := place_of_fileStatus h
  have hdir : H.fs.node loc = some .dir := by
    unfold fileStatus at h
    rw [hres] at h
    exact Except.ok.inj h
  unfold FileState.listing listing
  rw [(files_of_resolve hres).2.2.2 hdir, hres]
  show ((H.fs.names loc).mapM (H.files.dirEntry path)).toOption = _
  exact Except.toOption_mapM_congr fun x hx =>
    dirEntry_files hres (H.fs.isName ((H.fs.mem_names loc x).mp hx))

/-- What is left of a listing when the directory that has been read is forgotten. -/
def DirList.observed (r : DirList) : FileState.DirList := ⟨r.status, r.list⟩

/-- What is listed in the end. -/
theorem files_listed {H : Host} {path : Text} (h : H.fileStatus path = .ok (some .dir)) :
    (match H.files.listing path with
      | .error _ => .ok ⟨.named .sysInvalidFilePath, none⟩
      | .ok entries => .ok ⟨.num 0, some entries⟩ : Except Fault FileState.DirList)
      = (match H.listing path with
        | .error _ => .ok ⟨.named .sysInvalidFilePath, none, H.place path⟩
        | .ok entries => .ok ⟨.num 0, some entries, H.place path⟩ :
          Except Fault DirList).map DirList.observed := by
  have hsame := listing_files h
  cases hfiles : H.files.listing path with
  | error e =>
    cases hhost : H.listing path with
    | error e => rfl
    | ok entries =>
      rw [hfiles, hhost] at hsame
      exact nomatch hsame
  | ok entries =>
    cases hhost : H.listing path with
    | error e =>
      rw [hfiles, hhost] at hsame
      exact nomatch hsame
    | ok entries' =>
      rw [hfiles, hhost] at hsame
      obtain rfl := Option.some.inj hsame
      rfl

/-- **`msiDirList` on the files of a host.** -/
theorem msiDirList_files (H : Host) (path rescName list : MsParam) :
    H.files.msiDirList H path rescName list
      = (H.msiDirList path rescName list).map DirList.observed := by
  unfold FileState.msiDirList FileState.dirListChecks msiDirList
  cases path.parseMspForStr with
  | none => rfl
  | some path =>
    cases rescName.parseMspForStr with
    | none => rfl
    | some rescName =>
      cases list.parseMspForStr with
      | none => rfl
      | some list =>
        dsimp only
        cases H.isPrivileged with
        | false => rfl
        | true =>
          simp only [Bool.not_true, Bool.false_eq_true, if_false]
          cases H.getResourceAttribute .id rescName with
          | error fault => rfl
          | ok id =>
            cases id with
            | error f =>
              dsimp only
              by_cases hf : f.status = .named .catNoRowsFound
              · rw [if_pos hf, if_pos hf]
                rfl
              · rw [if_neg hf, if_neg hf]
                rfl
            | ok id =>
              dsimp only
              cases hstatus : H.fileStatus path with
              | error fault =>
                rw [files_status_error hstatus, fileStatus_error hstatus]
                rfl
              | ok node =>
                rw [files_status_ok hstatus]
                cases node with
                | none => rfl
                | some node =>
                  cases node with
                  | file data => rfl
                  | link t => rfl
                  | dir =>
                    dsimp only [Option.map_some, FsNode.fileType]
                    cases H.getResourceAttribute .vaultPath rescName with
                    | error fault => rfl
                    | ok vaultPath =>
                      cases vaultPath with
                      | error f => rfl
                      | ok vaultPath =>
                        dsimp only
                        by_cases hinside : (!insideVault (lexicallyNormal path) vaultPath) = true
                        · rw [if_pos hinside, if_pos hinside]
                          rfl
                        · rw [if_neg hinside, if_neg hinside]
                          cases H.getResourceAttribute .location rescName with
                          | error fault => rfl
                          | ok location =>
                            cases location with
                            | error f => rfl
                            | ok location =>
                              dsimp only
                              by_cases hhost : H.rodsHost ≠ location
                              · rw [if_pos hhost, if_pos hhost]
                                rfl
                              · rw [if_neg hhost, if_neg hhost]
                                exact files_listed hstatus

end Host
