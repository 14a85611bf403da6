import IrodsMicroservices.VaultReports

/-!
# What can be seen outside the vault

A path outside the vault of the resource is refused, whatever is there. `msiStatVault`
refuses it before it looks at any file. The other two services look first: where nothing
is at the path, or nothing of the right type, they refuse it with the same status, but
what the look itself throws is not caught. An error that is thrown there tells the states
of the files apart, and nothing else does (`outside_unobservable_iff`).
-/

open LexicalPath

/-- **A resource whose lookups succeed**, with its vault path. -/
structure Registered (H : Host) (rows : Text → Except Failure (List VaultRow))
    (resource vault : Text) : Prop where
  info : ∃ row, H.resourceInfo resource = .ok row ∧ Text.strtolEnd row.id = []
    ∧ row.vaultPath = vault
  id : ∃ id, H.getResourceAttribute .id resource = .ok (.ok id)
  vaultPath : H.getResourceAttribute .vaultPath resource = .ok (.ok vault)
  vaultInfo : ∃ row, FileState.vaultInfo H (rows resource) = .ok row ∧ row.vaultPath = vault

namespace FileState

variable {F : FileState} {H : Host} {rows : Text → Except Failure (List VaultRow)}
  {path resource vault : Text}

/-- What a look at a path ends in where the path is refused after it. -/
def look {α : Type} (F : FileState) (path : Text) (refused : α) : Except Fault α :=
  match F.status path with
  | .error _ => .error .exception
  | .ok _ => .ok refused

theorem look_eq_ok_iff {α : Type} {refused r : α} :
    F.look path refused = .ok r ↔ (∃ type, F.status path = .ok type) ∧ r = refused := by
  unfold look
  cases F.status path with
  | error e =>
    constructor
    · exact fun h => nomatch h
    · rintro ⟨⟨_, h⟩, -⟩
      exact nomatch h
  | ok type =>
    constructor
    · exact fun h => ⟨⟨type, rfl⟩, (Except.ok.inj h).symm⟩
    · rintro ⟨-, rfl⟩
      rfl

/-! ## A run outside the vault -/

/-- **`msiFileChecksum` outside the vault** looks at the path and refuses it. -/
theorem msiFileChecksum_outside {p q : MsParam} (hreg : Registered H rows resource vault)
    (hout : insideVault (lexicallyNormal path) vault = false)
    (hp : p.parseMspForStr = some path) (hq : q.parseMspForStr = some resource)
    (hpriv : H.isPrivileged = true) :
    F.msiFileChecksum H p q = F.look path ⟨.named .sysInvalidFilePath, none⟩ := by
  obtain ⟨row, hrow, hid, rfl⟩ := hreg.info
  unfold msiFileChecksum checksumChecks look
  rw [hp, hq]
  dsimp only
  rw [hpriv]
  cases F.status path with
  | error e => rfl
  | ok type =>
    match type with
    | none => rfl
    | some .directory => rfl
    | some .other => rfl
    | some .regular =>
      dsimp only
      rw [hrow]
      dsimp only
      rw [hid, hout]
      rfl

/-- **`msiDirList` outside the vault** does the same. -/
theorem msiDirList_outside {p q l : MsParam} {list : Text}
    (hreg : Registered H rows resource vault)
    (hout : insideVault (lexicallyNormal path) vault = false)
    (hp : p.parseMspForStr = some path) (hq : q.parseMspForStr = some resource)
    (hl : l.parseMspForStr = some list) (hpriv : H.isPrivileged = true) :
    F.msiDirList H p q l = F.look path ⟨.named .sysInvalidFilePath, none⟩ := by
  obtain ⟨id, hid⟩ := hreg.id
  unfold msiDirList dirListChecks look
  rw [hp, hq, hl]
  dsimp only
  rw [hpriv, hid]
  cases F.status path with
  | error e => rfl
  | ok type =>
    match type with
    | none => rfl
    | some .regular => rfl
    | some .other => rfl
    | some .directory =>
      dsimp only
      rw [hreg.vaultPath]
      dsimp only
      rw [hout]
      rfl

/-- **`msiStatVault` outside the vault** does not look: its checks refuse the path. -/
theorem statChecks_outside {q p t s : MsParam} (hreg : Registered H rows resource vault)
    (hout : insideVault (lexicallyNormal path) vault = false)
    (hp : p.parseMspForStr = some path) (hq : q.parseMspForStr = some resource) :
    ∃ status, statChecks H rows q p t s = .ok (.error status) := by
  obtain ⟨row, hrow, rfl⟩ := hreg.vaultInfo
  unfold statChecks
  rw [hp, hq]
  cases t.parseMspForStr with
  | none => exact ⟨_, rfl⟩
  | some type =>
    cases s.parseMspForStr with
    | none => exact ⟨_, rfl⟩
    | some size =>
      dsimp only
      cases H.isPrivileged with
      | false => exact ⟨_, rfl⟩
      | true =>
        rw [hrow]
        dsimp only
        rw [hout, if_neg (by decide)]
        split
        · exact ⟨_, rfl⟩
        · split <;> exact ⟨_, rfl⟩

/-! ## Two runs outside the vault -/

/-- **Two states of the files cannot be told apart**: each service returns, and the same in
both. -/
structure Unobservable (H : Host) (rows : Text → Except Failure (List VaultRow))
    (F F' : FileState) (physicalPathName resourceName list type size : MsParam) : Prop where
  msiDirList : ∃ r, F.msiDirList H physicalPathName resourceName list = .ok r
    ∧ F'.msiDirList H physicalPathName resourceName list = .ok r
  msiFileChecksum : ∃ r, F.msiFileChecksum H physicalPathName resourceName = .ok r
    ∧ F'.msiFileChecksum H physicalPathName resourceName = .ok r
  msiStatVault : ∃ r, F.msiStatVault H rows resourceName physicalPathName type size = .ok r
    ∧ F'.msiStatVault H rows resourceName physicalPathName type size = .ok r

/-- Users that are no administrators see nothing of the files. -/
theorem unobservable_of_not_privileged (F F' : FileState) {p q l t s : MsParam}
    (hp : p.parseMspForStr = some path) (hq : q.parseMspForStr = some resource)
    (hpriv : H.isPrivileged = false) : Unobservable H rows F F' p q l t s := by
  refine ⟨?_, ?_, ?_⟩
  · unfold FileState.msiDirList dirListChecks
    rw [hp, hq]
    cases l.parseMspForStr with
    | none => exact ⟨_, rfl, rfl⟩
    | some list =>
      dsimp only
      rw [hpriv]
      exact ⟨_, rfl, rfl⟩
  · unfold FileState.msiFileChecksum checksumChecks
    rw [hp, hq]
    dsimp only
    rw [hpriv]
    exact ⟨_, rfl, rfl⟩
  · unfold FileState.msiStatVault statChecks
    rw [hp, hq]
    cases t.parseMspForStr with
    | none => exact ⟨_, rfl, rfl⟩
    | some type =>
      cases s.parseMspForStr with
      | none => exact ⟨_, rfl, rfl⟩
      | some size =>
        dsimp only
        rw [hpriv]
        exact ⟨_, rfl, rfl⟩

/-- **What can be seen outside the vault.** For a path the vault test refuses, two states
of the files cannot be told apart exactly where the user is no administrator, or a look at
the path throws in neither of them. -/
theorem outside_unobservable_iff (F F' : FileState) {p q l t s : MsParam}
    (hreg : Registered H rows resource vault)
    (hout : insideVault (lexicallyNormal path) vault = false)
    (hp : p.parseMspForStr = some path) (hq : q.parseMspForStr = some resource) :
    Unobservable H rows F F' p q l t s ↔ H.isPrivileged = false
      ∨ (∃ type, F.status path = .ok type) ∧ ∃ type, F'.status path = .ok type := by
  cases hpriv : H.isPrivileged with
  | false => exact iff_of_true (unobservable_of_not_privileged F F' hp hq hpriv) (.inl rfl)
  | true =>
    rw [or_iff_right (by simp)]
    constructor
    · intro h
      obtain ⟨r, hr, hr'⟩ := h.msiFileChecksum
      rw [msiFileChecksum_outside hreg hout hp hq hpriv, look_eq_ok_iff] at hr hr'
      exact ⟨hr.1, hr'.1⟩
    · rintro ⟨hlook, hlook'⟩
      refine ⟨?_, ?_, ?_⟩
      · cases hl : l.parseMspForStr with
        | none =>
          unfold FileState.msiDirList dirListChecks
          rw [hp, hq, hl]
          exact ⟨_, rfl, rfl⟩
        | some list =>
          rw [msiDirList_outside hreg hout hp hq hl hpriv,
            msiDirList_outside hreg hout hp hq hl hpriv]
          exact ⟨_, look_eq_ok_iff.mpr ⟨hlook, rfl⟩, look_eq_ok_iff.mpr ⟨hlook', rfl⟩⟩
      · rw [msiFileChecksum_outside hreg hout hp hq hpriv,
          msiFileChecksum_outside hreg hout hp hq hpriv]
        exact ⟨_, look_eq_ok_iff.mpr ⟨hlook, rfl⟩, look_eq_ok_iff.mpr ⟨hlook', rfl⟩⟩
      · obtain ⟨status, hstatus⟩ := statChecks_outside (t := t) (s := s) hreg hout hp hq
        unfold FileState.msiStatVault
        rw [hstatus]
        exact ⟨_, rfl, rfl⟩

end FileState

/-! ## A path that throws -/

namespace Sample

theorem linkHost_registered :
    Registered linkHost vaultRows "resc".toList "/vault".toList :=
  ⟨⟨_, rfl, by decide, rfl⟩, ⟨_, rfl⟩, rfl, ⟨_, rfl, rfl⟩⟩

/-- Files of which nothing can be told. -/
def forbidden : FileState :=
  { linkHost.files with status := fun _ => .error {} }

/-- No files at all. -/
def absent : FileState :=
  { linkHost.files with status := fun _ => .ok none }

end Sample

/-- A file outside the vault is not told apart from one that is missing. -/
theorem outside_unobservable_sample :
    FileState.Unobservable Sample.linkHost Sample.vaultRows Sample.linkHost.files
        Sample.absent (.ofText "/o/f".toList) (.ofText "resc".toList) (.ofText []) (.ofText [])
        (.ofText []) ↔ Sample.linkHost.isPrivileged = false
      ∨ (∃ type, Sample.linkHost.files.status "/o/f".toList = .ok type)
        ∧ ∃ type, Sample.absent.status "/o/f".toList = .ok type :=
  FileState.outside_unobservable_iff _ _ Sample.linkHost_registered (by decide)
    (MsParam.parseMspForStr_ofText (by decide)) (MsParam.parseMspForStr_ofText (by decide))

/-- A directory that must not be read shows itself: the error leaves the service. -/
theorem forbidden_observable :
    Sample.forbidden.msiFileChecksum Sample.linkHost (.ofText "/o/f".toList)
        (.ofText "resc".toList) = .error .exception
      ∧ Sample.absent.msiFileChecksum Sample.linkHost (.ofText "/o/f".toList)
        (.ofText "resc".toList) = .ok ⟨.named .sysInvalidFilePath, none⟩
      ∧ insideVault (lexicallyNormal "/o/f".toList) "/vault".toList = false
      ∧ Registered Sample.linkHost Sample.vaultRows "resc".toList "/vault".toList
      ∧ ¬ FileState.Unobservable Sample.linkHost Sample.vaultRows Sample.forbidden
          Sample.absent (.ofText "/o/f".toList) (.ofText "resc".toList) (.ofText [])
          (.ofText []) (.ofText []) := by
  have hrun : Sample.forbidden.msiFileChecksum Sample.linkHost (.ofText "/o/f".toList)
      (.ofText "resc".toList) = .error .exception := by
    rfl
  refine ⟨hrun, rfl, by decide, Sample.linkHost_registered, fun h => ?_⟩
  obtain ⟨r, hr, -⟩ := h.msiFileChecksum
  rw [hrun] at hr
  exact nomatch hr
