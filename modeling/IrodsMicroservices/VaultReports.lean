import IrodsMicroservices.HostFiles

/-!
# What the services report on a file

`msiFileChecksum` returns the status of the checksum, or of the call that has failed
before it. Where `rsFileStat` knows no such file it returns what the rule engine had as its
status, and that may be a success (`checksum_or_error`).

`msiStatVault` tests the mode of a file for the bit of a regular file, and then for the
bit of a directory. The types of a mode are numbers though, and those of sockets, of
symbolic links and of block devices have these bits as well (`stat_classified_iff`).
-/

open LexicalPath

namespace FileState

variable {F : FileState} {H : Host}

/-! ## The checksum -/

/-- What is left is an error, or success and the checksum of the file. -/
structure Checksum.Backed (F : FileState) (physicalPathName : MsParam) (r : Checksum) : Prop where
  success : r.status.isNeg = false → ∃ path, physicalPathName.parseMspForStr = some path
    ∧ (F.chksumLocFile path).1.isNeg = false ∧ r.checksum = some (F.chksumLocFile path).2
  error : r.status.isNeg = true → r.checksum = none

/-- **No checksum, no success.** -/
def ChecksumBacked (F : FileState) (H : Host) (physicalPathName resourceName : MsParam) : Prop :=
  ∀ r, F.msiFileChecksum H physicalPathName resourceName = .ok r → r.Backed F physicalPathName

theorem Checksum.backed_of_neg {p : MsParam} {status : Status} (h : status.isNeg = true) :
    Checksum.Backed F p ⟨status, none⟩ :=
  ⟨fun hpos => absurd (h.symm.trans hpos) (by simp), fun _ => rfl⟩

/-- A refusal is an error. -/
theorem checksumChecks_status {p q : MsParam} {status : Status}
    (h : F.checksumChecks H p q = .ok (.error status)) : status.isNeg = true := by
  have hnamed : ∀ {e : ErrorCode},
      (.ok (.error (.named e)) : Except Fault (Except Status (Text × ResourceRow)))
        = .ok (.error status) → status.isNeg = true := by
    rintro e ⟨⟩
    rfl
  unfold checksumChecks at h
  split at h
  · split at h
    · exact hnamed h
    · split at h
      · exact nomatch h
      · split at h
        · exact nomatch h
        · split at h
          · exact hnamed h
          · split at h
            · exact hnamed h
            · exact nomatch Except.ok.inj h
      · exact hnamed h
  · exact hnamed h

/-- What happens to a path whose checks are passed. -/
theorem msiFileChecksum_of_checks {p q : MsParam} {path : Text} {row : ResourceRow}
    (h : F.checksumChecks H p q = .ok (.ok (path, row))) :
    F.msiFileChecksum H p q =
      .ok (if (F.statOf row.id path).status = .num (-516002) then ⟨H.reiStatus, none⟩
        else if (F.statOf row.id path).status.isNeg then ⟨(F.statOf row.id path).status, none⟩
        else if H.rodsHost ≠ row.location then ⟨.named .userInvalidRescInput, none⟩
        else ⟨(F.chksumLocFile path).1, if (F.chksumLocFile path).1.isNeg then none
          else some (F.chksumLocFile path).2⟩) := by
  unfold msiFileChecksum
  rw [h]
  simp only [apply_ite Except.ok]

/-- **A checksum or an error.** Success comes with the checksum of the file exactly where
the rule engine had an error so far, or `rsFileStat` does not call the file missing. -/
theorem checksum_or_error (F : FileState) (H : Host) (physicalPathName resourceName : MsParam) :
    F.ChecksumBacked H physicalPathName resourceName ↔
      H.reiStatus.isNeg = true ∨ ∀ path resource row,
        physicalPathName.parseMspForStr = some path →
        resourceName.parseMspForStr = some resource → F.ChecksumAllowed H path resource row →
        (F.statOf row.id path).status ≠ .num (-516002) := by
  constructor
  · intro h
    by_contra hbad
    push Not at hbad
    obtain ⟨hrei, path, resource, row, hp, hq, hallowed, hstat⟩ := hbad
    have hrun := msiFileChecksum_of_checks (F.checksumChecks_eq_ok_iff.mpr ⟨_, hp, hq, hallowed⟩)
    rw [if_pos hstat] at hrun
    obtain ⟨_, -, -, hnone⟩ := (h _ hrun).success (Bool.eq_false_of_not_eq_true hrei)
    exact nomatch hnone
  · intro h r hr
    cases hchecks : F.checksumChecks H physicalPathName resourceName with
    | error fault =>
      unfold msiFileChecksum at hr
      rw [hchecks] at hr
      exact nomatch hr
    | ok checked =>
      cases checked with
      | error status =>
        unfold msiFileChecksum at hr
        rw [hchecks] at hr
        obtain rfl := Except.ok.inj hr
        exact Checksum.backed_of_neg (checksumChecks_status hchecks)
      | ok found =>
        obtain ⟨path, row⟩ := found
        obtain ⟨resource, hp, hq, hallowed⟩ := F.checksumChecks_eq_ok_iff.mp hchecks
        rw [msiFileChecksum_of_checks hchecks] at hr
        obtain rfl := Except.ok.inj hr
        split
        · rename_i hstat
          rcases h with hrei | h
          · exact Checksum.backed_of_neg hrei
          · exact absurd hstat (h path resource row hp hq hallowed)
        · split
          · exact Checksum.backed_of_neg ‹_›
          · split
            · exact Checksum.backed_of_neg rfl
            · split
              · exact Checksum.backed_of_neg ‹_›
              · rename_i hsum
                exact ⟨fun hpos => ⟨path, hp, hpos, rfl⟩, fun hneg => absurd hneg hsum⟩

end FileState

namespace Sample

/-- A host that has a file of the name, for a resource that is elsewhere. There is no such
file there. -/
def elsewhere : Host :=
  { linkHost with
    rodsHost := "provider".toList
    fileStat := fun _ _ => .num (-516002) }

end Sample

/-- Success without a checksum: the file is there, but not where the resource is. -/
theorem success_without_checksum :
    Sample.elsewhere.files.msiFileChecksum Sample.elsewhere (.ofText "/vault/f".toList)
        (.ofText "resc".toList) = .ok ⟨.num 0, none⟩
      ∧ ¬ Sample.elsewhere.files.ChecksumBacked Sample.elsewhere (.ofText "/vault/f".toList)
          (.ofText "resc".toList) := by
  have hrun : Sample.elsewhere.files.msiFileChecksum Sample.elsewhere
      (.ofText "/vault/f".toList) (.ofText "resc".toList) = .ok ⟨.num 0, none⟩ := by
    rfl
  refine ⟨hrun, fun h => ?_⟩
  obtain ⟨_, -, -, hnone⟩ := (h _ hrun).success rfl
  exact nomatch hnone

namespace FileState

variable {F : FileState} {H : Host} {rows : Text → Except Failure (List VaultRow)}

/-! ## The type and the size -/

/-- `S_IFMT`: the part of a mode that is the type of the file. -/
def modeFormat : BitVec 32 := 0o170000

/-- What is to be reported on a file that is there: of a regular file its size. -/
def typeAndSize (stat : FileStat) : Text × Text :=
  if stat.mode &&& modeFormat = modeRegular then ("FILE".toList, JsonText.intText stat.size)
  else if stat.mode &&& modeFormat = modeDirectory then ("DIR".toList, "0".toList)
  else ("OTHER".toList, "0".toList)

/-- **Files are classified**: `msiStatVault` reports the type and the size of what is
there, and what is not there as missing. It reports nothing in any other case. -/
structure StatClassified (F : FileState) (H : Host)
    (rows : Text → Except Failure (List VaultRow))
    (resourceName physicalPathName type size : MsParam) : Prop where
  reported : ∀ path row,
    statChecks H rows resourceName physicalPathName type size = .ok (.ok (path, row)) →
    (F.statOf row.id path).status.isNeg = false → 0 ≤ (F.statOf row.id path).size →
    (F.statOf row.id path).size < 2 ^ 63 →
    F.msiStatVault H rows resourceName physicalPathName type size
        = .ok ⟨.num 0, some (typeAndSize (F.statOf row.id path)).1,
          some (typeAndSize (F.statOf row.id path)).2⟩
      ∧ (typeAndSize (F.statOf row.id path)).2.length + 1 ≤ 20
  missing : ∀ path row,
    statChecks H rows resourceName physicalPathName type size = .ok (.ok (path, row)) →
    (F.statOf row.id path).status = .num (-516002) →
    F.msiStatVault H rows resourceName physicalPathName type size
      = .ok ⟨.num 0, some "NOTEXIST".toList, some "0".toList⟩
  unchanged : ∀ r, F.msiStatVault H rows resourceName physicalPathName type size = .ok r →
    (∀ path row,
      statChecks H rows resourceName physicalPathName type size = .ok (.ok (path, row)) →
      (F.statOf row.id path).status.isNeg = true
        ∧ (F.statOf row.id path).status ≠ .num (-516002)) →
    r.type = none ∧ r.size = none

/-- The type of a mode does not get in the way of the tests: it is that of a regular file
or of a directory, or it has the bits of neither. -/
def PlainType (mode : BitVec 32) : Prop :=
  mode &&& modeFormat = modeRegular ∨ mode &&& modeFormat = modeDirectory
    ∨ mode &&& modeRegular = 0 ∧ mode &&& modeDirectory = 0

instance (mode : BitVec 32) : Decidable (PlainType mode) := inferInstanceAs (Decidable (_ ∨ _))

/-- Sockets, symbolic links and block devices do, and no other of the types. -/
example : ([0o140000, 0o120000, 0o100000, 0o060000, 0o040000, 0o020000, 0o010000].filter
    (fun mode => ¬ PlainType mode)) = [0o140000, 0o120000, 0o060000] := by decide

/-- What the code makes of a mode and a size. -/
def bitsAndSize (stat : FileStat) : Text × Text :=
  if stat.mode &&& modeRegular ≠ 0 then ("FILE".toList, JsonText.intText stat.size)
  else if stat.mode &&& modeDirectory ≠ 0 then ("DIR".toList, "0".toList)
  else ("OTHER".toList, "0".toList)

/-- The bits of a mode are those of its type. -/
theorem format_and {bit : BitVec 32} (hbit : modeFormat &&& bit = bit) (mode : BitVec 32) :
    mode &&& bit = mode &&& modeFormat &&& bit := by
  rw [BitVec.and_assoc, hbit]

/-- **The two bits tell the type apart exactly where it does not get in their way.** -/
theorem bitsAndSize_eq_iff (stat : FileStat) :
    bitsAndSize stat = typeAndSize stat ↔ PlainType stat.mode := by
  have hregular := format_and (show modeFormat &&& modeRegular = modeRegular by decide) stat.mode
  have hdirectory :=
    format_and (show modeFormat &&& modeDirectory = modeDirectory by decide) stat.mode
  unfold PlainType bitsAndSize typeAndSize
  by_cases h₁ : stat.mode &&& modeFormat = modeRegular
  · rw [h₁] at hregular
    rw [if_pos h₁, if_pos (by rw [hregular]; decide)]
    exact ⟨fun _ => .inl h₁, fun _ => rfl⟩
  · rw [if_neg h₁]
    by_cases h₂ : stat.mode &&& modeFormat = modeDirectory
    · rw [h₂] at hregular hdirectory
      rw [if_pos h₂, if_neg (by rw [hregular]; decide), if_pos (by rw [hdirectory]; decide)]
      exact ⟨fun _ => .inr (.inl h₂), fun _ => rfl⟩
    · rw [if_neg h₂, or_iff_right h₁, or_iff_right h₂]
      constructor
      · intro h
        split at h
        · exact nomatch (Prod.mk.inj h).1
        · split at h
          · exact nomatch (Prod.mk.inj h).1
          · exact ⟨not_not.mp ‹_›, not_not.mp ‹_›⟩
      · rintro ⟨hr, hd⟩
        rw [if_neg (not_not.mpr hr), if_neg (not_not.mpr hd)]

theorem sizeOutput_ok {size : ℤ} (h₀ : 0 ≤ size) (h : size < 2 ^ 63) :
    sizeOutput size = .ok (JsonText.intText size) ∧ (JsonText.intText size).length + 1 ≤ 20 := by
  have hlen : (JsonText.intText size).length ≤ 18 + 1 := by
    unfold JsonText.intText
    rw [if_neg (not_lt.mpr h₀)]
    exact JsonText.length_natText_le (by omega)
  exact ⟨if_pos (Nat.lt_succ_of_le hlen), Nat.succ_le_succ hlen⟩

variable {p q t s : MsParam} {path : Text} {row : VaultRow}

/-- What is reported where the file is there. -/
theorem msiStatVault_of_success (h : statChecks H rows p q t s = .ok (.ok (path, row)))
    (hstat : (F.statOf row.id path).status.isNeg = false)
    (h₀ : 0 ≤ (F.statOf row.id path).size) (h₁ : (F.statOf row.id path).size < 2 ^ 63) :
    F.msiStatVault H rows p q t s = .ok ⟨.num 0, some (bitsAndSize (F.statOf row.id path)).1,
      some (bitsAndSize (F.statOf row.id path)).2⟩ := by
  have hne : (F.statOf row.id path).status ≠ .num (-516002) := by
    intro heq
    rw [heq] at hstat
    exact absurd hstat (by decide)
  unfold msiStatVault bitsAndSize
  rw [h]
  dsimp only
  rw [if_neg hne, if_neg (Bool.eq_false_iff.mp hstat), (sizeOutput_ok h₀ h₁).1]
  dsimp only
  split
  · rfl
  · split <;> rfl

/-- What is reported where the call for the file has failed. -/
theorem msiStatVault_of_failure (h : statChecks H rows p q t s = .ok (.ok (path, row)))
    (hstat : (F.statOf row.id path).status.isNeg = true) :
    F.msiStatVault H rows p q t s = .ok (if (F.statOf row.id path).status = .num (-516002)
      then ⟨.num 0, some "NOTEXIST".toList, some "0".toList⟩
      else ⟨(F.statOf row.id path).status, none, none⟩) := by
  unfold msiStatVault
  rw [h]
  dsimp only
  rw [if_pos hstat, apply_ite Except.ok]

/-- A report fits its buffer. -/
theorem length_typeAndSize {stat : FileStat} (h₀ : 0 ≤ stat.size) (h₁ : stat.size < 2 ^ 63) :
    (typeAndSize stat).2.length + 1 ≤ 20 := by
  unfold typeAndSize
  split
  · exact (sizeOutput_ok h₀ h₁).2
  · split <;> exact (by decide : 1 + 1 ≤ 20)

/-- **What a file is reported as.** The files a path can lead to are classified exactly
where their types do not get in the way of the tests for the two bits. -/
theorem stat_classified_iff (F : FileState) (H : Host)
    (rows : Text → Except Failure (List VaultRow))
    (resourceName physicalPathName type size : MsParam) :
    F.StatClassified H rows resourceName physicalPathName type size ↔
      ∀ path resource row, resourceName.parseMspForStr = some resource →
        physicalPathName.parseMspForStr = some path → type.parseMspForStr ≠ none →
        size.parseMspForStr ≠ none → StatAllowed H rows path resource row →
        (F.statOf row.id path).status.isNeg = false → 0 ≤ (F.statOf row.id path).size →
        (F.statOf row.id path).size < 2 ^ 63 → PlainType (F.statOf row.id path).mode := by
  constructor
  · intro h path resource row hresource hpath htype hsize hallowed hstat h₀ h₁
    have hchecks := statChecks_eq_ok_iff.mpr ⟨resource, hresource, hpath, htype, hsize, hallowed⟩
    have hrun := (h.reported path row hchecks hstat h₀ h₁).1
    rw [msiStatVault_of_success hchecks hstat h₀ h₁] at hrun
    have hsame := StatVault.mk.inj (Except.ok.inj hrun)
    exact (bitsAndSize_eq_iff _).mp
      (Prod.ext (Option.some.inj hsame.2.1) (Option.some.inj hsame.2.2))
  · intro h
    refine ⟨fun path row hchecks hstat h₀ h₁ => ⟨?_, length_typeAndSize h₀ h₁⟩,
      fun path row hchecks hstat => ?_, fun r hr hother => ?_⟩
    · obtain ⟨resource, hresource, hpath, htype, hsize, hallowed⟩ :=
        statChecks_eq_ok_iff.mp hchecks
      rw [msiStatVault_of_success hchecks hstat h₀ h₁, (bitsAndSize_eq_iff _).mpr
        (h path resource row hresource hpath htype hsize hallowed hstat h₀ h₁)]
    · rw [msiStatVault_of_failure hchecks (by rw [hstat]; rfl), if_pos hstat]
    · cases hchecks : statChecks H rows resourceName physicalPathName type size with
      | error fault =>
        unfold msiStatVault at hr
        rw [hchecks] at hr
        exact nomatch hr
      | ok checked =>
        cases checked with
        | error status =>
          unfold msiStatVault at hr
          rw [hchecks] at hr
          obtain rfl := Except.ok.inj hr
          exact ⟨rfl, rfl⟩
        | ok found =>
          obtain ⟨hneg, hne⟩ := hother found.1 found.2 hchecks
          rw [msiStatVault_of_failure hchecks hneg, if_neg hne] at hr
          obtain rfl := Except.ok.inj hr
          exact ⟨rfl, rfl⟩

end FileState

namespace Sample

/-- The row of a resource of the kind the service takes. -/
def vaultRows (_ : Text) : Except Failure (List VaultRow) :=
  .ok [⟨"10".toList, "unixfilesystem".toList, "/vault".toList⟩]

/-- Files of which `rsFileStat` says that they are sockets. -/
def sockets : FileState :=
  { linkHost.files with fileStat := fun _ _ => ⟨.num 0, 0o140755, 0⟩ }

end Sample

/-- A socket is reported as a file. -/
theorem socket_reported_as_file :
    Sample.sockets.msiStatVault Sample.linkHost Sample.vaultRows (.ofText "resc".toList)
        (.ofText "/vault/s".toList) (.ofText []) (.ofText [])
        = .ok ⟨.num 0, some "FILE".toList, some "0".toList⟩
      ∧ ¬ Sample.sockets.StatClassified Sample.linkHost Sample.vaultRows
          (.ofText "resc".toList) (.ofText "/vault/s".toList) (.ofText []) (.ofText []) := by
  have hchecks : FileState.statChecks Sample.linkHost Sample.vaultRows (.ofText "resc".toList)
      (.ofText "/vault/s".toList) (.ofText []) (.ofText [])
      = .ok (.ok ("/vault/s".toList,
        ⟨"10".toList, "unixfilesystem".toList, "/vault".toList⟩)) := by
    rfl
  have hrun : Sample.sockets.msiStatVault Sample.linkHost Sample.vaultRows
      (.ofText "resc".toList) (.ofText "/vault/s".toList) (.ofText []) (.ofText [])
      = .ok ⟨.num 0, some "FILE".toList, some "0".toList⟩ := by
    rfl
  refine ⟨hrun, fun h => ?_⟩
  have hreport := (h.reported _ _ hchecks rfl (by decide) (by decide)).1
  rw [hrun] at hreport
  exact absurd (Except.ok.inj hreport) (by rintro ⟨⟩)
