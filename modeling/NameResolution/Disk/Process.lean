import NameResolution.Disk.Listing
import NameResolution.Disk.RealPath

/-!
# A disk as a file system

The answers a process gets from a disk. Its current directory may be pinned, a
path that was fixed when the process started; otherwise it is the directory the
process stands in. When that was deleted the root stands in for it, with a
warning in the log.
-/

namespace NameResolution

namespace Disk

/-- The path of the process's directory, unless that was deleted. -/
def workingPath? (d : Disk) : Option Path :=
  if d.workingDirectory.gone = 0 then some (pathOf d.workingDirectory.place) else none

/-- The directory relative names are seen from. -/
def currentDirectory (d : Disk) (pinned : Option Path) : Observed Path :=
  match pinned.or d.workingPath? with
  | some p => pure p
  | none => do
    Observed.log .directoryUnavailable
    return pathOf []

def fileExists (d : Disk) (p : Path) : Bool :=
  match d.reach p with
  | .ok (_, .file _) => true
  | _ => false

def directoryExists (d : Disk) (p : Path) : Bool :=
  match d.reach p with
  | .ok (_, .directory) => true
  | _ => false

/-- The text of a file; its bytes have to be UTF-8. -/
def readText (d : Disk) (p : Path) : Except FileError String :=
  match d.reach p with
  | .error e => .error e
  | .ok (_, .file bytes) =>
    match String.fromUTF8? (ByteArray.mk bytes.toArray) with
    | some text => .ok text
    | none => .error .invalidData
  | .ok _ => .error .isADirectory

/-- A path as seen from a directory; an absolute one as it is. -/
def resolvePath (cwd : Observed Path) (p : Path) : Observed Path :=
  if p.isAbsolute then pure p
  else do return (← cwd).join p

/-- The file system that a process of the disk sees. Cases are told apart. -/
def fileSystem (d : Disk) (pinned : Option Path) (executing : Path) (newLine : String) :
    FileSystem where
  casePolicy := .sensitive
  newLine := newLine
  currentDirectory := d.currentDirectory pinned
  executingFile := executing
  fileExists := d.fileExists
  directoryExists := d.directoryExists
  readText := d.readText
  filesBelow := d.filesBelow
  subdirectories := d.subdirectories
  resolvePath := resolvePath (d.currentDirectory pinned)
  realPath := d.realPath

end Disk

end NameResolution
