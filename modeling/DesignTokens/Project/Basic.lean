import DesignTokens.Fault
import DesignTokens.Layout.Reader

/-!
Projects on a disk, and jobs: runs that read and change the disk and may stop with a fault. What a job changed before
a fault stays changed.
-/

namespace DesignTokens

/-- A project: its root directory, and the layout below it. -/
structure Project where
  root : Path
  layout : Layout
  deriving DecidableEq

/-- A run that reads and changes a disk. -/
abbrev Job := ExceptT Fault (StateM Disk)

/-- The text of a file, or the fault of having none. -/
def Disk.loadText (d : Disk) (p : Path) : Except Fault String := (d.readText p).mapError (.disk p)

namespace Job

variable {α : Type}

/-- A result that may be a fault. -/
def ofExcept (x : Except Fault α) : Job α := fun d => (x, d)

/-- A result that depends on the disk as it is. -/
def inspect (f : Disk → Except Fault α) : Job α := fun d => (f d, d)

/-- The text of a file. -/
def loadText (p : Path) : Job String := inspect fun d => d.loadText p

/-- Writes a whole file. -/
def writeText (p : Path) (text : String) : Job Unit := fun d =>
  match d.write p text.toUTF8 with
  | .ok d => (.ok (), d)
  | .error flaw => (.error (.disk p flaw), d)

/-- Makes a directory and those above it. -/
def makeDirectories (p : Path) : Job Unit := fun d =>
  match d.makeDirectories p with
  | (d, result) => (result.mapError (.disk p), d)

/-- Removes a directory and all below it; one that its path does not lead to, or no longer, is removed already. -/
def removeDirectory (p : Path) : Job Unit := fun d =>
  match d.removeDirectory p with
  | (d, .error .notFound) => (.ok (), d)
  | (d, result) => (result.mapError (.disk p), d)

end Job

namespace Layout

/-- The file in the project root that is read when no other is named. -/
def configFile : Path := ⟨"tokenforge.json"⟩

/-- The layout of a project: from the file named, which must exist, or from the usual one if it exists. -/
def load (d : Disk) (root : Path) (config : Option Path) : Except Fault Layout :=
  match config with
  | some p => d.loadText (root.join p) >>= ofText
  | none =>
    if d.exists? (root.join configFile) then d.loadText (root.join configFile) >>= ofText else .ok {}

end Layout

end DesignTokens
