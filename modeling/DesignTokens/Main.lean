import DesignTokens.CommandLine.Run
import Std.Time.DateTime.Timestamp

/-!
The command line. A run sees the directory that the root option names and all below it, and what it changed there is
written back.
-/

namespace DesignTokens.Main

/-- Where the root directory is found. -/
structure Site where
  home : Location
  root : Location

/-- The text of a location. -/
def locationText (loc : Location) : String := "/" ++ "/".intercalate loc

/-- The current directory, and the root directory of an invocation. -/
def site (i : CommandLine.Invocation) : IO Site := do
  let home := Disk.locate [] ⟨(← IO.currentDir).toString⟩
  return ⟨home, Disk.locate home i.root⟩

/-- Adds the files and directories below a directory. -/
partial def load (d : Disk) (loc : Location) : IO Disk := do
  let here := (← IO.currentDir) / locationText loc
  unless ← here.isDir do return d
  let mut d := (d.makeDirectories ⟨locationText loc⟩).1
  for entry in ← here.readDir do
    let below := loc ++ [entry.fileName]
    match (← entry.path.symlinkMetadata).type with
    | .dir => d ← load d below
    | .file => d := (d.write ⟨locationText below⟩ (← IO.FS.readBinFile entry.path)).toOption.getD d
    | _ => pure ()
  return d

/-- Carries the changes of a run over to the directory. -/
def store (before after : Disk) : IO Unit := do
  let top ← IO.currentDir
  for (loc, item) in before.items.reverse do
    if after.item? loc != some item then
      match item, after.item? loc with
      | .directory, none => IO.FS.removeDir (top / locationText loc)
      | .file _, none => IO.FS.removeFile (top / locationText loc)
      | _, _ => pure ()
  for (loc, item) in after.items do
    if before.item? loc != some item then
      match item with
      | .directory => IO.FS.createDirAll (top / locationText loc)
      | .file bytes => IO.FS.writeBinFile (top / locationText loc) bytes

end DesignTokens.Main

open DesignTokens in
/-- Runs what the arguments ask for. -/
def main (args : List String) : IO UInt32 := do
  match CommandLine.Invocation.ofArguments args with
  | none =>
    IO.eprintln "usage: [-r ROOT] [-c CONFIG] COMMAND"
    return 2
  | some i =>
    let site ← Main.site i
    let before ← Main.load ((Disk.empty site.home).makeDirectories ⟨Main.locationText site.home⟩).1 site.root
    let now ← Std.Time.Timestamp.now
    let (outcome, after) := CommandLine.run args ⟨now.toMillisecondsSinceUnixEpoch.val⟩ before
    Main.store before after
    IO.print outcome.stdout
    IO.eprint outcome.stderr
    return UInt32.ofNat outcome.exit
