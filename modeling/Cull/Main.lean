import Cull.Command.Basic

/-!
# The command line

The working directory is read, the command is performed on it, and what has
changed is written back.
-/

namespace Cull.Command

/-- Reads what stands at a location and below it. Links are not followed. -/
partial def readEntry (above : Location) (e : IO.FS.DirEntry) : IO Listing := do
  let l := above ++ [e.fileName.toList]
  match (← e.path.symlinkMetadata).type with
  | .dir =>
    let mut entries := [(l, Entry.directory)]
    for child in ← e.path.readDir do
      entries := entries ++ (← readEntry l child)
    return entries
  | .file =>
    let bytes ← IO.FS.readBinFile e.path
    return [(l, .file (.ofBytes bytes.toList))]
  | _ => return []

/-- Reads the working directory. Of what stands elsewhere, only the directories on the way are known. -/
def readDirectory : IO Directory := do
  let path ← IO.currentDir
  let here := (Path.parts path.toString.toList).filter Path.isName
  let mut entries := []
  for e in ← path.readDir do
    entries := entries ++ (← readEntry here e)
  return (Directory.empty.enter here).fill entries

/-- The path of a location, from the root on. -/
def absolutePath (l : Location) : Text := '/' :: ['/'].intercalate l

/-- Writes the files that are not as they were before. -/
def writeChanges (before after : Directory) : IO Unit := do
  for (l, e) in after.entries do
    match e with
    | .directory => pure ()
    | .file content =>
      if before.get? l ≠ some e then
        IO.FS.writeBinFile (String.ofList (absolutePath l)) ⟨content.bytes.toArray⟩

end Cull.Command

/-- The command line. -/
def main (args : List String) : IO UInt32 := do
  let directory ← Cull.Command.readDirectory
  match Cull.Command.run? directory (args.map String.toList) with
  | none =>
    IO.eprintln "error: the arguments are not accepted"
    return 2
  | some effect =>
    Cull.Command.writeChanges directory effect.directory
    IO.print (String.ofList effect.output)
    for line in effect.errors do
      IO.eprintln (String.ofList line)
    return effect.exit.toUInt32
