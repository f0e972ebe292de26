import ScriptLift.Decompile

/-!
# The program

The files that the command line names are read into a tree, the work is done on that tree, and
what is new in it is written back.  Events go to the standard error, the listing to the standard
output.
-/

namespace ScriptLift.FileTree

/-- The tree with what is on the disk at a path. -/
def addFromDisk (t : FileTree) (p : Path) : IO FileTree := do
  match t.locate p with
  | .error _ => return t
  | .ok spot =>
    let place := (← IO.currentDir) / p.text
    if ← place.isDir then
      return if spot.here.isNone then spot.put empty else t
    if ← place.pathExists then
      return spot.put (file (← IO.FS.readBinFile place).toList)
    return t

/-- The tree with what is on the disk at a path and on the way to it. -/
def addFromDiskAlong (t : FileTree) (p : Path) : IO FileTree :=
  (List.range (p.parts.length + 1)).foldlM
    (fun t n => t.addFromDisk { p with parts := p.parts.take n }) t

/-- The tree with what is on the disk at a target. -/
def addTarget (t : FileTree) : Target → IO FileTree
  | .path p => t.addFromDiskAlong p
  | .nothing => return t

/-- Write the files and directories that the first tree does not have. -/
def writeNew (old new : FileTree) : IO Unit := do
  let oldDirectories := old.directories
  for l in new.directories do
    unless oldDirectories.contains l do
      IO.FS.createDirAll ("/".intercalate l)
  let oldFiles := old.files
  for (l, bytes) in new.files do
    unless oldFiles.contains (l, bytes) do
      IO.FS.writeBinFile ("/".intercalate l) ⟨bytes.toArray⟩

end ScriptLift.FileTree

open ScriptLift

/-- Run the command line.  The exit code is 2 for arguments that are refused, 1 for a failure that
no report was made of, and else that of the run. -/
def main (arguments : List String) : IO UInt32 := do
  match CommandLine.parse arguments with
  | .error .help =>
    IO.println CommandLine.usage
    return 0
  | .error (.refused e) =>
    IO.eprintln CommandLine.usage
    IO.eprintln e.text
    return 2
  | .ok options =>
    let targets := [.path options.path, options.natives, options.aliases] ++ options.drawings.toList
    let tree ← targets.foldlM FileTree.addTarget .empty
    let out := run options (fun _ => .notInstalled) tree
    for event in out.events do
      IO.eprintln event.text
    tree.writeNew out.tree
    match out.value with
    | .ok (exit, text) =>
      IO.print text
      return exit.toUInt32
    | .error e =>
      IO.eprintln e.message
      return 1
