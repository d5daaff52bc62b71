import Flatwire.Command
import Flatwire.Stock

/-! The program: it reads the files that a run asks for, runs on them, and writes back what changed. -/

namespace Flatwire

/-- No module can be run here, so every plugin is refused. -/
def refuseModules : Plugin.Loader Unit := fun _ _ content =>
  .error (if content.take 4 = [0x00, 0x61, 0x73, 0x6D] then "modules cannot be run" else "invalid magic number")

def addFromDisk (t : FileTree) (p : Path) : IO FileTree := do
  let name := Utf8.toStringLossy p.text
  try
    if ← (← IO.FS.realPath name).isDir then return t.withDir (t.place p)
    return t.put (t.place p) (← IO.FS.readBinFile name).toList
  catch _ => return t

def addAllFromDisk (t : FileTree) (paths : List Path) : IO FileTree :=
  (paths.flatMap Path.chain).foldlM addFromDisk t

def writeToDisk (file : Path × Bytes) : IO Unit := do
  IO.FS.createDirAll (Utf8.toStringLossy file.1.parent.text)
  IO.FS.writeBinFile (Utf8.toStringLossy file.1.text) ⟨file.2.toArray⟩

def outputs [Libraries] (tree : FileTree) (argv : List Bytes) : List (Path × Bytes) :=
  match (Command.plan tree refuseModules false argv).run.run {} with
  | (.ok job, _) =>
    match outputPaths job.dstDir job.files with
    | .ok places => places
    | .error _ => []
  | _ => []

end Flatwire

open Flatwire in
def main (args : List String) : IO UInt32 := letI : Libraries := Stock.libraries; do
  let argv := args.map Bytes.ofString
  let mut tree := { FileTree.empty with here := (Path.clean (Bytes.ofString (← IO.currentDir).toString)).parts }
  -- the configuration names further files, so its own content comes first
  for _ in [0, 1] do
    tree ← addAllFromDisk tree ((Command.inputs tree argv).map Path.clean)
  let planned := outputs tree argv
  tree ← addAllFromDisk tree (planned.map (·.1))
  let stderr ← IO.getStderr
  let o := Command.run tree refuseModules (← stderr.isTty) argv
  (← IO.getStdout).write ⟨o.console.stdout.toArray⟩
  -- links are left to the disk, so the files are written there in the order of the run
  let written := if o.exit = some 0 then planned else (tree.changes o.tree).map fun (q, b) => (⟨true, q⟩, b)
  written.forM writeToDisk
  stderr.write ⟨o.console.stderr.toArray⟩
  return UInt32.ofNat (o.exit.getD 2)
