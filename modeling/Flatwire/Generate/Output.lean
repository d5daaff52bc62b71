import Flatwire.FileTree
import Flatwire.Text.Quoted

/-! Files that generators produce, and how they get to their places. Their paths are given part by part, so that no part
can lead out of the destination directory. -/

namespace Flatwire

structure OutputFile where
  path : List Bytes
  content : Bytes
deriving DecidableEq, Repr

inductive OutputError where
  | emptyPath
  | badPart (path : List Bytes) (part : Bytes)
  | absolutePart (path : List Bytes) (part : Bytes)
  | separatorInPart (path : List Bytes) (part : Bytes)
  | noFiles
  | file (e : FileError)
deriving DecidableEq, Repr

def OutputError.message : OutputError → Bytes
  | emptyPath => "invalid output path []: empty"
  | badPart path part => "invalid output path " ++ Text.quoteList path ++ ": bad path component " ++ Text.quote part
  | absolutePart path part =>
    "invalid output path " ++ Text.quoteList path ++ ": absolute path component " ++ Text.quote part
  | separatorInPart path part =>
    "invalid output path " ++ Text.quoteList path ++ ": component " ++ Text.quote part ++ " contains a path separator"
  | noFiles => "generator did not produce any output files"
  | file e => e.message

def partError? (path : List Bytes) (part : Bytes) : Option OutputError :=
  if part = [] ∨ part = Bytes.ofString "." ∨ part = Bytes.ofString ".." then some (.badPart path part)
  else if part.head? = some Path.slash then some (.absolutePart path part)
  else if part.contains Path.slash || part.contains 0x5C then some (.separatorInPart path part)
  else none

def outputPath (dest : Bytes) (path : List Bytes) : Except OutputError Path :=
  if path.isEmpty then .error .emptyPath
  else
    match path.findSome? (partError? path) with
    | some e => .error e
    | none => .ok (Path.join (dest :: path))

/-- The places of all files, before any is written. -/
def outputPaths (dest : Bytes) : List OutputFile → Except OutputError (List (Path × Bytes))
  | [] => .ok []
  | f :: fs =>
    match outputPath dest f.path with
    | .error e => .error e
    | .ok p =>
      match outputPaths dest fs with
      | .error e => .error e
      | .ok ps => .ok ((p, f.content) :: ps)

/-- Writes files in order. A failure leaves what was done before it. -/
def FileTree.writeAll (t : FileTree) : List (Path × Bytes) → Option FileError × FileTree
  | [] => (none, t)
  | (p, content) :: ps =>
    match t.makeDirs p.parent.chain with
    | (some e, t) => (some e, t)
    | (none, t) =>
      match t.writeFile p content with
      | .error e => (some e, t)
      | .ok t => t.writeAll ps

/-- Writes the files of a generator under a directory, or none if one of their paths is bad. -/
def writeOutputs (t : FileTree) (dest : Bytes) (files : List OutputFile) : Option OutputError × FileTree :=
  if files.isEmpty then (some .noFiles, t)
  else
    match outputPaths dest files with
    | .error e => (some e, t)
    | .ok places =>
      let (e, t) := t.writeAll places
      (e.map .file, t)

end Flatwire
