import Flatwire.Path

/-! A tree of files, as far as a run can see and change it. A file may have several names, and a symbolic link may stand
where a path goes through or ends. -/

namespace Flatwire

inductive FileFault where
  | notFound | notDirectory | isDirectory | present | badName | longName | manyLinks
deriving DecidableEq, Repr

structure FileError where
  operation : String
  path : Bytes
  fault : FileFault
deriving DecidableEq, Repr

def FileFault.message : FileFault → String
  | notFound => "no such file or directory"
  | notDirectory => "not a directory"
  | isDirectory => "is a directory"
  | present => "file exists"
  | badName => "invalid argument"
  | longName => "file name too long"
  | manyLinks => "too many levels of symbolic links"

def FileError.message (e : FileError) : Bytes := e.operation ++ " " ++ e.path ++ ": " ++ e.fault.message

/-- The names on the way from the root. -/
abbrev Location := List Bytes

structure StoredFile where
  names : List Location
  content : Bytes
deriving DecidableEq, Repr

structure FileTree where
  files : List StoredFile
  dirs : List Location
  /-- Each link with the path that it stands for. -/
  links : List (Location × Bytes)
  /-- The working directory. -/
  here : Location
deriving DecidableEq, Repr

/-- One part further on. -/
def Location.step (p : Location) (part : Bytes) : Location :=
  if part = [] ∨ part = Bytes.ofString "." then p else if part = Bytes.ofString ".." then p.dropLast else p ++ [part]

namespace FileTree

def empty : FileTree := ⟨[], [], [], []⟩

/-! ### Looking -/

def link? (t : FileTree) (p : Location) : Option Bytes := if p.isPrefixOf t.here then none else t.links.lookup p

def isDir (t : FileTree) (p : Location) : Bool :=
  (t.link? p).isNone && (p.isPrefixOf t.here || t.dirs.contains p)

/-- Which file has a name. -/
def fileNamed? (t : FileTree) (p : Location) : Option Nat := t.files.findIdx? (·.names.contains p)

def maxPart : Nat := 255

def maxPath : Nat := 4095

def maxLinks : Nat := 40

def pathFault? (path : Bytes) : Option FileFault :=
  if path.contains 0 then some .badName else if path.length > maxPath then some .longName else none

/-- What is wrong with going on from a place by one part. -/
def stepFault? (t : FileTree) (p : Location) (part : Bytes) : Option FileFault :=
  if !t.isDir p then some (if (t.fileNamed? p).isSome then .notDirectory else .notFound)
  else if part.length > maxPart then some .longName
  else none

/-- A walk that has come to its end, or to a link with the text of the link and the parts that are left. -/
inductive Stretch where
  | done (p : Location)
  | link (dir : Location) (text : Bytes) (rest : List Bytes)
deriving DecidableEq, Repr

def stretch (t : FileTree) (p : Location) : List Bytes → Except FileFault Stretch
  | [] => .ok (.done p)
  | part :: parts =>
    match t.stepFault? p part with
    | some fault => .error fault
    | none =>
      match t.link? (p.step part) with
      | some text => .ok (.link p text parts)
      | none => t.stretch (p.step part) parts

def root (t : FileTree) (rooted : Bool) : Location := if rooted then [] else t.here

/-- Where the parts of a path lead. Only so many links are followed; the last place need not have anything. -/
def walk (t : FileTree) (links : Nat) (p : Location) (parts : List Bytes) : Except FileFault Location :=
  match t.stretch p parts with
  | .error fault => .error fault
  | .ok (.done q) => .ok q
  | .ok (.link dir text rest) =>
    match links with
    | 0 => .error .manyLinks
    | links + 1 =>
      t.walk links (if text.head? = some Path.slash then [] else dir) (Bytes.splitOn Path.slash text ++ rest)

/-- Where a path leads. -/
def find (t : FileTree) (p : Path) : Except FileFault Location := t.walk maxLinks (t.root p.rooted) p.parts

def readFile (t : FileTree) (path : Bytes) : Except FileError Bytes :=
  if path.isEmpty then .error ⟨"open", path, .notFound⟩
  else
    match pathFault? path with
    | some fault => .error ⟨"open", path, fault⟩
    | none =>
      match t.find ⟨path.head? = some Path.slash, Bytes.splitOn Path.slash path⟩ with
      | .error fault => .error ⟨"open", path, fault⟩
      | .ok p =>
        if t.isDir p then .error ⟨"read", path, .isDirectory⟩
        else
          match (t.fileNamed? p).bind fun i => t.files[i]? with
          | some f => .ok f.content
          | none => .error ⟨"open", path, .notFound⟩

/-! ### Changing -/

def addDir (t : FileTree) (p : Location) : FileTree := { t with dirs := t.dirs ++ [p] }

/-- Sets the content of a file, which may be new. -/
def put (t : FileTree) (p : Location) (content : Bytes) : FileTree :=
  match t.fileNamed? p with
  | some i => { t with files := t.files.modify i fun f => { f with content := content } }
  | none => { t with files := t.files ++ [⟨[p], content⟩] }

/-- Makes the directory that a path names, for which its parent has to be there and the name to be free. -/
def makeDir (t : FileTree) (p : Path) : Except FileFault FileTree :=
  match t.find p.parent with
  | .error fault => .error fault
  | .ok dir =>
    let name := p.parts.getLast?.getD []
    match t.stepFault? dir name with
    | some fault => .error fault
    | none =>
      let q := Location.step dir name
      if (t.link? q).isSome || t.isDir q || (t.fileNamed? q).isSome then .error .present else .ok (t.addDir q)

/-- Makes a directory unless it is there already. -/
def ensureDir (t : FileTree) (p : Path) (last : Bool) : Except FileFault FileTree :=
  match t.find p with
  | .error _ => t.makeDir p
  | .ok q =>
    if t.isDir q then .ok t
    else if last && (t.fileNamed? q).isSome then .error .notDirectory
    else t.makeDir p

/-- Makes directories, each in the one before. All but the last are asked for with a slash behind them, which nothing but
a directory can have. -/
def makeDirs (t : FileTree) : List Path → Option FileError × FileTree
  | [] => (none, t)
  | p :: ps =>
    let text := if ps.isEmpty then p.text else p.text ++ [Path.slash]
    match pathFault? text with
    | some fault => (some ⟨"mkdir", text, fault⟩, t)
    | none =>
      match t.ensureDir p ps.isEmpty with
      | .error fault => (some ⟨"mkdir", text, fault⟩, t)
      | .ok t => t.makeDirs ps

/-- Writes a file, through a link if there is one. -/
def writeFile (t : FileTree) (p : Path) (content : Bytes) : Except FileError FileTree :=
  match pathFault? p.text with
  | some fault => .error ⟨"open", p.text, fault⟩
  | none =>
    match t.find p with
    | .error fault => .error ⟨"open", p.text, fault⟩
    | .ok q => if t.isDir q then .error ⟨"open", p.text, .isDirectory⟩ else .ok (t.put q content)

/-! ### Content -/

/-- A place that is named without links. -/
def place (t : FileTree) (p : Path) : Location := p.parts.foldl Location.step (t.root p.rooted)

def withDir (t : FileTree) (p : Location) : FileTree := if t.isDir p then t else t.addDir p

/-- The tree with a file of a given content, and with the directories that lead to it. -/
def withFile (t : FileTree) (path content : Bytes) : FileTree :=
  let q := t.place (Path.clean path)
  (((List.range q.length).map q.take).foldl withDir t).put q content

def withLink (t : FileTree) (path text : Bytes) : FileTree :=
  { t with links := (t.place (Path.clean path), text) :: t.links }

def contents (t : FileTree) : List (Location × Bytes) := t.files.flatMap fun f => f.names.map (·, f.content)

def changes (before after : FileTree) : List (Location × Bytes) := after.contents.filter (!before.contents.contains ·)

end FileTree

end Flatwire
