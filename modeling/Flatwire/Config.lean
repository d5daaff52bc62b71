import Flatwire.FileTree
import Flatwire.Libraries

/-! Configuration files. Relative paths in one start at its own directory. -/

namespace Flatwire.Config

/-- The name under which a file is looked for if none is given. -/
def defaultPath : Bytes := "sbc.yaml"

inductive Error where
  | file (e : FileError)
  | content (path message : Bytes)

def Error.message : Error → Bytes
  | file e => e.message
  | content path message => path ++ ": " ++ message

def resolve (dir p : Bytes) : Bytes :=
  if p.isEmpty || p.head? = some Path.slash then p else (Path.join [dir, p]).text

def resolved (c : Config) (dir : Bytes) : Config :=
  { c with srcDir := resolve dir c.srcDir, dstDir := resolve dir c.dstDir, libs := c.libs.map (resolve dir) }

variable [Libraries]

def read (path : Bytes) (content : Except Bytes Bytes) : Except Error Config :=
  match Libraries.readConfig content with
  | .error message => .error (.content path message)
  | .ok c => .ok (c.resolved (Path.dir path))

/-- The configuration in a file. A file that is not there is an error only if it is required. -/
def load (tree : FileTree) (path : Bytes) (required : Bool) : Except Error Config :=
  match tree.readFile path with
  | .ok content => read path (.ok content)
  | .error e =>
    if e.fault = .notFound && !required then .ok {}
    else if e.fault = .isDirectory then read path (.error e.message)
    else .error (.file e)

def args (c : Config) (generator : Bytes) : List Bytes :=
  ((c.generators.find? fun g => g.1 = generator).map (·.2)).getD []

end Flatwire.Config
