import Flatwire.Generate.Identifier
import Flatwire.Schema

/-! Identifiers that generated source declares, at package level and as members of its types, each with what it is made
from. Two of them may not be equal. -/

namespace Flatwire.Generate

structure Declared where
  ident : Bytes
  owner : Bytes
deriving DecidableEq, Repr

variable [Libraries]

def titled (kind : String) (path : List Bytes) : Bytes := kind ++ " `" ++ pathName path ++ "`"

def method (type name : Bytes) : Declared :=
  let ident := type ++ "." ++ name
  ⟨ident, "generated method `" ++ ident ++ "`"⟩

def enumDeclared (e : EnumType) : List Declared :=
  let name := exportedName e.name
  ⟨name, titled "enum" [e.name]⟩ :: e.variants.map fun v =>
    ⟨name ++ "_" ++ exportedName v.name, titled "enum variant" [e.name, v.name]⟩

def sequenceDeclared (q : SequenceType) : List Declared :=
  let owner := titled "sequence" [q.name]
  let writer := exportedName q.name ++ "Writer"
  let reader := exportedName q.name ++ "Reader"
  [⟨writer, owner⟩, ⟨reader, owner⟩, ⟨"New" ++ reader, owner⟩, method writer "StaticSize", method writer "WriteComponent",
    method writer "Write", method reader "Addr"] ++
  q.fields.flatMap fun f =>
    let fieldOwner := titled "field" [q.name, f.name]
    [⟨writer ++ "." ++ exportedName f.name, fieldOwner⟩, ⟨reader ++ "." ++ exportedName f.name, fieldOwner⟩]

def unionDeclared (o : OneOfType) : List Declared :=
  let owner := titled "oneof" o.path
  let name := unionName o.path
  let writer := name ++ "Writer"
  let reader := name ++ "Reader"
  [⟨writer, owner⟩, ⟨reader, owner⟩, method reader "Addr", method reader "Tag"] ++
  o.variants.flatMap fun v =>
    let variant := exportedName v.name
    let variantOwner := titled "oneof variant" [pathName o.path, v.name]
    [⟨name ++ "_" ++ variant, variantOwner⟩, ⟨"New" ++ writer ++ variant, variantOwner⟩,
      ⟨reader ++ ".As" ++ variant, variantOwner⟩]

def declared (s : Schema) : List Declared :=
  (s.declTypes.flatMap fun
    | .enum e => enumDeclared e
    | .sequence q => sequenceDeclared q
    | _ => []) ++
  s.unions.flatMap fun (_, o) => unionDeclared o

/-- Two parts of a schema that give rise to one identifier. -/
structure NameConflict where
  ident : Bytes
  first : Bytes
  second : Bytes
deriving DecidableEq, Repr

def NameConflict.message (c : NameConflict) : Bytes :=
  "go generator: " ++ c.first ++ " and " ++ c.second ++ " both generate Go identifier `" ++ c.ident ++ "`"

/-- The first identifier that one before it, also among those in `seen`, is equal to. -/
def firstConflict (seen : List Declared) : List Declared → Option NameConflict
  | [] => none
  | d :: ds =>
    match seen.find? fun e => e.ident = d.ident with
    | some e => some ⟨d.ident, e.owner, d.owner⟩
    | none => firstConflict (d :: seen) ds

def conflict? (s : Schema) : Option NameConflict := firstConflict [] (declared s)

end Flatwire.Generate
