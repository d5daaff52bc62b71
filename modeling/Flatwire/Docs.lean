import Flatwire.Schema

/-! A schema as a page of Markdown: a section for every declaration and every union. -/

namespace Flatwire.Docs

def code (name : Bytes) : Bytes := "`" ++ name ++ "`"

def row (cells : List Bytes) : Bytes := "| " ++ Bytes.join " | " cells ++ " |\n"

def enumSection (e : EnumType) : Bytes :=
  "\n## enum " ++ code e.name ++ "\n\nEncoded as a " ++ Bytes.decimal e.width.toNat ++ "-byte unsigned integer.\n\n" ++
    "| Variant | Value |\n|---|---|\n" ++ e.variants.flatMap fun v => row [code v.name, Bytes.decimal v.value.toNat]

def fieldRow (f : Field) (type : Bytes) : Bytes := row [code f.name, code type, Bytes.decimal f.offset.toNat]

def sequenceText (q : SequenceType) (rows : List Bytes) : Bytes :=
  let fields : Bytes := if rows.isEmpty then [] else "\n| Field | Type | Offset |\n|---|---|---|\n" ++ rows.flatten
  "\n## sequence " ++ code q.name ++ "\n\nStatic size: " ++ Bytes.decimal q.size.toNat ++ " bytes.\n" ++ fields

def sequenceSection (s : Schema) (q : SequenceType) : Bytes :=
  sequenceText q (q.fields.map fun f => fieldRow f (s.typeName f.type))

def declSection (s : Schema) : TypeDef → Bytes
  | .enum e => enumSection e
  | .sequence q => sequenceSection s q
  | _ => []

def variantRow (v : Variant) (type : Bytes) : Bytes := row [code v.name, code type, Bytes.decimal v.tag.toNat]

def unionText (o : OneOfType) (rows : List Bytes) : Bytes :=
  "\n## oneof " ++ code (pathName o.path) ++ "\n\n| Variant | Type | Tag |\n|---|---|---|\n" ++ rows.flatten

def unionSection (s : Schema) (o : OneOfType) : Bytes :=
  unionText o (o.variants.map fun v => variantRow v (s.typeName v.type))

def title (s : Schema) : Bytes := "# Schema " ++ code s.name ++ "\n"

def page (s : Schema) : Bytes :=
  title s ++ s.declTypes.flatMap (declSection s) ++ s.unions.flatMap fun p => unionSection s p.2

/-! The same page for a schema where the name of a type may have no end. -/

def declSection? (s : Schema) : TypeDef → Option Bytes
  | .enum e => some (enumSection e)
  | .sequence q => (q.fields.mapM fun f => (s.typeName? f.type).map (fieldRow f)).map (sequenceText q)
  | _ => some []

def unionSection? (s : Schema) (o : OneOfType) : Option Bytes :=
  (o.variants.mapM fun v => (s.typeName? v.type).map (variantRow v)).map (unionText o)

def page? (s : Schema) : Option Bytes := do
  let decls ← s.declTypes.mapM (declSection? s)
  let unions ← s.unions.mapM fun p => unionSection? s p.2
  return title s ++ decls.flatten ++ unions.flatten

def pageName (fileName : Bytes) : Bytes :=
  let stem : Bytes := if fileName.isEmpty then "schema" else fileName
  stem ++ ".md"

end Flatwire.Docs
