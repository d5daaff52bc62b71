import Flatwire.Source.Span
import Flatwire.Token

/-! The concrete syntax tree of a schema. It keeps every byte of the source: each construct holds its words and marks
in the order of the grammar and, between them, gaps of blanks, line ends and comments. -/

namespace Flatwire

structure Lexeme where
  start : Nat
  text : Bytes
deriving DecidableEq, Repr

def Lexeme.span (l : Lexeme) : Span := ⟨l.start, l.text.length⟩

/-- What may stand between two tokens. -/
inductive Trivium where
  | space (l : Lexeme)
  | newline (l : Lexeme)
  | comment (l : Lexeme)
deriving DecidableEq, Repr

abbrev Gap := List Trivium

/-- A comment of three slashes documents what follows. -/
def isDocComment (text : Bytes) : Bool := Bytes.ofString "///" |>.isPrefixOf text

structure IntLit where
  lexeme : Lexeme
  value : UInt64
deriving DecidableEq, Repr

mutual

inductive TypeExpr where
  | name (ident : Lexeme)
  | list (span : Span) (opening : Lexeme) (gap₁ : Gap) (elem : TypeExpr) (gap₂ : Gap) (closing : Lexeme)
  | oneOf (span : Span) (keyword : Lexeme) (gap₁ : Gap) (opening : Lexeme) (gap₂ : Gap) (variants : FieldList)
      (closing : Lexeme)

/-- A named, typed member of a sequence, or a variant of a oneof. -/
inductive FieldExpr where
  | mk (span : Span) (name : Lexeme) (gap₁ : Gap) (colon : Lexeme) (gap₂ : Gap) (type : TypeExpr) (gap₃ : Gap)
      (semicolon : Lexeme)

inductive FieldList where
  | nil
  | cons (field : FieldExpr) (gap : Gap) (rest : FieldList)

end

namespace TypeExpr

def span : TypeExpr → Span
  | name ident => ident.span
  | list s .. => s
  | oneOf s .. => s

end TypeExpr

namespace FieldExpr

def span : FieldExpr → Span
  | mk s .. => s

def name : FieldExpr → Lexeme
  | mk _ n .. => n

def type : FieldExpr → TypeExpr
  | mk _ _ _ _ _ t .. => t

end FieldExpr

def FieldList.toList : FieldList → List FieldExpr
  | nil => []
  | cons f _ r => f :: r.toList

structure EnumItem where
  span : Span
  name : Lexeme
  gap₁ : Gap
  equals : Lexeme
  gap₂ : Gap
  value : IntLit
  gap₃ : Gap
  semicolon : Lexeme

structure EnumDecl where
  span : Span
  keyword : Lexeme
  gap₁ : Gap
  name : Lexeme
  gap₂ : Gap
  opening : Lexeme
  gap₃ : Gap
  /-- Each item with the gap behind it. -/
  itemsWithGaps : List (EnumItem × Gap)
  closing : Lexeme

def EnumDecl.items (d : EnumDecl) : List EnumItem := d.itemsWithGaps.map (·.1)

structure SequenceDecl where
  span : Span
  keyword : Lexeme
  gap₁ : Gap
  name : Lexeme
  gap₂ : Gap
  opening : Lexeme
  gap₃ : Gap
  fieldList : FieldList
  closing : Lexeme

def SequenceDecl.fields (d : SequenceDecl) : List FieldExpr := d.fieldList.toList

inductive Decl where
  | enum (d : EnumDecl)
  | sequence (d : SequenceDecl)

def Decl.name : Decl → Lexeme
  | enum d => d.name
  | sequence d => d.name

def Decl.kindName : Decl → String
  | enum _ => "enum"
  | sequence _ => "sequence"

structure SchemaTree where
  span : Span
  gap : Gap
  /-- Each declaration with the gap behind it. -/
  declsWithGaps : List (Decl × Gap)

def SchemaTree.decls (t : SchemaTree) : List Decl := t.declsWithGaps.map (·.1)

end Flatwire
