import Flatwire.Tree

/-! The uniform view of a syntax tree: leaves with their text, and branches with a span and children. Walking and
unparsing are defined on it once for all constructs. -/

namespace Flatwire

inductive Branch where
  | schema | enum | enumItem | sequence | field | typeName | listType | oneOf
deriving DecidableEq, Repr

inductive LeafKind where
  | space | newline | comment | ident | sigil | keyword
  | int (value : UInt64)
deriving DecidableEq, Repr

inductive Node where
  | leaf (kind : LeafKind) (lexeme : Lexeme)
  | branch (kind : Branch) (span : Span) (children : List Node)

namespace Node

def kindName : Node → String
  | leaf .space _ => "Space"
  | leaf .newline _ => "Newline"
  | leaf .comment _ => "Comment"
  | leaf .ident _ => "Ident"
  | leaf .sigil _ => "Sigil"
  | leaf .keyword _ => "Keyword"
  | leaf (.int _) _ => "IntLit"
  | branch .schema .. => "Schema"
  | branch .enum .. => "Enum"
  | branch .enumItem .. => "EnumItem"
  | branch .sequence .. => "Sequence"
  | branch .field .. => "Field"
  | branch .typeName .. => "TypeName"
  | branch .listType .. => "ListType"
  | branch .oneOf .. => "OneOf"

def span : Node → Span
  | leaf _ l => l.span
  | branch _ s _ => s

def children : Node → List Node
  | leaf .. => []
  | branch _ _ cs => cs

mutual

def unparse : Node → Bytes
  | leaf _ l => l.text
  | branch _ _ cs => unparseAll cs

def unparseAll : List Node → Bytes
  | [] => []
  | n :: ns => n.unparse ++ unparseAll ns

end

/-- What a walk reports: a node when it is met, and the end of a node whose children were visited. -/
inductive Event where
  | enter (n : Node)
  | leave

mutual

/-- The events of a walk in source order. Where `descend` is false the node's children and its end are left out. -/
def walk (descend : Node → Bool) : Node → List Event
  | leaf k l => .enter (leaf k l) :: if descend (leaf k l) then [.leave] else []
  | branch k s cs =>
    .enter (branch k s cs) :: if descend (branch k s cs) then walkAll descend cs ++ [.leave] else []

def walkAll (descend : Node → Bool) : List Node → List Event
  | [] => []
  | n :: ns => walk descend n ++ walkAll descend ns

end

/-- Every node of the tree, each before its children. -/
def subnodes (n : Node) : List Node :=
  (n.walk fun _ => true).filterMap fun
    | .enter m => some m
    | .leave => none

def isDecl : Node → Bool
  | branch .enum .. | branch .sequence .. => true
  | _ => false

def isMember : Node → Bool
  | branch .enumItem .. | branch .field .. => true
  | _ => false

def identText (n : Node) : Bytes :=
  (n.children.findSome? fun
    | leaf .ident l => some l.text
    | _ => none).getD []

def decls (n : Node) : List Node := n.children.filter isDecl

def memberNames (n : Node) : List Bytes := (n.children.filter isMember).map identText

end Node

/-! ### The view of each construct -/

def Trivium.toNode : Trivium → Node
  | space l => .leaf .space l
  | newline l => .leaf .newline l
  | comment l => .leaf .comment l

def Gap.toNodes (g : Gap) : List Node := g.map Trivium.toNode

def IntLit.toNode (i : IntLit) : Node := .leaf (.int i.value) i.lexeme

namespace Lexeme

def ident (l : Lexeme) : Node := .leaf .ident l
def sigil (l : Lexeme) : Node := .leaf .sigil l
def keyword (l : Lexeme) : Node := .leaf .keyword l

end Lexeme

mutual

def TypeExpr.toNode : TypeExpr → Node
  | .name i => .branch .typeName i.span [i.ident]
  | .list s o g₁ e g₂ c =>
    .branch .listType s ([o.sigil] ++ Gap.toNodes g₁ ++ [e.toNode] ++ Gap.toNodes g₂ ++ [c.sigil])
  | .oneOf s k g₁ o g₂ vs c =>
    .branch .oneOf s ([k.keyword] ++ Gap.toNodes g₁ ++ [o.sigil] ++ Gap.toNodes g₂ ++ vs.toNodes ++ [c.sigil])

def FieldExpr.toNode : FieldExpr → Node
  | .mk s n g₁ c g₂ t g₃ e =>
    .branch .field s
      ([n.ident] ++ Gap.toNodes g₁ ++ [c.sigil] ++ Gap.toNodes g₂ ++ [t.toNode] ++ Gap.toNodes g₃ ++ [e.sigil])

def FieldList.toNodes : FieldList → List Node
  | .nil => []
  | .cons f g r => f.toNode :: (Gap.toNodes g ++ r.toNodes)

end

def EnumItem.toNode (i : EnumItem) : Node :=
  .branch .enumItem i.span
    ([i.name.ident] ++ Gap.toNodes i.gap₁ ++ [i.equals.sigil] ++ Gap.toNodes i.gap₂ ++ [i.value.toNode] ++
      Gap.toNodes i.gap₃ ++ [i.semicolon.sigil])

def EnumDecl.toNode (d : EnumDecl) : Node :=
  .branch .enum d.span
    ([d.keyword.keyword] ++ Gap.toNodes d.gap₁ ++ [d.name.ident] ++ Gap.toNodes d.gap₂ ++ [d.opening.sigil] ++
      Gap.toNodes d.gap₃ ++ d.itemsWithGaps.flatMap (fun p => p.1.toNode :: Gap.toNodes p.2) ++ [d.closing.sigil])

def SequenceDecl.toNode (d : SequenceDecl) : Node :=
  .branch .sequence d.span
    ([d.keyword.keyword] ++ Gap.toNodes d.gap₁ ++ [d.name.ident] ++ Gap.toNodes d.gap₂ ++ [d.opening.sigil] ++
      Gap.toNodes d.gap₃ ++ d.fieldList.toNodes ++ [d.closing.sigil])

def Decl.toNode : Decl → Node
  | enum d => d.toNode
  | sequence d => d.toNode

def SchemaTree.toNode (t : SchemaTree) : Node :=
  .branch .schema t.span (Gap.toNodes t.gap ++ t.declsWithGaps.flatMap fun p => p.1.toNode :: Gap.toNodes p.2)

end Flatwire
