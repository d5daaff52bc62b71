import Mathlib.Tactic.SplitIfs
import Flatwire.Tree.Node
import Flatwire.Tree.Parse

/-! Parsing without blanks, line ends and comments. Whether they are kept makes no difference to any step of the parser:
it takes the same tokens, fails in the same places, and puts the same words at the same places into the tree. So the
tree without them is the full tree with its gaps emptied. -/

namespace Flatwire

/-! ### Nodes without what stands between words -/

/-- Blanks, line ends and comments. -/
def LeafKind.isTrivia : LeafKind → Bool
  | space | newline | comment => true
  | _ => false

namespace Node

def isTrivia : Node → Bool
  | leaf k _ => k.isTrivia
  | branch .. => false

mutual

/-- The node without the blanks, line ends and comments at any depth below it. All else stays as it is. -/
def stripped : Node → Node
  | leaf k l => leaf k l
  | branch k s cs => branch k s (strippedAll cs)

def strippedAll : List Node → List Node
  | [] => []
  | n :: ns => if n.isTrivia then strippedAll ns else n.stripped :: strippedAll ns

end

theorem strippedAll_append (ns ms : List Node) : strippedAll (ns ++ ms) = strippedAll ns ++ strippedAll ms := by
  induction ns with
  | nil => rfl
  | cons n ns ih =>
    rw [List.cons_append, strippedAll, strippedAll, ih]
    split_ifs <;> rfl

end Node

/-! ### Trees with empty gaps -/

mutual

def TypeExpr.bare : TypeExpr → TypeExpr
  | .name i => .name i
  | .list s o _ e _ c => .list s o [] e.bare [] c
  | .oneOf s k _ o _ vs c => .oneOf s k [] o [] vs.bare c

def FieldExpr.bare : FieldExpr → FieldExpr
  | .mk s n _ c _ t _ e => .mk s n [] c [] t.bare [] e

def FieldList.bare : FieldList → FieldList
  | .nil => .nil
  | .cons f _ r => .cons f.bare [] r.bare

end

def EnumItem.bare (i : EnumItem) : EnumItem := { i with gap₁ := [], gap₂ := [], gap₃ := [] }

def EnumDecl.bare (d : EnumDecl) : EnumDecl :=
  { d with gap₁ := [], gap₂ := [], gap₃ := [], itemsWithGaps := d.itemsWithGaps.map fun p => (p.1.bare, []) }

def SequenceDecl.bare (d : SequenceDecl) : SequenceDecl :=
  { d with gap₁ := [], gap₂ := [], gap₃ := [], fieldList := d.fieldList.bare }

def Decl.bare : Decl → Decl
  | enum d => .enum d.bare
  | sequence d => .sequence d.bare

def SchemaTree.bare (t : SchemaTree) : SchemaTree :=
  { t with gap := [], declsWithGaps := t.declsWithGaps.map fun p => (p.1.bare, []) }

/-! ### Emptying the gaps strips the nodes -/

namespace Node

theorem strippedAll_gap (g : Gap) : strippedAll (Gap.toNodes g) = Gap.toNodes [] := by
  induction g with
  | nil => rfl
  | cons t g ih =>
    rw [Gap.toNodes, List.map_cons, strippedAll, ← Gap.toNodes, ih]
    cases t <;> rfl

theorem strippedAll_cons {n : Node} (h : n.isTrivia = false) (ns : List Node) :
    strippedAll (n :: ns) = [n.stripped] ++ strippedAll ns := by
  rw [strippedAll, h]
  rfl

theorem strippedAll_ident (l : Lexeme) : strippedAll [l.ident] = [l.ident] := rfl

theorem strippedAll_sigil (l : Lexeme) : strippedAll [l.sigil] = [l.sigil] := rfl

theorem strippedAll_keyword (l : Lexeme) : strippedAll [l.keyword] = [l.keyword] := rfl

theorem strippedAll_int (i : IntLit) : strippedAll [i.toNode] = [i.toNode] := rfl

end Node

open Node

theorem TypeExpr.isTrivia_toNode (e : TypeExpr) : e.toNode.isTrivia = false := by
  cases e <;> rfl

theorem FieldExpr.isTrivia_toNode (f : FieldExpr) : f.toNode.isTrivia = false := by
  cases f
  rfl

theorem Decl.isTrivia_toNode (d : Decl) : d.toNode.isTrivia = false := by
  cases d <;> rfl

theorem strippedAll_type (e : TypeExpr) : strippedAll [e.toNode] = [e.toNode.stripped] :=
  strippedAll_cons e.isTrivia_toNode []

mutual

theorem TypeExpr.toNode_bare (e : TypeExpr) : e.bare.toNode = e.toNode.stripped := by
  match e with
  | .name i => rfl
  | .list s o g₁ e g₂ c =>
    simp only [TypeExpr.bare, TypeExpr.toNode, stripped, strippedAll_append, strippedAll_gap, strippedAll_sigil,
      strippedAll_type, TypeExpr.toNode_bare e]
  | .oneOf s k g₁ o g₂ vs c =>
    simp only [TypeExpr.bare, TypeExpr.toNode, stripped, strippedAll_append, strippedAll_gap, strippedAll_sigil,
      strippedAll_keyword, FieldList.toNodes_bare vs]

theorem FieldExpr.toNode_bare (f : FieldExpr) : f.bare.toNode = f.toNode.stripped := by
  match f with
  | .mk s n g₁ c g₂ t g₃ e =>
    simp only [FieldExpr.bare, FieldExpr.toNode, stripped, strippedAll_append, strippedAll_gap, strippedAll_sigil,
      strippedAll_ident, strippedAll_type, TypeExpr.toNode_bare t]

theorem FieldList.toNodes_bare (fs : FieldList) : fs.bare.toNodes = strippedAll fs.toNodes := by
  match fs with
  | .nil => rfl
  | .cons f g r =>
    rw [FieldList.toNodes, strippedAll_cons f.isTrivia_toNode, strippedAll_append, strippedAll_gap,
      ← FieldExpr.toNode_bare f, ← FieldList.toNodes_bare r]
    rfl

end

theorem EnumItem.toNode_bare (i : EnumItem) : i.bare.toNode = i.toNode.stripped := by
  simp only [EnumItem.toNode, stripped, strippedAll_append, strippedAll_gap, strippedAll_sigil, strippedAll_ident,
    strippedAll_int]
  rfl

theorem strippedAll_flatMap {α : Type} {toNode : α → Node} {bare : α → α} (htrivia : ∀ a, (toNode a).isTrivia = false)
    (hbare : ∀ a, toNode (bare a) = (toNode a).stripped) (xs : List (α × Gap)) :
    strippedAll (xs.flatMap fun p => toNode p.1 :: Gap.toNodes p.2) =
      (xs.map fun p => (bare p.1, ([] : Gap))).flatMap fun p => toNode p.1 :: Gap.toNodes p.2 := by
  induction xs with
  | nil => rfl
  | cons x xs ih =>
    rw [List.flatMap_cons, strippedAll_append, strippedAll_cons (htrivia x.1), strippedAll_gap, ih, ← hbare]
    rfl

theorem EnumDecl.toNode_bare (d : EnumDecl) : d.bare.toNode = d.toNode.stripped := by
  simp only [EnumDecl.toNode, stripped, strippedAll_append, strippedAll_gap, strippedAll_sigil, strippedAll_ident,
    strippedAll_keyword, strippedAll_flatMap (fun i : EnumItem => rfl) EnumItem.toNode_bare]
  rfl

theorem SequenceDecl.toNode_bare (d : SequenceDecl) : d.bare.toNode = d.toNode.stripped := by
  simp only [SequenceDecl.toNode, stripped, strippedAll_append, strippedAll_gap, strippedAll_sigil, strippedAll_ident,
    strippedAll_keyword, ← FieldList.toNodes_bare]
  rfl

theorem Decl.toNode_bare (d : Decl) : d.bare.toNode = d.toNode.stripped := by
  cases d with
  | enum d => exact d.toNode_bare
  | sequence d => exact d.toNode_bare

theorem SchemaTree.toNode_bare (t : SchemaTree) : t.bare.toNode = t.toNode.stripped := by
  simp only [SchemaTree.toNode, stripped, strippedAll_append, strippedAll_gap,
    strippedAll_flatMap Decl.isTrivia_toNode Decl.toNode_bare]
  rfl

/-! ### Parsers that keep nothing -/

namespace Parser

theorem gap_false : gap false = (fun _ => []) <$> gap true := rfl

theorem map_refuse {α β : Type} (f : α → β) (t : Token) (cause : SyntaxError.Cause) :
    f <$> (refuse t cause : Parser α) = refuse t cause := rfl

theorem typeExpr_fields_false (fuel : Nat) :
    typeExpr false fuel = TypeExpr.bare <$> typeExpr true fuel ∧
      fields false fuel = Prod.map FieldList.bare id <$> fields true fuel := by
  induction fuel with
  | zero =>
    constructor
    · simp only [typeExpr, map_bind, map_refuse]
    · simp only [fields, map_bind, map_refuse]
  | succ fuel ih =>
    obtain ⟨ihType, ihFields⟩ := ih
    constructor
    · simp only [typeExpr, ihType, ihFields, gap_false, map_bind, bind_map_left,
        apply_ite (Functor.map TypeExpr.bare), map_pure, map_refuse]
      rfl
    · simp only [fields, ihType, ihFields, gap_false, map_bind, bind_map_left,
        apply_ite (Functor.map (Prod.map FieldList.bare id)), map_pure]
      rfl

theorem enumItem_false : enumItem false = EnumItem.bare <$> enumItem true := by
  simp only [enumItem, gap_false, map_bind, bind_map_left, map_pure]
  rfl

theorem enumItems_false (fuel : Nat) : enumItems false fuel =
    Prod.map (List.map fun p => (p.1.bare, [])) id <$> enumItems true fuel := by
  induction fuel with
  | zero => simp only [enumItems, map_bind, map_refuse]
  | succ fuel ih =>
    simp only [enumItems, ih, enumItem_false, gap_false, map_bind, bind_map_left, apply_ite (Functor.map _), map_pure]
    rfl

theorem enumDecl_false (fuel : Nat) (t : Token) : enumDecl false fuel t = EnumDecl.bare <$> enumDecl true fuel t := by
  simp only [enumDecl, enumItems_false, gap_false, map_bind, bind_map_left, map_pure]
  rfl

theorem sequenceDecl_false (fuel : Nat) (t : Token) :
    sequenceDecl false fuel t = SequenceDecl.bare <$> sequenceDecl true fuel t := by
  simp only [sequenceDecl, (typeExpr_fields_false fuel).2, gap_false, map_bind, bind_map_left, map_pure]
  rfl

theorem decls_false (fuel : Nat) : decls false fuel = List.map (fun p => (p.1.bare, [])) <$> decls true fuel := by
  induction fuel with
  | zero => simp only [decls, map_bind, map_refuse]
  | succ fuel ih =>
    simp only [decls, ih, enumDecl_false, sequenceDecl_false, gap_false, map_bind, bind_map_left,
      apply_ite (Functor.map _), map_pure, map_refuse]
    rfl

theorem schema_false (fuel : Nat) : schema false fuel = SchemaTree.bare <$> schema true fuel := by
  simp only [schema, decls_false, gap_false, map_bind, bind_map_left, map_pure]
  rfl

end Parser

/-! ### Whole sources -/

theorem Parser.map_run {α β : Type} (f : α → β) (p : Parser α) (ts : TokenStream) :
    (f <$> p) ts = (p ts).map (Prod.map f id) := by
  change (p ts >>= fun x => pure (f x.1, x.2)) = _
  cases p ts <;> rfl

theorem SchemaTree.parse_false (src : Bytes) : parse src false = (parse src).map SchemaTree.bare := by
  simp only [parse, Parser.schema_false, Parser.map_run, bind, Except.bind]
  cases TokenStream.ofSource src with
  | error e => rfl
  | ok ts =>
    dsimp only
    cases Parser.schema true ts.fuel ts <;> rfl

theorem TokenStream.keyword_map {α : Type} {p q : Nat → Token → Parser α} {f : α → α}
    (h : ∀ fuel t, q fuel t = f <$> p fuel t) (src : Bytes) (word : String) :
    (do
      let ts ← ofSource src
      match ts.keyword? word with
      | none => return none
      | some t =>
        let (d, _) ← q ts.fuel t ts
        return some d : Except SyntaxError (Option α)) =
    (do
      let ts ← ofSource src
      match ts.keyword? word with
      | none => return none
      | some t =>
        let (d, _) ← p ts.fuel t ts
        return some d : Except SyntaxError (Option α)).map (Option.map f) := by
  simp only [h, Parser.map_run, bind, Except.bind]
  cases ofSource src with
  | error e => rfl
  | ok ts =>
    dsimp only
    cases ts.keyword? word with
    | none => rfl
    | some t =>
      dsimp only
      cases p ts.fuel t ts <;> rfl

theorem EnumDecl.parse_false (src : Bytes) : parse src false = (parse src).map (Option.map EnumDecl.bare) :=
  TokenStream.keyword_map Parser.enumDecl_false src "enum"

theorem SequenceDecl.parse_false (src : Bytes) : parse src false = (parse src).map (Option.map SequenceDecl.bare) :=
  TokenStream.keyword_map Parser.sequenceDecl_false src "sequence"

/-- Parsing without blanks, line ends and comments is parsing and stripping. A schema, an enum or a sequence is refused
without them exactly if it is refused with them, with the same error; and where it is parsed, its nodes are the nodes of
the full tree without the leaves in between, each with its kind, text, value and span. -/
theorem parse_without_trivia (src : Bytes) :
    (SchemaTree.parse src false).map SchemaTree.toNode =
      (SchemaTree.parse src).map (fun tree => tree.toNode.stripped) ∧
    (EnumDecl.parse src false).map (Option.map EnumDecl.toNode) =
      (EnumDecl.parse src).map (Option.map fun d => d.toNode.stripped) ∧
    (SequenceDecl.parse src false).map (Option.map SequenceDecl.toNode) =
      (SequenceDecl.parse src).map (Option.map fun d => d.toNode.stripped) := by
  refine ⟨?_, ?_, ?_⟩
  · rw [SchemaTree.parse_false]
    cases SchemaTree.parse src with
    | error e => rfl
    | ok tree => exact congrArg Except.ok tree.toNode_bare
  · rw [EnumDecl.parse_false]
    cases EnumDecl.parse src with
    | error e => rfl
    | ok d => cases d with
      | none => rfl
      | some d => exact congrArg (Except.ok ∘ some) d.toNode_bare
  · rw [SequenceDecl.parse_false]
    cases SequenceDecl.parse src with
    | error e => rfl
    | ok d => cases d with
      | none => rfl
      | some d => exact congrArg (Except.ok ∘ some) d.toNode_bare

end Flatwire
