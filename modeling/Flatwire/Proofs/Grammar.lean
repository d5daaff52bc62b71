import Mathlib.Data.Nat.Digits.Defs
import Flatwire.Proofs.Tokens
import Flatwire.Tree.Parse

/-! The grammar of schemas, over tokens without the blanks, line ends and comments between them. What a sentence says is
its form: names, types and values in order. A syntax tree has a form too, which forgets where everything stands. -/

namespace Flatwire

mutual

inductive TypeForm where
  | name (text : Bytes)
  | list (elem : TypeForm)
  | oneOf (variants : FieldForms)
deriving DecidableEq

/-- Names with their types, in order: the fields of a sequence or the variants of a union. -/
inductive FieldForms where
  | nil
  | cons (name : Bytes) (type : TypeForm) (rest : FieldForms)
deriving DecidableEq

end

inductive DeclForm where
  | enum (name : Bytes) (items : List (Bytes × Nat))
  | sequence (name : Bytes) (fields : FieldForms)
deriving DecidableEq

/-! ### The forms of trees -/

mutual

def TypeExpr.form : TypeExpr → TypeForm
  | .name ident => .name ident.text
  | .list _ _ _ elem _ _ => .list elem.form
  | .oneOf _ _ _ _ _ variants _ => .oneOf variants.forms

def FieldList.forms : FieldList → FieldForms
  | .nil => .nil
  | .cons (.mk _ name _ _ _ type _ _) _ rest => .cons name.text type.form rest.forms

end

def EnumItem.form (i : EnumItem) : Bytes × Nat := (i.name.text, i.value.value.toNat)

def Decl.form : Decl → DeclForm
  | enum d => .enum d.name.text (d.items.map EnumItem.form)
  | sequence d => .sequence d.name.text d.fieldList.forms

def SchemaTree.forms (t : SchemaTree) : List DeclForm := t.decls.map Decl.form

theorem SchemaTree.exists_parse {src : Bytes} {keep : Bool} {P : SchemaTree → Prop} [DecidablePred P]
    (h : (parse src keep).toOption.any P = true) : ∃ tree, parse src keep = .ok tree ∧ P tree := by
  cases hparse : parse src keep with
  | error e =>
    rw [hparse] at h
    cases h
  | ok tree =>
    rw [hparse] at h
    exact ⟨tree, rfl, of_decide_eq_true h⟩

/-! ### Sentences -/

namespace Token

/-- The tokens that are not blanks, line ends or comments. -/
def significant (ts : List Token) : List Token := ts.filter fun t => !t.kind.isTrivia

/-- The token is the given word. Words that begin a construct are identifiers like any other. -/
def IsWord (t : Token) (word : String) : Prop := t.kind = .ident ∧ t.text = Bytes.ofString word

/-- The number that a literal's digits stand for in its base; underscores between them are no digits. -/
def number (form : IntForm) (text : Bytes) : Nat :=
  Nat.ofDigits form.base ((text.drop form.markLen).filterMap digitValue?).reverse

end Token

namespace Grammar

mutual

inductive IsType : List Token → TypeForm → Prop where
  | name {t : Token} : t.kind = .ident → ¬ t.IsWord "oneof" → IsType [t] (.name t.text)
  | list {o c : Token} {w : List Token} {e : TypeForm} : o.kind = .sigil .openSquare → IsType w e →
      c.kind = .sigil .closeSquare → IsType (o :: w ++ [c]) (.list e)
  | oneOf {k o c : Token} {w : List Token} {vs : FieldForms} : k.IsWord "oneof" → o.kind = .sigil .openCurl →
      AreFields w vs → c.kind = .sigil .closeCurl → IsType (k :: o :: w ++ [c]) (.oneOf vs)

inductive AreFields : List Token → FieldForms → Prop where
  | nil : AreFields [] .nil
  | cons {n c s : Token} {w v : List Token} {t : TypeForm} {fs : FieldForms} : n.kind = .ident →
      c.kind = .sigil .colon → IsType w t → s.kind = .sigil .semicolon → AreFields v fs →
      AreFields (n :: c :: w ++ s :: v) (.cons n.text t fs)

end

inductive AreItems : List Token → List (Bytes × Nat) → Prop where
  | nil : AreItems [] []
  | cons {n e i s : Token} {form : IntForm} {w : List Token} {items : List (Bytes × Nat)} : n.kind = .ident →
      e.kind = .sigil .equals → i.kind = .int form → s.kind = .sigil .semicolon → AreItems w items →
      AreItems (n :: e :: i :: s :: w) ((n.text, Token.number form i.text) :: items)

inductive IsDecl : List Token → DeclForm → Prop where
  | enum {k n o c : Token} {w : List Token} {items : List (Bytes × Nat)} : k.IsWord "enum" → n.kind = .ident →
      o.kind = .sigil .openCurl → AreItems w items → c.kind = .sigil .closeCurl →
      IsDecl (k :: n :: o :: w ++ [c]) (.enum n.text items)
  | sequence {k n o c : Token} {w : List Token} {fs : FieldForms} : k.IsWord "sequence" → n.kind = .ident →
      o.kind = .sigil .openCurl → AreFields w fs → c.kind = .sigil .closeCurl →
      IsDecl (k :: n :: o :: w ++ [c]) (.sequence n.text fs)

inductive IsSchema : List Token → List DeclForm → Prop where
  | nil : IsSchema [] []
  | cons {w v : List Token} {d : DeclForm} {ds : List DeclForm} : IsDecl w d → IsSchema v ds →
      IsSchema (w ++ v) (d :: ds)

end Grammar

end Flatwire
