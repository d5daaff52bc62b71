import Flatwire.Token.Scan
import Flatwire.Tree

/-! Parsing tokens into a syntax tree by recursive descent. The first token that no sentence of the grammar allows is
the error. With `keep` false the gaps are left empty; spans stay as they are in the source. -/

namespace Flatwire

abbrev Parser := StateT TokenStream (Except SyntaxError)

namespace Parser

def peek : Parser Token := fun ts => ts.peek.map (·, ts)

def offset : Parser Nat := fun ts => .ok (ts.offset, ts)

def take (t : Token) : Parser Lexeme := fun ts => .ok (⟨ts.offset, t.text⟩, ts.advance)

def refuse {α : Type} (t : Token) (cause : SyntaxError.Cause) : Parser α :=
  fun ts => .error ⟨cause, ⟨ts.offset, t.text.length⟩⟩

def splitGap : Nat → List Token → Gap × Nat × List Token
  | offset, [] => ([], offset, [])
  | offset, t :: ts =>
    let l : Lexeme := ⟨offset, t.text⟩
    let go (trivium : Trivium) : Gap × Nat × List Token :=
      let (g, rest) := splitGap (offset + t.text.length) ts
      (trivium :: g, rest)
    match t.kind with
    | .space => go (.space l)
    | .newline => go (.newline l)
    | .comment => go (.comment l)
    | _ => ([], offset, t :: ts)

def gap (keep : Bool) : Parser Gap := fun ts =>
  let (g, offset, rest) := splitGap ts.offset ts.tokens
  .ok (if keep then g else [], { ts with tokens := rest, offset := offset })

def sigil (s : Sigil) : Parser Lexeme := do
  let t ← peek
  if t.kind = .sigil s then take t else refuse t (.expectedSigil s t)

def ident : Parser Lexeme := do
  let t ← peek
  if t.kind = .ident then take t else refuse t (.expectedIdent t)

/-- The value of a digit string in a base; underscores count for nothing. -/
def digitsValue (base : Nat) (ds : Bytes) : Nat :=
  ds.foldl (fun v b => match Token.digitValue? b with | some d => v * base + d | none => v) 0

def intValue (form : IntForm) (text : Bytes) : Nat := digitsValue form.base (text.drop form.markLen)

def int : Parser IntLit := do
  let t ← peek
  match t.kind with
  | .int form =>
    let v := intValue form t.text
    if v < 0x10000000000000000 then return ⟨← take t, UInt64.ofNat v⟩ else refuse t .intTooLarge
  | _ => refuse t (.expectedInt t)

def spanFrom (start : Nat) : Parser Span := do return ⟨start, (← offset) - start⟩

def isWord (t : Token) (word : String) : Bool := t.kind = .ident && t.text = Bytes.ofString word

mutual

/-- A type expression. Every step takes a token, so fuel above the number of tokens is never used up. -/
def typeExpr (keep : Bool) : Nat → Parser TypeExpr
  | 0 => do
    let t ← peek
    refuse t (.expectedType t)
  | fuel + 1 => do
    let start ← offset
    let t ← peek
    if t.kind = .sigil .openSquare then
      let opening ← take t
      let gap₁ ← gap keep
      let elem ← typeExpr keep fuel
      let gap₂ ← gap keep
      let closing ← sigil .closeSquare
      return .list (← spanFrom start) opening gap₁ elem gap₂ closing
    else if isWord t "oneof" then
      let keyword ← take t
      let gap₁ ← gap keep
      let opening ← sigil .openCurl
      let gap₂ ← gap keep
      let (variants, closing) ← fields keep fuel
      return .oneOf (← spanFrom start) keyword gap₁ opening gap₂ variants closing
    else if t.kind = .ident then
      return .name (← take t)
    else refuse t (.expectedType t)

def fields (keep : Bool) : Nat → Parser (FieldList × Lexeme)
  | 0 => do
    let t ← peek
    refuse t (.expectedIdent t)
  | fuel + 1 => do
    let t ← peek
    if t.kind = .sigil .closeCurl then
      return (.nil, ← take t)
    else
      let start ← offset
      let name ← ident
      let gap₁ ← gap keep
      let colon ← sigil .colon
      let gap₂ ← gap keep
      let type ← typeExpr keep fuel
      let gap₃ ← gap keep
      let semicolon ← sigil .semicolon
      let span ← spanFrom start
      let after ← gap keep
      let (rest, closing) ← fields keep fuel
      return (.cons (.mk span name gap₁ colon gap₂ type gap₃ semicolon) after rest, closing)

end

def enumItem (keep : Bool) : Parser EnumItem := do
  let start ← offset
  let name ← ident
  let gap₁ ← gap keep
  let equals ← sigil .equals
  let gap₂ ← gap keep
  let value ← int
  let gap₃ ← gap keep
  let semicolon ← sigil .semicolon
  return { span := ← spanFrom start, name, gap₁, equals, gap₂, value, gap₃, semicolon }

def enumItems (keep : Bool) : Nat → Parser (List (EnumItem × Gap) × Lexeme)
  | 0 => do
    let t ← peek
    refuse t (.expectedIdent t)
  | fuel + 1 => do
    let t ← peek
    if t.kind = .sigil .closeCurl then
      return ([], ← take t)
    else
      let item ← enumItem keep
      let after ← gap keep
      let (rest, closing) ← enumItems keep fuel
      return ((item, after) :: rest, closing)

def enumDecl (keep : Bool) (fuel : Nat) (t : Token) : Parser EnumDecl := do
  let start ← offset
  let keyword ← take t
  let gap₁ ← gap keep
  let name ← ident
  let gap₂ ← gap keep
  let opening ← sigil .openCurl
  let gap₃ ← gap keep
  let (itemsWithGaps, closing) ← enumItems keep fuel
  return { span := ← spanFrom start, keyword, gap₁, name, gap₂, opening, gap₃, itemsWithGaps, closing }

def sequenceDecl (keep : Bool) (fuel : Nat) (t : Token) : Parser SequenceDecl := do
  let start ← offset
  let keyword ← take t
  let gap₁ ← gap keep
  let name ← ident
  let gap₂ ← gap keep
  let opening ← sigil .openCurl
  let gap₃ ← gap keep
  let (fieldList, closing) ← fields keep fuel
  return { span := ← spanFrom start, keyword, gap₁, name, gap₂, opening, gap₃, fieldList, closing }

def decls (keep : Bool) : Nat → Parser (List (Decl × Gap))
  | 0 => do
    let t ← peek
    refuse t (.expectedDecl t)
  | fuel + 1 => do
    let t ← peek
    if t.kind = .eof then
      return []
    else if isWord t "enum" then
      let d ← enumDecl keep fuel t
      let after ← gap keep
      return (.enum d, after) :: (← decls keep fuel)
    else if isWord t "sequence" then
      let d ← sequenceDecl keep fuel t
      let after ← gap keep
      return (.sequence d, after) :: (← decls keep fuel)
    else if t.kind = .ident then
      refuse t (.unknownDecl t.text)
    else refuse t (.expectedDecl t)

def schema (keep : Bool) (fuel : Nat) : Parser SchemaTree := do
  let g ← gap keep
  let ds ← decls keep fuel
  return { span := ← spanFrom 0, gap := g, declsWithGaps := ds }

end Parser

/-- Fuel for a stream: one more than it has tokens. -/
def TokenStream.fuel (ts : TokenStream) : Nat := ts.tokens.length + 1

def SchemaTree.parse (src : Bytes) (keep : Bool := true) : Except SyntaxError SchemaTree := do
  let ts ← TokenStream.ofSource src
  let (tree, _) ← Parser.schema keep ts.fuel ts
  return tree

def TokenStream.keyword? (ts : TokenStream) (word : String) : Option Token :=
  ts.tokens.head?.filter (Parser.isWord · word)

/-- Parses an enum at the start of a source and ignores what follows; nothing if no enum starts there. -/
def EnumDecl.parse (src : Bytes) (keep : Bool := true) : Except SyntaxError (Option EnumDecl) := do
  let ts ← TokenStream.ofSource src
  match ts.keyword? "enum" with
  | none => return none
  | some t =>
    let (d, _) ← Parser.enumDecl keep ts.fuel t ts
    return some d

/-- Parses a sequence at the start of a source and ignores what follows; nothing if no sequence starts there. -/
def SequenceDecl.parse (src : Bytes) (keep : Bool := true) : Except SyntaxError (Option SequenceDecl) := do
  let ts ← TokenStream.ofSource src
  match ts.keyword? "sequence" with
  | none => return none
  | some t =>
    let (d, _) ← Parser.sequenceDecl keep ts.fuel t ts
    return some d

end Flatwire
