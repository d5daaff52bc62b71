import Flatwire.Tree.Node
import Flatwire.Tree.Parse

/-! Parsing with a context for each node. A context has its own place in the source, counts the bytes that its node
takes, and collects the node's children. Contexts share the tokens, and hand over a token that was looked at but not
taken. -/

namespace Flatwire

structure Context where
  src : Bytes
  stream : TokenStream
  pending : Option Token := none
  consumed : Nat := 0
  offset : Nat := 0
  children : List Node := []

namespace Context

abbrev Parsing := StateT Context (Except SyntaxError)

/-- The token in front, with the text that stands there; it is pending from then on. -/
def look : Parsing Token := fun c => do
  let (t, c) ← match c.pending with
    | some t => .ok (t, c)
    | none => c.stream.peek.map fun t => (t, { c with pending := some t, stream := c.stream.advance })
  return ({ t with text := c.src.take t.text.length }, c)

def consume (t : Token) (kind : Option LeafKind) : Parsing Unit := fun c => .ok ((),
  { c with
    src := c.src.drop t.text.length
    pending := none
    consumed := c.consumed + t.text.length
    offset := c.offset + t.text.length
    children := c.children ++ (kind.map fun k => Node.leaf k ⟨c.offset, t.text⟩).toList })

def refuse (t : Token) (cause : SyntaxError.Cause) : Parsing Unit :=
  fun c => .error ⟨cause, ⟨c.offset, t.text.length⟩⟩

/-- Takes a token of the right kind. -/
def accept (kind : Token → Except SyntaxError.Cause LeafKind) : Parsing Unit := do
  let t ← look
  match kind t with
  | .error cause => refuse t cause
  | .ok k => consume t (some k)

def sigil (s : Sigil) : Parsing Unit :=
  accept fun t => if t.kind = .sigil s then .ok .sigil else .error (.expectedSigil s t)

def ident : Parsing Unit := accept fun t => if t.kind = .ident then .ok .ident else .error (.expectedIdent t)

def int : Parsing Unit := accept fun t =>
  match t.kind with
  | .int form =>
    let v := Parser.intValue form t.text
    if v < 0x10000000000000000 then .ok (.int (UInt64.ofNat v)) else .error .intTooLarge
  | _ => .error (.expectedInt t)

/-- Repeats something while it takes bytes. -/
def andOn (first rest : Parsing Unit) : Parsing Unit := fun c => do
  let ((), d) ← first c
  if d.consumed = c.consumed then return ((), d) else rest d

def triviaKind? : Token.Kind → Option LeafKind
  | .space => some .space
  | .newline => some .newline
  | .comment => some .comment
  | _ => none

/-- Takes what stands between tokens. Where no token can be had it ends, and the next look tells why. -/
def skip (keep : Bool) : Nat → Parsing Unit
  | 0, c => .ok ((), c)
  | rounds + 1, c =>
    match look c with
    | .error _ => .ok ((), c)
    | .ok (t, d) =>
      match triviaKind? t.kind with
      | none => .ok ((), d)
      | some k => andOn (consume t (if keep then some k else none)) (skip keep rounds) d

def gap (keep : Bool) : Parsing Unit := fun c => skip keep (c.src.length + 1) c

/-- Parses a child in a context of its own. The pending token is handed to it and back. -/
def child (kind : Branch) (body : Parsing Unit) : Parsing Unit := fun c => do
  let ((), d) ← body { c with consumed := 0, children := [] }
  let c := { c with stream := d.stream, pending := d.pending }
  if d.consumed = 0 then return ((), c)
  return ((), { c with
    src := c.src.drop d.consumed
    consumed := c.consumed + d.consumed
    offset := d.offset
    children := c.children ++ [.branch kind ⟨d.offset - d.consumed, d.consumed⟩ d.children] })

/-! ### Constructs -/

def field (keep : Bool) (type : Parsing Unit) : Parsing Unit := child .field do
  ident
  gap keep
  sigil .colon
  gap keep
  type
  gap keep
  sigil .semicolon

mutual

def typeExpr (keep : Bool) : Nat → Parsing Unit
  | 0 => accept fun t => .error (.expectedType t)
  | fuel + 1 => do
    let t ← look
    if t.kind = .sigil .openSquare then
      child .listType do
        consume t (some .sigil)
        gap keep
        typeExpr keep fuel
        gap keep
        sigil .closeSquare
    else if Parser.isWord t "oneof" then
      child .oneOf do
        consume t (some .keyword)
        gap keep
        sigil .openCurl
        gap keep
        fields keep fuel
    else if t.kind = .ident then child .typeName (consume t (some .ident))
    else refuse t (.expectedType t)

/-- The fields up to the closing bracket, which is taken too. -/
def fields (keep : Bool) : Nat → Parsing Unit
  | 0 => accept fun t => .error (.expectedIdent t)
  | fuel + 1 => do
    let t ← look
    if t.kind = .sigil .closeCurl then consume t (some .sigil)
    else andOn (do field keep (typeExpr keep fuel); gap keep) (fields keep fuel)

end

def enumItem (keep : Bool) : Parsing Unit := child .enumItem do
  ident
  gap keep
  sigil .equals
  gap keep
  int
  gap keep
  sigil .semicolon

def enumItems (keep : Bool) : Nat → Parsing Unit
  | 0 => accept fun t => .error (.expectedIdent t)
  | fuel + 1 => do
    let t ← look
    if t.kind = .sigil .closeCurl then consume t (some .sigil)
    else andOn (do enumItem keep; gap keep) (enumItems keep fuel)

/-- A declaration whose word is in front. -/
def decl (keep : Bool) (t : Token) (body : Parsing Unit) : Parsing Unit := do
  consume t (some .keyword)
  gap keep
  ident
  gap keep
  sigil .openCurl
  gap keep
  body

def decls (keep : Bool) : Nat → Parsing Unit
  | 0 => accept fun t => .error (.expectedDecl t)
  | fuel + 1 => do
    let t ← look
    if t.kind = .eof then return ()
    else if Parser.isWord t "enum" then
      andOn (do child .enum (decl keep t (enumItems keep fuel)); gap keep) (decls keep fuel)
    else if Parser.isWord t "sequence" then
      andOn (do child .sequence (decl keep t (fields keep fuel)); gap keep) (decls keep fuel)
    else if t.kind = .ident then refuse t (.unknownDecl t.text)
    else refuse t (.expectedDecl t)

/-- The node of a whole source. -/
def parse (src : Bytes) (keep : Bool) : Except SyntaxError Node := do
  let stream ← TokenStream.ofSource src
  let ((), c) ← (do gap keep; decls keep stream.fuel : Parsing Unit) { src, stream }
  return .branch .schema ⟨c.offset - c.consumed, c.consumed⟩ c.children

end Context

end Flatwire
