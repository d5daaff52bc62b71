import Flatwire.Schema
import Flatwire.Text.Quoted

/-! The layout of a schema as text: every declaration in source order and then every union, with widths, sizes,
offsets and tags. -/

namespace Flatwire

namespace LayoutText

structure Line where
  indent : Nat
  text : Bytes

def block (head : Bytes) (body : List Bytes) : List Line :=
  ⟨0, head ++ " \x7b"⟩ :: body.map (⟨1, ·⟩) ++ [⟨0, "\x7d"⟩]

def enumHead (e : EnumType) : Bytes := "enum " ++ e.name

def enumBody (e : EnumType) : List Bytes :=
  ("width = " ++ Bytes.decimal e.width.toNat) :: e.variants.map fun v => v.name ++ " = " ++ Bytes.decimal v.value.toNat

def enumLines (e : EnumType) : List Line := block (enumHead e) (enumBody e)

def sequenceHead (q : SequenceType) : Bytes := "sequence " ++ q.name

def sizeLine (q : SequenceType) : Bytes := "static_size = " ++ Bytes.decimal q.size.toNat

def fieldLine (f : Field) (type : Bytes) : Bytes := f.name ++ ": " ++ type ++ " @ " ++ Bytes.decimal f.offset.toNat

def sequenceBody (s : Schema) (q : SequenceType) : List Bytes :=
  sizeLine q :: q.fields.map fun f => fieldLine f (s.typeName f.type)

def sequenceLines (s : Schema) (q : SequenceType) : List Line := block (sequenceHead q) (sequenceBody s q)

def oneOfHead (o : OneOfType) : Bytes := "oneof " ++ pathName o.path

def variantLine (v : Variant) (type : Bytes) : Bytes := v.name ++ ": " ++ type ++ " = " ++ Bytes.decimal v.tag.toNat

def oneOfBody (s : Schema) (o : OneOfType) : List Bytes := o.variants.map fun v => variantLine v (s.typeName v.type)

def oneOfLines (s : Schema) (o : OneOfType) : List Line := block (oneOfHead o) (oneOfBody s o)

def declLines (s : Schema) : TypeDef → List Line
  | .enum e => enumLines e
  | .sequence q => sequenceLines s q
  | _ => []

def title (s : Schema) : Bytes := "schema " ++ Text.quote s.name

def lines (s : Schema) : List Line :=
  ⟨0, title s⟩ :: (s.declTypes.flatMap (declLines s) ++ s.unions.flatMap fun p => oneOfLines s p.2)

/-- The pieces in which a line is written: the indentation if there is any, the text, the line end. -/
def Line.pieces (l : Line) : List Bytes :=
  (if l.indent = 0 then [] else [List.replicate l.indent 0x09]) ++ [l.text, [0x0A]]

def pieces (s : Schema) : List Bytes := (lines s).flatMap Line.pieces

/-! The same lines for a schema where the name of a type may have no end. -/

def declLines? (s : Schema) : TypeDef → Option (List Line)
  | .enum e => some (enumLines e)
  | .sequence q => (q.fields.mapM fun f => (s.typeName? f.type).map (fieldLine f)).map fun fields =>
      block (sequenceHead q) (sizeLine q :: fields)
  | _ => some []

def oneOfLines? (s : Schema) (o : OneOfType) : Option (List Line) :=
  (o.variants.mapM fun v => (s.typeName? v.type).map (variantLine v)).map (block (oneOfHead o))

def lines? (s : Schema) : Option (List Line) := do
  let decls ← s.declTypes.mapM (declLines? s)
  let unions ← s.unions.mapM fun p => oneOfLines? s p.2
  return ⟨0, title s⟩ :: (decls.flatten ++ unions.flatten)

end LayoutText

def Schema.layoutText (s : Schema) : Bytes := (LayoutText.pieces s).flatten

def Schema.layoutText? (s : Schema) : Option Bytes :=
  (LayoutText.lines? s).map fun lines => (lines.flatMap LayoutText.Line.pieces).flatten

/-- A destination of output that takes a number of writes and refuses all others. -/
structure Sink where
  /-- How many more writes are taken; without a number all are. -/
  left : Option Nat
  written : Bytes
  refused : Nat

namespace Sink

/-- One write, and whether it was taken. -/
def write (k : Sink) (bs : Bytes) : Bool × Sink :=
  match k.left with
  | none => (true, { k with written := k.written ++ bs })
  | some 0 => (false, { k with refused := k.refused + 1 })
  | some (n + 1) => (true, { k with left := some n, written := k.written ++ bs })

def writeAll (k : Sink) : List Bytes → Bool × Sink
  | [] => (true, k)
  | p :: ps =>
    match k.write p with
    | (true, k) => k.writeAll ps
    | (false, k) => (false, k)

end Sink

/-! ### Listing to a destination -/

namespace LayoutText

/-- A listing under way: where it goes, how far its lines are indented, and the failure that has ended it. -/
structure Printer (σ ε : Type) where
  dest : σ
  indent : Nat
  failure : Option ε

namespace Printer

variable {σ ε : Type} (write : σ → Bytes → Option ε × σ)

/-- One write. None is tried any more once one has failed. -/
def piece (p : Printer σ ε) (bs : Bytes) : Printer σ ε :=
  match p.failure with
  | some _ => p
  | none =>
    let (failure, dest) := write p.dest bs
    { p with dest, failure }

def line (p : Printer σ ε) (text : Bytes) : Printer σ ε := (Line.pieces ⟨p.indent, text⟩).foldl (piece write) p

def indented (p : Printer σ ε) (indent : Nat) : Printer σ ε := { p with indent }

/-- A block is gone through to its end, whether or not its lines can still be written. -/
def block (p : Printer σ ε) (head : Bytes) (body : List Bytes) : Printer σ ε :=
  let p := p.line write (head ++ " \x7b")
  let p := body.foldl (line write) (p.indented (p.indent + 1))
  (p.indented (p.indent - 1)).line write "\x7d"

def declaration (s : Schema) (p : Printer σ ε) : TypeDef → Printer σ ε
  | .enum e => p.block write (enumHead e) (enumBody e)
  | .sequence q => p.block write (sequenceHead q) (sequenceBody s q)
  | _ => p

def union (s : Schema) (p : Printer σ ε) (o : OneOfType) : Printer σ ε := p.block write (oneOfHead o) (oneOfBody s o)

def schema (s : Schema) (p : Printer σ ε) : Printer σ ε :=
  let p := p.line write (title s)
  let p := s.declTypes.foldl (declaration write s) p
  (s.unions.map (·.2)).foldl (union write s) p

end Printer

end LayoutText

/-- Lists the schema to a destination, by the given way of writing to it, and gives the failure that this met with. -/
def Schema.layoutTo {σ ε : Type} (write : σ → Bytes → Option ε × σ) (s : Schema) (dest : σ) : Option ε × σ :=
  let p := LayoutText.Printer.schema write s ⟨dest, 0, none⟩
  (p.failure, p.dest)

/-- One write, which fails if it is not taken. -/
def Sink.offer (k : Sink) (bs : Bytes) : Option Unit × Sink :=
  let (taken, k) := k.write bs
  (if taken then none else some (), k)

def Schema.writeLayout (s : Schema) (k : Sink) : Bool × Sink :=
  let (failure, k) := s.layoutTo Sink.offer k
  (failure.isNone, k)

end Flatwire
