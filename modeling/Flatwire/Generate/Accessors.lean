import Flatwire.Generate.Conflict
import Flatwire.Text.Quoted
import Flatwire.Text.Space

/-! Go source with a writer and a reader for every sequence and union of a schema, and a type for every enum. The source
is laid out as the language's formatter would do it: columns are aligned, and short functions stand on one line. -/

namespace Flatwire.Generate

structure SourceOptions where
  package : Bytes
  runtime : Bytes
  /-- The schema file named in the header; the line is left out without one. -/
  source : Bytes
deriving DecidableEq, Repr

def block (parts : List (List Bytes)) : List Bytes := parts.flatten

def tabs (n : Nat) : Bytes := List.replicate n 0x09

/-- A function with a body of one statement, on one line if it is short enough. -/
def shortFunction (header statement : Bytes) : List Bytes :=
  if header.length + statement.length ≤ 99 then [header ++ " \x7b " ++ statement ++ " \x7d"]
  else [header ++ " \x7b", "\t" ++ statement, "\x7d"]

def columns (rows : List (Bytes × Bytes)) : List Bytes :=
  let width := rows.foldl (fun w r => max w r.1.length) 0
  rows.map fun (name, rest) => 0x09 :: name ++ List.replicate (width - name.length + 1) 0x20 ++ rest

def constBlock (rows : List (Bytes × Bytes)) : List Bytes :=
  if rows.isEmpty then ["const ()"] else block [["const ("], columns rows, [")"]]

def structType (name : Bytes) (rows : List (Bytes × Bytes)) : List Bytes :=
  block [["type " ++ name ++ " struct \x7b"], columns rows, ["\x7d"]]

def readerFields : List (Bytes × Bytes) := [("buf", "[]byte"), ("addr", "int")]

def primitiveType : PrimitiveKind → Bytes
  | .u8 => "uint8"
  | .u16 => "uint16"
  | .u32 => "uint32"
  | .u64 => "uint64"
  | .i8 => "int8"
  | .i16 => "int16"
  | .i32 => "int32"
  | .i64 => "int64"
  | .f32 => "float32"
  | .f64 => "float64"
  | .bool => "bool"

def primitiveSuffix (k : PrimitiveKind) : Bytes :=
  match Bytes.ofString k.name with
  | b :: bs => (b - 32) :: bs
  | [] => []

def widthBits (width : UInt8) : Bytes := Bytes.decimal (width.toNat * 8)

def widthType (width : UInt8) : Bytes := "uint" ++ widthBits width

def widthSuffix (width : UInt8) : Bytes := "U" ++ widthBits width

variable [Libraries]

/-- The type that writes a value. The fuel bounds the nesting of lists. -/
def writerType (s : Schema) : Nat → TypeId → Bytes
  | 0, _ => []
  | fuel + 1, id =>
    match s.type? id with
    | some (.primitive k) => "simplebuffers." ++ primitiveSuffix k
    | some .string => "simplebuffers.String"
    | some (.enum e) => exportedName e.name
    | some (.sequence q) => "*" ++ exportedName q.name ++ "Writer"
    | some (.oneOf o) => unionName o.path ++ "Writer"
    | some (.list elem) =>
      if s.type? elem = some (.primitive .u8) then "simplebuffers.Bytes"
      else if s.type? elem = some (.primitive .i8) then "simplebuffers.Int8s"
      else "simplebuffers.List[" ++ writerType s fuel elem ++ "]"
    | none => []

/-- The type of a value that was read. The fuel bounds the nesting of lists. -/
def readerType (s : Schema) : Nat → TypeId → Bytes
  | 0, _ => []
  | fuel + 1, id =>
    match s.type? id with
    | some (.primitive k) => primitiveType k
    | some .string => "string"
    | some (.enum e) => exportedName e.name
    | some (.sequence q) => exportedName q.name ++ "Reader"
    | some (.oneOf o) => unionName o.path ++ "Reader"
    | some (.list elem) => "simplebuffers.ListReader[" ++ readerType s fuel elem ++ "]"
    | none => []

/-- Nested lists are no deeper than the schema has types. -/
def listDepth (s : Schema) : Nat := s.types.size + 1

def fieldType (s : Schema) (id : TypeId) : Bytes :=
  match s.type? id with
  | some (.primitive k) => primitiveType k
  | some .string => "string"
  | some (.sequence q) => exportedName q.name ++ "Writer"
  | _ => writerType s (listDepth s) id

/-- An address in generated source: a base and a distance from it. -/
structure Address where
  base : Bytes
  offset : Nat

def Address.tight (a : Address) : Bytes := if a.offset = 0 then a.base else a.base ++ "+" ++ Bytes.decimal a.offset

def Address.spaced (a : Address) : Bytes := if a.offset = 0 then a.base else a.base ++ " + " ++ Bytes.decimal a.offset

/-- The expression that reads a value at an address, on a line that is indented by `depth` tabs. Elements of a list are
read by a function, whose body is indented further. -/
def readExpr (s : Schema) : Nat → TypeId → Bytes → Address → Nat → Bytes
  | 0, _, _, _, _ => []
  | fuel + 1, id, buf, addr, depth =>
    let view (name : Bytes) : Bytes := name ++ "\x7bbuf: " ++ buf ++ ", addr: " ++ addr.spaced ++ "\x7d"
    match s.type? id with
    | some (.primitive k) => "simplebuffers.Read" ++ primitiveSuffix k ++ "(" ++ buf ++ ", " ++ addr.tight ++ ")"
    | some .string => "simplebuffers.ReadString(" ++ buf ++ ", " ++ addr.tight ++ ")"
    | some (.enum e) => exportedName e.name ++ "(simplebuffers.Read" ++ widthSuffix e.width ++ "(" ++ buf ++ ", " ++
        addr.tight ++ "))"
    | some (.sequence q) => view (exportedName q.name ++ "Reader")
    | some (.oneOf o) => view (unionName o.path ++ "Reader")
    | some (.list elem) =>
      let read : Bytes := match s.type? elem with
        | some (.primitive k) => "simplebuffers.Read" ++ primitiveSuffix k
        | some .string => "simplebuffers.ReadString"
        | _ => "func(buf []byte, addr int) " ++ readerType s (listDepth s) elem ++ " \x7b\n" ++ tabs (depth + 1) ++ "return " ++
            readExpr s fuel elem "buf" ⟨"addr", 0⟩ (depth + 1) ++ "\n" ++ tabs depth ++ "\x7d"
      "simplebuffers.NewListReader(" ++ buf ++ ", " ++ addr.tight ++ ", " ++ Bytes.decimal (s.staticSize elem) ++ ", " ++
        read ++ ")"
    | none => []

def enumSource (e : EnumType) : List Bytes :=
  let name := exportedName e.name
  block
    [["", "type " ++ name ++ " " ++ widthType e.width, ""],
      constBlock (e.variants.map fun v =>
        (name ++ "_" ++ exportedName v.name, name ++ " = " ++ Bytes.decimal v.value.toNat)),
      [""],
      shortFunction ("func (" ++ name ++ ") StaticSize() uint16") ("return " ++ Bytes.decimal e.width.toNat),
      ["", "func (v " ++ name ++ ") WriteComponent(buf []byte, dest, dynCursor int) (int, error) \x7b",
        "\tsimplebuffers.Put" ++ widthSuffix e.width ++ "(buf, dest, " ++ widthType e.width ++ "(v))",
        "\treturn dynCursor, nil", "\x7d", "", "func (v " ++ name ++ ") String() string \x7b", "\tswitch v \x7b"],
      e.variants.flatMap fun v =>
        ["\tcase " ++ name ++ "_" ++ exportedName v.name ++ ":", "\t\treturn " ++ Text.quote v.name],
      ["\t\x7d", "\treturn " ++ Text.quote (name ++ "(") ++ " + strconv.FormatUint(uint64(v), 10) + \")\"", "\x7d"]]

def writeNested (value : Bytes) (dest : Address) : List Bytes :=
  ["\tdynCursor, err = " ++ value ++ ".WriteComponent(buf, " ++ dest.tight ++ ", dynCursor)", "\tif err != nil \x7b",
    "\t\treturn 0, err", "\t\x7d"]

/-- The statements that write the fields; the error variable is declared before its first use. -/
def writeStatements (s : Schema) : Bool → List Field → List Bytes
  | _, [] => []
  | declared, f :: fs =>
    let dest : Address := ⟨"dest", f.offset.toNat⟩
    let value := "w." ++ exportedName f.name
    let nested (value : Bytes) : List Bytes :=
      block [if declared then [] else ["\tvar err error"], writeNested value dest, writeStatements s true fs]
    match s.type? f.type with
    | some (.primitive k) =>
      ("\tsimplebuffers.Put" ++ primitiveSuffix k ++ "(buf, " ++ dest.tight ++ ", " ++ value ++ ")") ::
        writeStatements s declared fs
    | some (.enum e) =>
      ("\tsimplebuffers.Put" ++ widthSuffix e.width ++ "(buf, " ++ dest.tight ++ ", " ++ widthType e.width ++ "(" ++
        value ++ "))") :: writeStatements s declared fs
    | some .string => nested ("simplebuffers.String(" ++ value ++ ")")
    | _ => nested value

def sequenceSource (s : Schema) (q : SequenceType) : List Bytes :=
  let writer := exportedName q.name ++ "Writer"
  let reader := exportedName q.name ++ "Reader"
  let size := Bytes.decimal q.size.toNat
  block
    [[""],
      structType writer (q.fields.map fun f => (exportedName f.name, fieldType s f.type)),
      [""],
      shortFunction ("func (*" ++ writer ++ ") StaticSize() uint16") ("return " ++ size),
      ["", "func (w *" ++ writer ++ ") WriteComponent(buf []byte, dest, dynCursor int) (int, error) \x7b"],
      writeStatements s false q.fields,
      ["\treturn dynCursor, nil", "\x7d", "",
        "// Write encodes w at the start of buf and returns the number of bytes used.",
        "func (w *" ++ writer ++ ") Write(buf []byte) (int, error) \x7b", "\treturn simplebuffers.Write(w, buf)", "\x7d",
        ""],
      structType reader readerFields,
      ["", "// New" ++ reader ++ " returns a reader for the index'th " ++ q.name ++ " in buf.",
        "func New" ++ reader ++ "(buf []byte, index int) " ++ reader ++ " \x7b",
        "\treturn " ++ reader ++ "\x7bbuf: buf, addr: simplebuffers.Addr(0, index, " ++ size ++ ")\x7d", "\x7d", ""],
      shortFunction ("func (r " ++ reader ++ ") Addr() int") "return r.addr",
      q.fields.flatMap fun f =>
        ["", "func (r " ++ reader ++ ") " ++ exportedName f.name ++ "() " ++ readerType s (listDepth s) f.type ++ " \x7b",
          "\treturn " ++ readExpr s (listDepth s) f.type "r.buf" ⟨"r.addr", f.offset.toNat⟩ 1, "\x7d"]]

def variantParameter (s : Schema) (id : TypeId) : Bytes × Bytes :=
  match s.type? id with
  | some (.primitive k) => (primitiveType k, "simplebuffers." ++ primitiveSuffix k ++ "(v)")
  | some .string => ("string", "simplebuffers.String(v)")
  | _ => (writerType s (listDepth s) id, "v")

def unionSource (s : Schema) (o : OneOfType) : List Bytes :=
  let name := unionName o.path
  let writer := name ++ "Writer"
  let reader := name ++ "Reader"
  block
    [[""],
      constBlock (o.variants.map fun v =>
        (name ++ "_" ++ exportedName v.name, "uint8 = " ++ Bytes.decimal v.tag.toNat)),
      ["", "type " ++ writer ++ " struct \x7b", "\tsimplebuffers.OneOf", "\x7d"],
      o.variants.flatMap fun v =>
        let variant := exportedName v.name
        let (parameter, value) := variantParameter s v.type
        ["", "func New" ++ writer ++ variant ++ "(v " ++ parameter ++ ") " ++ writer ++ " \x7b",
          "\treturn " ++ writer ++ "\x7bsimplebuffers.OneOf\x7bTag: " ++ name ++ "_" ++ variant ++ ", Value: " ++ value ++
            "\x7d\x7d", "\x7d"],
      [""],
      structType reader readerFields,
      [""],
      shortFunction ("func (r " ++ reader ++ ") Addr() int") "return r.addr",
      ["", "func (r " ++ reader ++ ") Tag() uint8 \x7b", "\treturn simplebuffers.ReadU8(r.buf, r.addr)", "\x7d"],
      o.variants.flatMap fun v =>
        let variant := exportedName v.name
        ["", "// As" ++ variant ++ " returns the " ++ v.name ++ " variant, or false if another variant is selected.",
          "func (r " ++ reader ++ ") As" ++ variant ++ "() (v " ++ readerType s (listDepth s) v.type ++ ", ok bool) \x7b",
          "\ttag, addr := simplebuffers.OneOfHeader(r.buf, r.addr)", "\tif tag != " ++ name ++ "_" ++ variant ++ " \x7b",
          "\t\treturn v, false", "\t\x7d",
          "\treturn " ++ readExpr s (listDepth s) v.type "r.buf" ⟨"addr", 0⟩ 1 ++ ", true", "\x7d"]]

/-- A comment line, without carriage returns and white space at its end. -/
def commentLine (text : Bytes) : Bytes :=
  let units := (Utf8.units (text.filter (· != 0x0D))).reverse.dropWhile Text.isSpaceUnit
  units.reverse.flatMap fun
    | .char c => Bytes.ofString (String.singleton c)
    | .bad b => [b]

def headerSource (s : Schema) (o : SourceOptions) : List Bytes :=
  block
    [["// Code generated by sbc. DO NOT EDIT."],
      if o.source.isEmpty then [] else [commentLine ("// source: " ++ o.source)],
      ["", "package " ++ o.package],
      if s.decls.isEmpty then []
      else block
        [["", "import ("], if s.enums.isEmpty then [] else ["\t\"strconv\"", ""],
          ["\tsimplebuffers " ++ Text.quote o.runtime, ")"]]]

def leadingIdentifiers (s : Schema) : List Bytes :=
  (s.declTypes.flatMap fun
    | .enum e => [exportedName e.name]
    | .sequence q => exportedName q.name :: q.fields.map fun f => exportedName f.name
    | _ => []) ++
  s.unions.map fun (_, o) => unionName o.path

def startsWithDigit (bs : Bytes) : Bool := (bs.head?.map fun b => 48 ≤ b && b ≤ 57).getD false

inductive SourceError where
  | conflict (c : NameConflict)
  /-- An identifier that begins with a digit stands where the language allows none. -/
  | malformed
deriving DecidableEq, Repr

def SourceError.message : SourceError → Bytes
  | conflict c => c.message
  | malformed => "format generated code: identifier begins with a digit"

def accessors (s : Schema) (o : SourceOptions) : Except SourceError Bytes :=
  match conflict? s with
  | some c => .error (.conflict c)
  | none =>
    if (leadingIdentifiers s).any startsWithDigit then .error .malformed
    else
      let decls := s.declTypes.flatMap fun
        | .enum e => enumSource e
        | .sequence q => sequenceSource s q
        | _ => []
      let unions := s.unions.flatMap fun (_, u) => unionSource s u
      .ok (Bytes.unlines (headerSource s o ++ decls ++ unions))

end Flatwire.Generate
