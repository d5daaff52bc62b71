import Flatwire.Dynamic.Encode

/-! Readers: views of encoded values. A checked reader tests every address before it is used, and refuses lists and
unions whose payload does not lie after their slot. -/

namespace Flatwire

inductive ReadError where
  | tooShort (length : Nat) (typeName : Bytes) (size : Nat)
  | outOfBounds (count addr length : Nat)
  | listBeforeSlot (addr payload : Nat)
  | oneOfBeforeSlot (addr payload : Nat)
  | unterminated (addr : Nat)
  | mismatch (typeName : Bytes) (wanted : String)
  | unknownField (sequence field : Bytes)
  | noElement (i : Int) (length : Nat)
  | unknownTag (tag : Nat) (typeName : Bytes)
  | overlap (size addr length : Nat)
  /-- An address that was not checked lies outside the buffer. -/
  | outsideBuffer
  /-- The schema has no type of the given number. -/
  | noType (id : TypeId)
  /-- The types embed each other without end. -/
  | endless
deriving DecidableEq, Repr

namespace ReadError

def kind? : ReadError → Option FailureKind
  | mismatch .. => some .typeMismatch
  | tooShort .. | outOfBounds .. | listBeforeSlot .. | oneOfBeforeSlot .. | unterminated .. => some .outOfBounds
  | overlap .. => some .overlap
  | unknownTag .. => some .unknownTag
  | _ => none

def detail : ReadError → Bytes
  | tooShort length typeName size => "buffer of " ++ Bytes.decimal length ++ " bytes is too short for " ++ typeName ++
      " (" ++ Bytes.decimal size ++ " bytes)"
  | outOfBounds count addr length => Bytes.decimal count ++ " bytes at address " ++ Bytes.decimal addr ++
      " (buffer is " ++ Bytes.decimal length ++ " bytes)"
  | listBeforeSlot addr payload => "list at " ++ Bytes.decimal addr ++ " has payload at " ++ Bytes.decimal payload ++
      ", before the end of its slot"
  | oneOfBeforeSlot addr payload => "oneof at " ++ Bytes.decimal addr ++ " has payload at " ++ Bytes.decimal payload ++
      ", before the end of its slot"
  | unterminated addr => "string at " ++ Bytes.decimal addr ++ " is not terminated"
  | mismatch typeName wanted => typeName ++ " is not " ++ wanted
  | unknownField sequence field => "sbbin: sequence " ++ sequence ++ " has no field " ++ Text.quote field
  | noElement i length => "sbbin: index " ++ Bytes.decimalInt i ++ " out of range for list of length " ++
      Bytes.decimal length
  | unknownTag tag typeName => Bytes.decimal tag ++ " in " ++ typeName
  | overlap size addr length => "payload of " ++ Bytes.decimal size ++ " bytes at " ++ Bytes.decimal addr ++
      " exceeds the " ++ Bytes.decimal length ++ "-byte buffer"
  | outsideBuffer => "sbbin: access outside the buffer"
  | noType id => "sbbin: no type " ++ Bytes.decimal id
  | endless => "sbbin: endless embedding"

def message (e : ReadError) : Bytes :=
  match e.kind? with
  | some k => k.text ++ ": " ++ e.detail
  | none => e.detail

end ReadError

structure Reader where
  schema : Schema
  buf : Buffer
  /-- What follows the buffer in memory. Nothing but a slice of bytes reaches it. -/
  spare : Buffer
  checked : Bool
  id : TypeId
  addr : Nat

namespace Reader

def ofBuffer (s : Schema) (id : TypeId) (buf : Buffer) (checked : Bool) (spare : Buffer := #[]) :
    Except ReadError Reader :=
  match s.type? id with
  | none => .error (.noType id)
  | some t =>
    if buf.size < t.staticSize then .error (.tooShort buf.size (s.typeName id) t.staticSize)
    else .ok ⟨s, buf, spare, checked, id, 0⟩

def type? (r : Reader) : Option TypeDef := r.schema.type? r.id

def typeName (r : Reader) : Bytes := r.schema.typeName r.id

/-- The same buffer, read as another type at another address. -/
def moved (r : Reader) (id : TypeId) (addr : Nat) : Reader := { r with id, addr }

def check (r : Reader) (addr n : Nat) : Except ReadError Unit :=
  if r.checked && (addr > r.buf.size || r.buf.size - addr < n) then .error (.outOfBounds n addr r.buf.size) else .ok ()

def mismatch {α : Type} (r : Reader) (wanted : String) : Except ReadError α := .error (.mismatch r.typeName wanted)

def fetch {α : Type} : Option α → Except ReadError α
  | some a => .ok a
  | none => .error .outsideBuffer

def field (r : Reader) (name : Bytes) : Except ReadError Reader :=
  match r.type? with
  | some (.sequence q) =>
    match q.find? name with
    | some f => .ok (r.moved f.type (r.addr + f.offset.toNat))
    | none => .error (.unknownField q.name name)
  | _ => r.mismatch "a sequence"

structure ListHeader where
  elem : TypeId
  length : Nat
  payload : Nat
deriving DecidableEq, Repr

def listHeader (r : Reader) : Except ReadError ListHeader :=
  match r.type? with
  | some (.list elem) => do
    r.check r.addr 4
    let (length, payload) ← fetch (r.buf.listHeader? r.addr)
    let payload := payload.toNat
    if r.checked && 0 < length then
      r.check payload (length * r.schema.staticSize elem)
      if payload < r.addr + 4 then throw (.listBeforeSlot r.addr payload)
    return ⟨elem, length, payload⟩
  | _ => r.mismatch "a list"

/-- The count of elements of a list. -/
def length (r : Reader) : Except ReadError Nat := do return (← r.listHeader).length

/-- The reader of element number `i` behind a header. -/
def element (r : Reader) (h : ListHeader) (i : Nat) : Reader := r.moved h.elem (h.payload + i * r.schema.staticSize h.elem)

/-- Element number `i` of a list. -/
def index (r : Reader) (i : Int) : Except ReadError Reader := do
  let h ← r.listHeader
  if i < 0 ∨ i ≥ h.length then throw (.noElement i h.length)
  return r.element h i.toNat

def bytes (r : Reader) : Except ReadError Bytes := do
  let h ← r.listHeader
  if r.schema.type? h.elem = some (.primitive .u8) then fetch (r.buf.sliceWith? r.spare h.payload (h.payload + h.length))
  else r.mismatch "a list of u8"

def oneOfHeader (r : Reader) : Except ReadError (OneOfType × Nat × Nat) :=
  match r.type? with
  | some (.oneOf o) => do
    r.check r.addr 3
    let (tag, payload) ← fetch (r.buf.oneOfHeader? r.addr)
    return (o, tag, payload.toNat)
  | _ => r.mismatch "a oneof"

def tag (r : Reader) : Except ReadError Nat := do return (← r.oneOfHeader).2.1

def variant (r : Reader) : Except ReadError (Variant × Reader) := do
  let (o, tag, payload) ← r.oneOfHeader
  match o.variants[tag]? with
  | none => throw (.unknownTag tag r.typeName)
  | some v =>
    if r.checked then
      r.check payload (r.schema.staticSize v.type)
      if payload < r.addr + 3 then throw (.oneOfBeforeSlot r.addr payload)
    return (v, r.moved v.type payload)

def uint (r : Reader) : Except ReadError Nat :=
  match r.type? with
  | some (.enum e) => do
    r.check r.addr e.width.toNat
    fetch (r.buf.readNat? r.addr e.width.toNat)
  | some (.primitive k) =>
    if k.isSigned || k.isFloat || k = .bool then r.mismatch "an unsigned integer"
    else do
      r.check r.addr k.size
      fetch (r.buf.readNat? r.addr k.size)
  | _ => r.mismatch "an unsigned integer"

/-- The number of a signed primitive. -/
def int (r : Reader) : Except ReadError Int :=
  match r.type? with
  | some (.primitive k) =>
    if k.isSigned then do
      r.check r.addr k.size
      fetch (r.buf.readInt? r.addr k.size)
    else r.mismatch "a signed integer"
  | _ => r.mismatch "a signed integer"

/-- The bits of a float in double precision. -/
def float (r : Reader) : Except ReadError Nat :=
  match r.type? with
  | some (.primitive .f32) => do
    r.check r.addr 4
    return FloatFormat.convert .single .double (← fetch (r.buf.readNat? r.addr 4))
  | some (.primitive .f64) => do
    r.check r.addr 8
    fetch (r.buf.readNat? r.addr 8)
  | _ => r.mismatch "a float"

def bool (r : Reader) : Except ReadError Bool :=
  match r.type? with
  | some (.primitive .bool) => do
    r.check r.addr 1
    fetch (r.buf.readBool? r.addr)
  | _ => r.mismatch "a bool"

/-- The bytes of a string. Only a checked reader insists on the zero byte after them. -/
def text (r : Reader) : Except ReadError Bytes :=
  match r.type? with
  | some .string =>
    if r.checked then do
      r.check r.addr 2
      let payload := (← fetch (r.buf.deref? r.addr)).toNat
      r.check payload 0
      match r.buf.zeroFrom? payload with
      | none => throw (.unterminated payload)
      | some stop => fetch (r.buf.slice? payload stop)
    else fetch (r.buf.readText? r.addr)
  | _ => r.mismatch "a string"

end Reader

end Flatwire
