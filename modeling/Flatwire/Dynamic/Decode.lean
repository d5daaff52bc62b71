import Flatwire.Dynamic.Reader

/-! Decoding of a whole value. The walk of a checked reader also pays for every payload that it follows, out of a budget
of as many bytes as the buffer has: offsets that share a payload run out of it. -/

namespace Flatwire

/-- Pays for a payload of `n` bytes. A negative budget has no limit. -/
def charge (r : Reader) (n : Nat) (budget : Int) : Except (Located ReadError) Int :=
  if budget < 0 then .ok budget
  else if (n : Int) > budget then .error (.here (.overlap n r.addr r.buf.size))
  else .ok (budget - n)

abbrev Decoded := Except (Located ReadError) (Value × Int)

/-- A value that takes no payload. -/
def plain {α : Type} (budget : Int) (value : α → Value) : Except ReadError α → Decoded
  | .ok a => .ok (value a, budget)
  | .error e => .error (.here e)

/-- The fields with one of them set, in the place where it stood or at the end. -/
def setField (fields : List (Bytes × Value)) (name : Bytes) (v : Value) : List (Bytes × Value) :=
  fields.filter (fun f => f.1 ≠ name) ++ [(name, v)]

def decodeFields (decode : Reader → Int → Decoded) (r : Reader) (q : SequenceType) :
    List Field → Int → List (Bytes × Value) → Decoded
  | [], budget, done => .ok (.record done, budget)
  | f :: fs, budget, done =>
    match within (.field q.name f.name) (decode (r.moved f.type (r.addr + f.offset.toNat)) budget) with
    | .error e => .error e
    | .ok (v, budget) => decodeFields decode r q fs budget (setField done f.name v)

/-- Decodes `n` elements from number `i` on. -/
def decodeItems (decode : Reader → Int → Decoded) (r : Reader) (h : Reader.ListHeader) (i : Nat) :
    Nat → Int → List Value → Decoded
  | 0, budget, done => .ok (.list done.reverse, budget)
  | n + 1, budget, done =>
    match within (.item i) (decode (r.element h i) budget) with
    | .error e => .error e
    | .ok (v, budget) => decodeItems decode r h (i + 1) n budget (v :: done)

def decodeList (decode : Reader → Int → Decoded) (r : Reader) (elem : TypeId) (budget : Int) : Decoded :=
  if r.schema.type? elem = some (.primitive .u8) then
    match r.bytes with
    | .error e => .error (.here e)
    | .ok items => do return (.bytes items, ← charge r items.length budget)
  else
    match r.listHeader with
    | .error e => .error (.here e)
    | .ok h => do decodeItems decode r h 0 h.length (← charge r (h.length * r.schema.staticSize elem) budget) []

def decodeVariant (decode : Reader → Int → Decoded) (r : Reader) (budget : Int) : Decoded :=
  match r.variant with
  | .error e => .error (.here e)
  | .ok (member, inner) => do
    let budget ← charge inner (r.schema.staticSize member.type) budget
    let (v, budget) ← within (.variant member.name) (decode inner budget)
    return (.variant member.name v, budget)

def decodePrimitive (r : Reader) (k : PrimitiveKind) (budget : Int) : Decoded :=
  if k = .bool then plain budget .bool r.bool
  else if k.isFloat then plain budget .f64 r.float
  else if k.isSigned then plain budget .i64 r.int
  else plain budget .u64 r.uint

/-- The walk, at most `fuel` steps deep. -/
def decodeAux : Nat → Reader → Int → Decoded
  | 0, _, _ => .error (.here .endless)
  | fuel + 1, r, budget =>
    match r.type? with
    | none => .error (.here (.noType r.id))
    | some (.primitive k) => decodePrimitive r k budget
    | some (.enum _) => plain budget .u64 r.uint
    | some .string =>
      match r.text with
      | .error e => .error (.here e)
      | .ok t => do return (.text t, ← charge r (t.length + 1) budget)
    | some (.list elem) => decodeList (decodeAux fuel) r elem budget
    | some (.sequence q) => decodeFields (decodeAux fuel) r q q.fields budget []
    | some (.oneOf _) => decodeVariant (decodeAux fuel) r budget

/-- Payloads lie behind their slots, and between two slots at one address there is a chain of embedded sequences: no
walk goes deeper. -/
def Reader.depth (r : Reader) : Nat := (r.schema.types.size + 2) * (r.buf.size + 2)

def Reader.decode (r : Reader) : Except (Located ReadError) Value := do
  let (v, _) ← decodeAux r.depth r (if r.checked then r.buf.size else -1)
  return v

def Schema.validate (s : Schema) (id : TypeId) (buf : Buffer) : Except (Located ReadError) Unit :=
  match Reader.ofBuffer s id buf true with
  | .error e => .error (.here e)
  | .ok r => do let _ ← r.decode

end Flatwire
