import Flatwire.Wire.Buffer

/-! Components: values laid out for a buffer. A component is a static section of fixed size, and payloads that its slots
refer to. The static section goes where the caller reserved room for it, the payloads one after another to the dynamic
cursor. -/

namespace Flatwire

inductive WriteError where
  | insufficientCapacity
  | listTooLong
  | oneOfUnset
  /-- The caller reserved no room for the static section, or the cursor lies before the buffer. -/
  | outsideBuffer
deriving DecidableEq, Repr

def WriteError.message : WriteError → String
  | insufficientCapacity => "simplebuffers: insufficient buffer capacity"
  | listTooLong => "simplebuffers: list length exceeds 65535 elements"
  | oneOfUnset => "simplebuffers: oneof has no variant set"
  | outsideBuffer => "simplebuffers: access outside the buffer"

/-- The count of a list has 16 bits. -/
def maxListLength : Nat := 65535

inductive Component where
  /-- A number in the given count of bytes. -/
  | scalar (width value : Nat)
  /-- A text without zero bytes. -/
  | text (bytes : Bytes)
  | bytes (items : Bytes)
  /-- A list; all elements have the static size of the first. -/
  | list (items : List Component)
  /-- A tagged value; without a value nothing can be written. -/
  | oneOf (tag : UInt8) (value : Option Component)
  | record (size : UInt16) (fields : List (UInt16 × Component))
deriving Inhabited, Repr

namespace Component

/-- A signed or unsigned number in the given count of bytes. -/
def int (width : Nat) (v : Int) : Component := scalar width (unsigned width v)

def bool (b : Bool) : Component := scalar 1 b.toNat

/-- A list of signed one-byte elements. -/
def int8s (items : List Int8) : Component := bytes (items.map Int8.toUInt8)

def staticSize : Component → Nat
  | scalar width _ => width
  | text _ => 2
  | bytes _ => 4
  | list _ => 4
  | oneOf .. => 3
  | record size _ => size.toNat

end Component

/-- The cursor after `n` more bytes, if the buffer has them. -/
def reserve (size : Nat) (cursor : Int) (n : Nat) : Except WriteError Int :=
  if (size : Int) - cursor < n then .error .insufficientCapacity else .ok (cursor + n)

/-- An access that must not leave the buffer. -/
def inBuffer {α : Type} : Option α → Except WriteError α
  | some a => .ok a
  | none => .error .outsideBuffer

namespace Component

mutual

/-- Writes the static section at `dest` and the payloads from `cursor` on, and gives the cursor after them. -/
def write (buf : Buffer) (dest cursor : Int) : Component → Except WriteError (Buffer × Int)
  | scalar width v => do return (← inBuffer (buf.putNat? dest width v), cursor)
  | text s => do
    let stop ← reserve buf.size cursor (s.length + 1)
    let buf ← inBuffer (buf.putOffset? dest cursor)
    return (← inBuffer (buf.put? cursor (s ++ [0])), stop)
  | bytes items => do
    if items.length > maxListLength then throw .listTooLong
    let stop ← reserve buf.size cursor items.length
    let buf ← inBuffer (buf.putNat? dest 2 items.length)
    let buf ← inBuffer (buf.putOffset? (dest + 2) cursor)
    return (← inBuffer (buf.put? cursor items), stop)
  | list items => do
    if items.length > maxListLength then throw .listTooLong
    let buf ← inBuffer (buf.putNat? dest 2 items.length)
    match items with
    | [] => return (← inBuffer (buf.putOffset? (dest + 2) cursor), cursor)
    | first :: rest =>
      let size := first.staticSize
      let stop ← reserve buf.size cursor (size * (rest.length + 1))
      let buf ← inBuffer (buf.putOffset? (dest + 2) cursor)
      let (buf, stop) ← first.write buf cursor stop
      writeItems size rest buf (cursor + size) stop
  | oneOf _ none => throw .oneOfUnset
  | oneOf tag (some value) => do
    let stop ← reserve buf.size cursor value.staticSize
    let buf ← inBuffer (buf.putNat? dest 1 tag.toNat)
    let buf ← inBuffer (buf.putOffset? (dest + 1) cursor)
    value.write buf cursor stop
  | record _ fields => writeFields fields buf dest cursor

/-- Writes the elements `size` bytes apart. -/
def writeItems (size : Nat) : List Component → Buffer → Int → Int → Except WriteError (Buffer × Int)
  | [], buf, _, cursor => .ok (buf, cursor)
  | c :: cs, buf, dest, cursor =>
    match c.write buf dest cursor with
    | .error e => .error e
    | .ok (buf, cursor) => writeItems size cs buf (dest + size) cursor

/-- Writes each field at its offset from `dest`. -/
def writeFields : List (UInt16 × Component) → Buffer → Int → Int → Except WriteError (Buffer × Int)
  | [], buf, _, cursor => .ok (buf, cursor)
  | (offset, c) :: fs, buf, dest, cursor =>
    match c.write buf (dest + offset.toNat) cursor with
    | .error e => .error e
    | .ok (buf, cursor) => writeFields fs buf dest cursor

end

end Component

/-- Whatever can be written: the size of its static section, and the code that writes it at a place and a cursor. -/
structure Writer where
  staticSize : Nat
  write : Buffer → Int → Int → Except WriteError (Buffer × Int)

namespace Writer

/-- Writes at the start of a buffer and gives the count of bytes used. Of a buffer longer than offsets can reach only the
first part is used. -/
def writeTo (w : Writer) (buf : Buffer) : Except WriteError (Buffer × Nat) :=
  let room := buf.extract 0 Buffer.maxSize
  if room.size < w.staticSize then .error .insufficientCapacity
  else
    match w.write room 0 w.staticSize with
    | .error e => .error e
    | .ok (written, stop) => .ok (written ++ buf.extract Buffer.maxSize buf.size, stop.toNat)

def writeItems (size : Nat) : List Writer → Buffer → Int → Int → Except WriteError (Buffer × Int)
  | [], buf, _, cursor => .ok (buf, cursor)
  | w :: ws, buf, dest, cursor => do
    let (buf, cursor) ← w.write buf dest cursor
    writeItems size ws buf (dest + size) cursor

/-- A list of anything that can be written. -/
def list (items : List Writer) : Writer where
  staticSize := 4
  write buf dest cursor := do
    if items.length > maxListLength then throw .listTooLong
    let buf ← inBuffer (buf.putNat? dest 2 items.length)
    match items with
    | [] => return (← inBuffer (buf.putOffset? (dest + 2) cursor), cursor)
    | first :: _ =>
      let stop ← reserve buf.size cursor (first.staticSize * items.length)
      let buf ← inBuffer (buf.putOffset? (dest + 2) cursor)
      writeItems first.staticSize items buf cursor stop

def oneOf (tag : UInt8) (value : Writer) : Writer where
  staticSize := 3
  write buf dest cursor := do
    let stop ← reserve buf.size cursor value.staticSize
    let buf ← inBuffer (buf.putNat? dest 1 tag.toNat)
    let buf ← inBuffer (buf.putOffset? (dest + 1) cursor)
    value.write buf cursor stop

end Writer

namespace Component

def writer (c : Component) : Writer := ⟨c.staticSize, fun buf dest cursor => c.write buf dest cursor⟩

def writeTo (c : Component) (buf : Buffer) : Except WriteError (Buffer × Nat) := c.writer.writeTo buf

theorem writeTo_eq (c : Component) (buf : Buffer) : c.writeTo buf =
    if (buf.extract 0 Buffer.maxSize).size < c.staticSize then .error .insufficientCapacity
    else
      match c.write (buf.extract 0 Buffer.maxSize) 0 c.staticSize with
      | .error e => .error e
      | .ok (written, stop) => .ok (written ++ buf.extract Buffer.maxSize buf.size, stop.toNat) :=
  rfl

end Component

end Flatwire
