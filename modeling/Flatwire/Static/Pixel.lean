import Flatwire.Wire.Component
import Flatwire.Wire.ListView

/-! One schema with its layout fixed in code: a pixel has a colour, a label, an origin, lists of tags, bytes and points,
and a body of one of three forms. It is written and read without a compiled schema, by code that has every offset in it. -/

namespace Flatwire.Static

def pixelSource : Bytes := Bytes.unlines
  ["enum Color \x7b red = 0; green = 1; blue = 300; \x7d", "", "sequence Point \x7b x: i16; y: i16; \x7d", "",
    "sequence Pixel \x7b", "    color: Color;", "    label: str;", "    origin: Point;", "    tags: [str];",
    "    data: [u8];", "    points: [Point];", "    body: oneof \x7b id: u32; name: str; at: Point; \x7d;", "\x7d"]

/-- A colour by its number, declared or not. -/
structure Color where
  value : UInt16
deriving DecidableEq, Repr

namespace Color

def write (c : Color) (buf : Buffer) (dest cursor : Int) : Except WriteError (Buffer × Int) := do
  let buf ← inBuffer (buf.putNat? dest 2 c.value.toNat)
  return (buf, cursor)

def writer (c : Color) : Writer := ⟨2, c.write⟩

def name (c : Color) : Bytes :=
  if c.value = 0 then "red"
  else if c.value = 1 then "green"
  else if c.value = 300 then "blue"
  else "Color(" ++ Bytes.decimal c.value.toNat ++ ")"

end Color

structure Point where
  x : Int16
  y : Int16
deriving DecidableEq, Repr

namespace Point

def write (p : Point) (buf : Buffer) (dest cursor : Int) : Except WriteError (Buffer × Int) := do
  let buf ← inBuffer (buf.putNat? dest 2 (unsigned 2 p.x.toInt))
  let buf ← inBuffer (buf.putNat? (dest + 2) 2 (unsigned 2 p.y.toInt))
  return (buf, cursor)

def writer (p : Point) : Writer := ⟨4, p.write⟩

end Point

inductive Body where
  | id (n : UInt32)
  | name (s : Bytes)
  | point (p : Point)
deriving DecidableEq, Repr

/-- A body; one that is not set cannot be written. -/
def Body.writer : Option Body → Writer
  | none => ⟨3, fun _ _ _ => throw .oneOfUnset⟩
  | some (id n) => .oneOf 0 (Component.scalar 4 n.toNat).writer
  | some (name s) => .oneOf 1 (Component.text s).writer
  | some (point p) => .oneOf 2 p.writer

structure Pixel where
  color : Color
  label : Bytes
  origin : Point
  tags : List Bytes
  data : Bytes
  points : List Point
  body : Option Body
deriving DecidableEq, Repr

namespace Pixel

def write (p : Pixel) (buf : Buffer) (dest cursor : Int) : Except WriteError (Buffer × Int) := do
  let buf ← inBuffer (buf.putNat? dest 2 p.color.value.toNat)
  let (buf, cursor) ← (Component.text p.label).write buf (dest + 2) cursor
  let (buf, cursor) ← p.origin.write buf (dest + 4) cursor
  let (buf, cursor) ← (Component.list (p.tags.map .text)).write buf (dest + 8) cursor
  let (buf, cursor) ← (Component.bytes p.data).write buf (dest + 12) cursor
  let (buf, cursor) ← (Writer.list (p.points.map Point.writer)).write buf (dest + 16) cursor
  let (buf, cursor) ← (Body.writer p.body).write buf (dest + 20) cursor
  return (buf, cursor)

def writer (p : Pixel) : Writer := ⟨23, p.write⟩

end Pixel

structure PointView where
  buf : Buffer
  addr : Int

namespace PointView

/-- Point number `index` of a buffer of points. -/
def ofIndex (buf : Buffer) (index : Int) : PointView := ⟨buf, Buffer.recordAddr 0 index 4⟩

def x? (p : PointView) : Option Int := p.buf.readInt? p.addr 2

def y? (p : PointView) : Option Int := p.buf.readInt? (p.addr + 2) 2

end PointView

structure BodyView where
  buf : Buffer
  addr : Int

namespace BodyView

def tag? (b : BodyView) : Option Nat := b.buf.readNat? b.addr 1

/-- What `read` finds at the payload, if the body has the given tag. -/
def select? {α : Type} (b : BodyView) (tag : Nat) (read : Int → Option α) : Option (Option α) := do
  let (found, addr) ← b.buf.oneOfHeader? b.addr
  if found = tag then return some (← read addr) else return none

def asId? (b : BodyView) : Option (Option Nat) := b.select? 0 fun addr => b.buf.readNat? addr 4

def asName? (b : BodyView) : Option (Option Bytes) := b.select? 1 fun addr => b.buf.readText? addr

def asAt? (b : BodyView) : Option (Option PointView) := b.select? 2 fun addr => some ⟨b.buf, addr⟩

end BodyView

structure PixelView where
  buf : Buffer
  addr : Int

namespace PixelView

/-- Pixel number `index` of a buffer of pixels. -/
def ofIndex (buf : Buffer) (index : Int) : PixelView := ⟨buf, Buffer.recordAddr 0 index 23⟩

def color? (p : PixelView) : Option Color := (p.buf.readNat? p.addr 2).map fun n => ⟨UInt16.ofNat n⟩

def label? (p : PixelView) : Option Bytes := p.buf.readText? (p.addr + 2)

def origin (p : PixelView) : PointView := ⟨p.buf, p.addr + 4⟩

def tags? (p : PixelView) : Option (List Bytes) := do
  let l ← ListView.ofSlot? p.buf (p.addr + 8) 2
  l.toList? Buffer.readText?

def data? (p : PixelView) : Option Bytes := do
  let l ← ListView.ofSlot? p.buf (p.addr + 12) 1
  l.raw?

def points? (p : PixelView) : Option (List PointView) := do
  let l ← ListView.ofSlot? p.buf (p.addr + 16) 4
  l.toList? fun buf addr => some ⟨buf, addr⟩

def body (p : PixelView) : BodyView := ⟨p.buf, p.addr + 20⟩

end PixelView

end Flatwire.Static
