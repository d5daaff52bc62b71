import Flatwire.Bytes

/-! Buffers that hold encoded values. A stored offset is a 16-bit distance from the first byte of its slot to the first
byte of its payload. An access that leaves the buffer has no result. -/

namespace Flatwire

abbrev Buffer := Array UInt8

namespace Buffer

/-- Offsets of 16 bits reach no further. -/
def maxSize : Nat := 65535

/-- Sets the bytes from index `i` on; those past the end are dropped. -/
def overwrite (buf : Buffer) (i : Nat) : Bytes → Buffer
  | [] => buf
  | b :: bs => overwrite (buf.setIfInBounds i b) (i + 1) bs

@[simp] theorem size_overwrite (buf : Buffer) (i : Nat) (bs : Bytes) : (overwrite buf i bs).size = buf.size := by
  induction bs generalizing buf i with
  | nil => rfl
  | cons b bs ih => simp [overwrite, ih]

def put? (buf : Buffer) (addr : Int) (bs : Bytes) : Option Buffer :=
  if 0 ≤ addr ∧ addr.toNat + bs.length ≤ buf.size then some (overwrite buf addr.toNat bs) else none

/-- The low `n` bytes of `v`, stored at the address. -/
def putNat? (buf : Buffer) (addr : Int) (n v : Nat) : Option Buffer := buf.put? addr (Bytes.ofNat n v)

/-- The bytes from `lo` up to `hi`. -/
def slice? (buf : Buffer) (lo hi : Int) : Option Bytes :=
  if 0 ≤ lo ∧ lo ≤ hi ∧ hi ≤ buf.size then some (buf.extract lo.toNat hi.toNat).toList else none

/-- A slice may go past the end of a buffer, up to the end of what follows it in memory. -/
def sliceWith? (buf spare : Buffer) (lo hi : Int) : Option Bytes := slice? (buf ++ spare) lo hi

/-- The number in the `n` bytes at the address. -/
def readNat? (buf : Buffer) (addr : Int) (n : Nat) : Option Nat := (buf.slice? addr (addr + n)).map Bytes.toNat

def readInt? (buf : Buffer) (addr : Int) (n : Nat) : Option Int := (buf.readNat? addr n).map (signed n)

def readBool? (buf : Buffer) (addr : Int) : Option Bool := (buf.readNat? addr 1).map (· != 0)

/-- The distance from a slot to its payload as it is stored: its low 16 bits. -/
def putOffset? (buf : Buffer) (slot target : Int) : Option Buffer := buf.putNat? slot 2 (unsigned 2 (target - slot))

def deref? (buf : Buffer) (slot : Int) : Option Int := (buf.readNat? slot 2).map fun d => slot + d

/-- The element count of a list slot, and the address of the first element. -/
def listHeader? (buf : Buffer) (addr : Int) : Option (Nat × Int) := do
  let count ← buf.readNat? addr 2
  return (count, ← buf.deref? (addr + 2))

def oneOfHeader? (buf : Buffer) (addr : Int) : Option (Nat × Int) := do
  let tag ← buf.readNat? addr 1
  return (tag, ← buf.deref? (addr + 1))

def zeroFromAux (buf : Buffer) : Nat → Nat → Option Nat
  | 0, _ => none
  | fuel + 1, i => if buf[i]? = some 0 then some i else zeroFromAux buf fuel (i + 1)

/-- The index of the first zero byte from `i` on. -/
def zeroFrom? (buf : Buffer) (i : Nat) : Option Nat := zeroFromAux buf (buf.size - i) i

/-- The text that a slot refers to. It ends before the first zero byte, or with the buffer. -/
def readText? (buf : Buffer) (slot : Int) : Option Bytes := do
  let start ← buf.deref? slot
  buf.slice? start (((buf.zeroFrom? start.toNat).getD (max buf.size start.toNat) : Nat) : Int)

/-- Where record number `index` of an array of equal records begins. -/
def recordAddr (base index : Int) (size : Nat) : Int := base + index * size

end Buffer

end Flatwire
