import Flatwire.Wire.Buffer

/-! Random access to the elements of an encoded list. -/

namespace Flatwire

structure ListView where
  buf : Buffer
  /-- What follows the buffer in memory. -/
  spare : Buffer
  addr : Int
  length : Nat
  elemSize : Nat

namespace ListView

def ofSlot? (buf : Buffer) (slot : Int) (elemSize : Nat) (spare : Buffer := #[]) : Option ListView :=
  (buf.listHeader? slot).map fun (length, addr) => ⟨buf, spare, addr, length, elemSize⟩

/-- Element number `i`, whether the list has it or not. -/
def at? {α : Type} (l : ListView) (read : Buffer → Int → Option α) (i : Int) : Option α :=
  read l.buf (Buffer.recordAddr l.addr i l.elemSize)

def has (l : ListView) (i : Int) : Bool := 0 ≤ i && i < l.length

def collectFrom {α : Type} (l : ListView) (read : Buffer → Int → Option α) (i : Nat) : Nat → List α → Option (List α)
  | 0, acc => some acc.reverse
  | n + 1, acc =>
    match l.at? read i with
    | none => none
    | some a => collectFrom l read (i + 1) n (a :: acc)

def toList? {α : Type} (l : ListView) (read : Buffer → Int → Option α) : Option (List α) :=
  l.collectFrom read 0 l.length []

/-- The first `n` elements. The one after them is read too, if there is one. -/
def take? {α : Type} (l : ListView) (read : Buffer → Int → Option α) (n : Nat) : Option (List α) :=
  (l.collectFrom read 0 (min l.length (n + 1)) []).map (·.take n)

/-- The static sections of all elements; none are looked at in an empty list. -/
def raw? (l : ListView) : Option Bytes :=
  if l.length = 0 then some [] else l.buf.sliceWith? l.spare l.addr (l.addr + l.length * l.elemSize)

def render? {α : Type} (l : ListView) (read : Buffer → Int → Option α) (text : α → Bytes) : Option Bytes :=
  (l.toList? read).map fun xs => "[" ++ Bytes.join ", " (xs.map text) ++ "]"

end ListView

end Flatwire
