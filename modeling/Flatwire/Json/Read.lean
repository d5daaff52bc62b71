import Flatwire.Json.Parse

/-! Reading records from JSON. A reader takes what is there already and the document that changes it: `null` changes
nothing, and the same key given twice is read twice. -/

namespace Flatwire.Json

/-- The document has a shape that the reader does not take. -/
structure Misfit where
deriving DecidableEq, Repr

abbrev Reader (α : Type) := α → Json → Except Misfit α

def readText : Reader Bytes
  | old, null => .ok old
  | _, str t => .ok t
  | _, _ => .error ⟨⟩

/-- The value of a spelling that has digits only. -/
def natOfDigits? (l : Bytes) : Option Nat :=
  if !l.isEmpty && l.all isDecimal then some (l.foldl (fun n b => n * 10 + (b.toNat - 0x30)) 0) else none

def readNat (limit : Nat) : Reader Nat
  | old, null => .ok old
  | _, num l =>
    match natOfDigits? l with
    | some n => if n < limit then .ok n else .error ⟨⟩
    | none => .error ⟨⟩
  | _, _ => .error ⟨⟩

def readItems {α : Type} (zero : α) (item : Reader α) : List α → List Json → Except Misfit (List α)
  | _, [] => .ok []
  | olds, x :: xs => do
    let y ← item (olds.headD zero) x
    return y :: (← readItems zero item olds.tail xs)

/-- A list that may be missing, with the items behind its end that longer lists have left there. -/
structure Items (α : Type) where
  given : Option (List α) := none
  spare : List α := []

/-- The items, of which a missing list has none. -/
def Items.toList {α : Type} (xs : Items α) : List α := xs.given.getD []

/-- Reads a list over an earlier one. Each item is read into what stands at its place, be it behind the end of the
earlier list; only an empty list or `null` clears the places. -/
def readList {α : Type} (zero : α) (item : Reader α) : Reader (Items α)
  | _, null => .ok {}
  | _, arr [] => .ok ⟨some [], []⟩
  | old, arr xs => do
    let places := old.toList ++ old.spare
    return ⟨some (← readItems zero item places xs), places.drop xs.length⟩
  | _, _ => .error ⟨⟩

/-- A part that may be missing. -/
def readOption {α : Type} (zero : α) (part : Reader α) : Reader (Option α)
  | _, null => .ok none
  | old, j => (part (old.getD zero) j).map some

/-- The key in upper case. Two letters beyond ASCII fold to `S` and `K`. -/
def foldKey : Bytes → Bytes
  | [] => []
  | 0xC5 :: 0xBF :: r => 0x53 :: foldKey r
  | 0xE2 :: 0x84 :: 0xAA :: r => 0x4B :: foldKey r
  | b :: r => (if 0x61 ≤ b && b ≤ 0x7A then b - 0x20 else b) :: foldKey r

structure Slot (α ε : Type) where
  key : Bytes
  read : α → Json → Except ε α

/-- Reads the members in order; keys match without regard to case and unknown ones are passed over. -/
def readMembers {α ε : Type} (slots : List (Slot α ε)) : α → List (Bytes × Json) → Except ε α
  | old, [] => .ok old
  | old, (k, j) :: ms =>
    match slots.find? fun slot => foldKey slot.key = foldKey k with
    | some slot =>
      match slot.read old j with
      | .ok new => readMembers slots new ms
      | .error e => .error e
    | none => readMembers slots old ms

def readRecord {α ε : Type} (misfit : ε) (slots : List (Slot α ε)) (old : α) : Json → Except ε α
  | null => .ok old
  | obj ms => readMembers slots old ms
  | _ => .error misfit

def slot {α β : Type} (key : String) (get : α → β) (set : α → β → α) (part : Reader β) : Slot α Misfit :=
  ⟨key, fun old j => (part (get old) j).map (set old)⟩

end Flatwire.Json
