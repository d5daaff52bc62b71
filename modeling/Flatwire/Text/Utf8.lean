import Flatwire.Bytes

/-! UTF-8 read one character at a time. Overlong forms, surrogates and numbers above U+10FFFF are refused, so a
character that is accepted is the one that its bytes encode. -/

namespace Flatwire.Utf8

def isContinuation (b : UInt8) : Bool := 0x80 ≤ b && b ≤ 0xBF

/-- The range of the second byte, which depends on the first one. -/
def secondInRange (b0 b1 : UInt8) : Bool :=
  let lo : UInt8 := if b0 = 0xE0 then 0xA0 else if b0 = 0xF0 then 0x90 else 0x80
  let hi : UInt8 := if b0 = 0xED then 0x9F else if b0 = 0xF4 then 0x8F else 0xBF
  lo ≤ b1 && b1 ≤ hi

def low6 (b : UInt8) : Nat := b.toNat % 64

/-- The first character with its width in bytes; `none` when the text is empty or starts with an invalid byte. -/
def first? : Bytes → Option (Char × Nat)
  | [] => none
  | b0 :: r =>
    if b0 < 0x80 then some (Char.ofNat b0.toNat, 1)
    else if b0 < 0xC2 || 0xF4 < b0 then none
    else if b0 < 0xE0 then
      match r with
      | b1 :: _ =>
        if isContinuation b1 then some (Char.ofNat (b0.toNat % 32 * 64 + low6 b1), 2) else none
      | _ => none
    else if b0 < 0xF0 then
      match r with
      | b1 :: b2 :: _ =>
        if secondInRange b0 b1 && isContinuation b2 then
          some (Char.ofNat ((b0.toNat % 16 * 64 + low6 b1) * 64 + low6 b2), 3)
        else none
      | _ => none
    else
      match r with
      | b1 :: b2 :: b3 :: _ =>
        if secondInRange b0 b1 && isContinuation b2 && isContinuation b3 then
          some (Char.ofNat (((b0.toNat % 8 * 64 + low6 b1) * 64 + low6 b2) * 64 + low6 b3), 4)
        else none
      | _ => none

/-- One step of reading: a character, or a byte that starts none. -/
inductive Unit where
  | char (c : Char)
  | bad (b : UInt8)

/-- Splits a text into characters and bad bytes, in order; the fuel bounds the number of steps. -/
def unitsAux : Nat → Bytes → List Unit → List Unit
  | 0, _, acc => acc.reverse
  | _, [], acc => acc.reverse
  | n + 1, b :: r, acc =>
    match first? (b :: r) with
    | some (c, w) => unitsAux n (r.drop (w - 1)) (.char c :: acc)
    | none => unitsAux n r (.bad b :: acc)

def units (bs : Bytes) : List Unit := unitsAux bs.length bs []

def Unit.isChar : Unit → Bool
  | .char _ => true
  | .bad _ => false

def valid (bs : Bytes) : Bool := (units bs).all Unit.isChar

/-- Each bad byte reads as U+FFFD. -/
def Unit.toChar : Unit → Char
  | .char c => c
  | .bad _ => '�'

def toStringLossy (bs : Bytes) : String := String.ofList ((units bs).map Unit.toChar)

/-- The text, if the bytes are UTF-8. -/
def toString? (bs : Bytes) : Option String := if valid bs then some (toStringLossy bs) else none

/-- The number of characters, where a bad byte counts as one. -/
def count (bs : Bytes) : Nat := (units bs).length

end Flatwire.Utf8
