import Flatwire.Json

/-! Reading JSON text. The whole text has to be one document with blanks around it. Bytes in strings that are not
UTF-8 are read as the replacement character, as are halves of surrogate pairs. -/

namespace Flatwire.Json

/-- Lists and objects may stand inside each other this deep. -/
def maxDepth : Nat := 10000

def isBlank (b : UInt8) : Bool := b == 0x20 || b == 0x09 || b == 0x0A || b == 0x0D

def skipBlanks (bs : Bytes) : Bytes := bs.dropWhile isBlank

def hexValue? (b : UInt8) : Option Nat :=
  if 0x30 ≤ b && b ≤ 0x39 then some (b.toNat - 0x30)
  else if 0x41 ≤ b && b ≤ 0x46 then some (b.toNat - 0x37)
  else if 0x61 ≤ b && b ≤ 0x66 then some (b.toNat - 0x57)
  else none

def hex4? (a b c d : UInt8) : Option Nat := do
  return (((← hexValue? a) * 16 + (← hexValue? b)) * 16 + (← hexValue? c)) * 16 + (← hexValue? d)

def encodeChar (n : Nat) : Bytes := Bytes.ofString (String.singleton (Char.ofNat n))

def isSurrogate (n : Nat) : Bool := 0xD800 ≤ n && n < 0xE000

/-- The character that two halves of a pair stand for. -/
def joinSurrogates? (hi lo : Nat) : Option Nat :=
  if 0xD800 ≤ hi && hi < 0xDC00 && 0xDC00 ≤ lo && lo < 0xE000 then
    some (0x10000 + (hi - 0xD800) * 0x400 + (lo - 0xDC00))
  else none

/-- One part of a string body: plain bytes, or the number of an escaped 16-bit unit. -/
inductive Piece where
  | byte (b : UInt8)
  | escaped (n : Nat)

def stringPieces : Bytes → Option (List Piece × Bytes)
  | [] => none
  | 0x22 :: r => some ([], r)
  | 0x5C :: 0x75 :: a :: b :: c :: d :: r =>
    match hex4? a b c d with
    | none => none
    | some n => (stringPieces r).map fun (ps, rest) => (.escaped n :: ps, rest)
  | 0x5C :: e :: r =>
    let plain (b : UInt8) : Option (List Piece × Bytes) := (stringPieces r).map fun (ps, rest) => (.byte b :: ps, rest)
    if e = 0x22 || e = 0x5C || e = 0x2F then plain e
    else if e = 0x62 then plain 0x08
    else if e = 0x66 then plain 0x0C
    else if e = 0x6E then plain 0x0A
    else if e = 0x72 then plain 0x0D
    else if e = 0x74 then plain 0x09
    else none
  | b :: r => if b < 0x20 || b = 0x5C then none else (stringPieces r).map fun (ps, rest) => (.byte b :: ps, rest)

/-- Joins pairs of surrogates and replaces lone ones. -/
def joinPieces : List Piece → Bytes
  | [] => []
  | .byte b :: ps => b :: joinPieces ps
  | .escaped hi :: .escaped lo :: ps =>
    match joinSurrogates? hi lo with
    | some n => encodeChar n ++ joinPieces ps
    | none => encodeChar (if isSurrogate hi then 0xFFFD else hi) ++ joinPieces (.escaped lo :: ps)
  | .escaped n :: ps => encodeChar (if isSurrogate n then 0xFFFD else n) ++ joinPieces ps

/-- Every bad byte becomes the replacement character. -/
def repaired (bs : Bytes) : Bytes :=
  (Utf8.units bs).flatMap fun u => Bytes.ofString (String.singleton u.toChar)

def string? (bs : Bytes) : Option (Bytes × Bytes) :=
  (stringPieces bs).map fun (ps, rest) => (repaired (joinPieces ps), rest)

def isDecimal (b : UInt8) : Bool := 0x30 ≤ b && b ≤ 0x39

/-- Takes at least one digit. -/
def digits? (bs : Bytes) : Option (Bytes × Bytes) :=
  let ds := bs.takeWhile isDecimal
  if ds.isEmpty then none else some (ds, bs.drop ds.length)

def fraction? : Bytes → Option (Bytes × Bytes)
  | 0x2E :: r => (digits? r).map fun (ds, rest) => (0x2E :: ds, rest)
  | bs => some ([], bs)

def exponent? : Bytes → Option (Bytes × Bytes)
  | e :: r =>
    if e = 0x65 || e = 0x45 then
      match r with
      | s :: r' =>
        if s = 0x2B || s = 0x2D then (digits? r').map fun (ds, rest) => (e :: s :: ds, rest)
        else (digits? r).map fun (ds, rest) => (e :: ds, rest)
      | [] => none
    else some ([], e :: r)
  | [] => some ([], [])

/-- The part in front of the point has no leading zeros. -/
def whole? : Bytes → Option (Bytes × Bytes)
  | 0x30 :: r => some ([0x30], r)
  | bs => digits? bs

def unsigned? (bs : Bytes) : Option (Bytes × Bytes) := do
  let (whole, bs) ← whole? bs
  let (frac, bs) ← fraction? bs
  let (exp, bs) ← exponent? bs
  return (whole ++ frac ++ exp, bs)

def number? : Bytes → Option (Bytes × Bytes)
  | 0x2D :: r => (unsigned? r).map fun (l, rest) => (0x2D :: l, rest)
  | bs => unsigned? bs

def literal? (word : Bytes) (j : Json) (bs : Bytes) : Option (Json × Bytes) :=
  if word.isPrefixOf bs then some (j, bs.drop word.length) else none

mutual

/-- A document at the start of the text. Every step takes a byte, so fuel above the length is never used up. -/
def value? : Nat → Nat → Bytes → Option (Json × Bytes)
  | 0, _, _ => none
  | fuel + 1, depth, bs =>
    match skipBlanks bs with
    | [] => none
    | b :: r =>
      if b = 0x22 then (string? r).map fun (s, rest) => (.str s, rest)
      else if b = 0x5B then
        match depth with
        | 0 => none
        | depth + 1 =>
          match skipBlanks r with
          | 0x5D :: rest => some (.arr [], rest)
          | _ => (items? fuel depth r).map fun (xs, rest) => (.arr xs, rest)
      else if b = 0x7B then
        match depth with
        | 0 => none
        | depth + 1 =>
          match skipBlanks r with
          | 0x7D :: rest => some (.obj [], rest)
          | _ => (members? fuel depth r).map fun (ms, rest) => (.obj ms, rest)
      else if b = 0x74 then literal? "true" (.bool true) (b :: r)
      else if b = 0x66 then literal? "false" (.bool false) (b :: r)
      else if b = 0x6E then literal? "null" .null (b :: r)
      else (number? (b :: r)).map fun (l, rest) => (.num l, rest)

/-- At least one item, up to and with the closing bracket. -/
def items? : Nat → Nat → Bytes → Option (List Json × Bytes)
  | 0, _, _ => none
  | fuel + 1, depth, bs =>
    match value? fuel depth bs with
    | none => none
    | some (x, r) =>
      match skipBlanks r with
      | 0x2C :: r => (items? fuel depth r).map fun (xs, rest) => (x :: xs, rest)
      | 0x5D :: rest => some ([x], rest)
      | _ => none

/-- At least one member, up to and with the closing brace. -/
def members? : Nat → Nat → Bytes → Option (List (Bytes × Json) × Bytes)
  | 0, _, _ => none
  | fuel + 1, depth, bs =>
    match skipBlanks bs with
    | 0x22 :: r =>
      match string? r with
      | none => none
      | some (k, r) =>
        match skipBlanks r with
        | 0x3A :: r =>
          match value? fuel depth r with
          | none => none
          | some (x, r) =>
            match skipBlanks r with
            | 0x2C :: r => (members? fuel depth r).map fun (ms, rest) => ((k, x) :: ms, rest)
            | 0x7D :: rest => some ([(k, x)], rest)
            | _ => none
        | _ => none
    | _ => none

end

def parse? (bs : Bytes) : Option Json :=
  match value? (2 * bs.length + 2) maxDepth bs with
  | some (j, rest) => if (skipBlanks rest).isEmpty then some j else none
  | none => none

end Flatwire.Json
