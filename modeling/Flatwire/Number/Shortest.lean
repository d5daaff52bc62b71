import Flatwire.Number.Binary

/-! The shortest decimal that reads back. Of all decimals that round to a number, those with the fewest digits come
first, and among them the one nearest to the number. -/

namespace Flatwire

/-- `digits * 10 ^ exponent`. -/
structure Decimal where
  digits : Nat
  exponent : Int
deriving DecidableEq, Repr

namespace Decimal

/-- A positive number together with the bounds of what rounds to it, all as multiples of `1 / scale`. -/
structure Interval where
  low : Nat
  value : Nat
  high : Nat
  scale : Nat
  closed : Bool
deriving DecidableEq, Repr

/-- The numbers that round to `mantissa * 2 ^ exponent`; below a power of two the neighbour is only half as far. -/
def Interval.ofFloat (f : FloatFormat) (mantissa : Nat) (exponent : Int) : Interval :=
  let narrow := mantissa = Nat.pow 2 f.fractionBits ∧ exponent ≠ f.leastExponent
  let up := Nat.pow 2 exponent.toNat
  { low := (if narrow then 4 * mantissa - 1 else 4 * mantissa - 2) * up
    value := 4 * mantissa * up
    high := (4 * mantissa + 2) * up
    scale := 4 * Nat.pow 2 (-exponent).toNat
    closed := mantissa % 2 = 0 }

namespace Interval

/-- The interval in units of `10 ^ p`. -/
def inUnits (i : Interval) (p : Int) : Interval :=
  let k := Nat.pow 10 (-p).toNat
  { i with low := i.low * k, value := i.value * k, high := i.high * k, scale := i.scale * Nat.pow 10 p.toNat }

def holds (i : Interval) (n : Nat) : Bool :=
  let x := n * i.scale
  if i.closed then i.low ≤ x && x ≤ i.high else i.low < x && x < i.high

/-- Of the whole numbers next to the value, the one in the interval that is nearer; the even one of a tie. -/
def whole? (i : Interval) : Option Nat :=
  let below := i.value / i.scale
  let above := below + 1
  let rest := 2 * (i.value % i.scale)
  let up := rest > i.scale ∨ (rest = i.scale ∧ below % 2 = 1)
  match i.holds below, i.holds above with
  | true, true => some (if up then above else below)
  | true, false => some below
  | false, true => some above
  | false, false => none

/-- The power of ten of the value's leading digit, searched from `p` downwards. -/
def leadingPower (i : Interval) : Nat → Int → Int
  | 0, p => p
  | fuel + 1, p =>
    let u := i.inUnits p
    if u.scale ≤ u.value then p else leadingPower i fuel (p - 1)

/-- Tries ever finer grids, starting with units of `10 ^ p`. -/
def search (i : Interval) : Nat → Int → Decimal
  | 0, p => ⟨(i.inUnits p).value / (i.inUnits p).scale, p⟩
  | fuel + 1, p =>
    match (i.inUnits p).whole? with
    | some n => if n % 10 = 0 then ⟨n / 10, p + 1⟩ else ⟨n, p⟩
    | none => search i fuel (p - 1)

end Interval

/-- The shortest decimal that rounds to the positive number `mantissa * 2 ^ exponent`. -/
def ofFloat (f : FloatFormat) (mantissa : Nat) (exponent : Int) : Decimal :=
  let i := Interval.ofFloat f mantissa exponent
  let lead := exponent + mantissa.log2
  let top := if lead ≥ 0 then lead * 31 / 100 + 1 else lead * 3 / 10 + 1
  i.search 20 (i.leadingPower 50 top)

/-- Numbers from a ten-thousandth on and below a million are written out; others get an exponent of at least two
digits. -/
def text (d : Decimal) : Bytes :=
  let ds := Bytes.decimal d.digits
  let lead := d.exponent + ds.length - 1
  if lead < -4 ∨ lead ≥ 6 then
    let fraction := ds.drop 1
    let power := Bytes.padLeft 48 2 (Bytes.decimal lead.natAbs)
    ds.take 1 ++ (if fraction.isEmpty then [] else 46 :: fraction) ++ (if lead < 0 then "e-" else "e+") ++ power
  else if d.exponent ≥ 0 then ds ++ List.replicate d.exponent.toNat 48
  else if lead ≥ 0 then ds.take (lead + 1).toNat ++ 46 :: ds.drop (lead + 1).toNat
  else ("0." : Bytes) ++ List.replicate (-lead - 1).toNat 48 ++ ds

end Decimal

def FloatFormat.text (f : FloatFormat) (bits : Nat) : Bytes :=
  match f.decode bits with
  | .nan .. => "NaN"
  | .infinite negative => if negative then "-Inf" else "+Inf"
  | .finite negative mantissa exponent =>
    let sign : Bytes := if negative then "-" else ""
    let magnitude := if mantissa = 0 then Bytes.ofString "0" else (Decimal.ofFloat f mantissa exponent).text
    sign ++ magnitude

end Flatwire
