import Flatwire.Bytes

/-! Binary floating-point formats. A number is kept as its bit pattern; conversions between formats and from integers
are exact computations on natural numbers, rounded to the nearest with ties to the even neighbour. -/

namespace Flatwire

structure FloatFormat where
  fractionBits : Nat
  exponentBits : Nat
deriving DecidableEq, Repr

/-- What a bit pattern stands for; a finite one for `mantissa * 2 ^ exponent`. -/
inductive FloatValue where
  | nan (negative : Bool) (fraction : Nat)
  | infinite (negative : Bool)
  | finite (negative : Bool) (mantissa : Nat) (exponent : Int)
deriving DecidableEq, Repr

/-- `m / 2 ^ k` rounded to the nearest, a half to the even neighbour. -/
def roundShift (m k : Nat) : Nat :=
  let q := m / Nat.pow 2 k
  let r := 2 * (m % Nat.pow 2 k)
  if r > Nat.pow 2 k ∨ (r = Nat.pow 2 k ∧ q % 2 = 1) then q + 1 else q

namespace FloatFormat

def single : FloatFormat := ⟨23, 8⟩

def double : FloatFormat := ⟨52, 11⟩

def bias (f : FloatFormat) : Nat := Nat.pow 2 (f.exponentBits - 1) - 1

def leastExponent (f : FloatFormat) : Int := 1 - (f.bias : Int) - f.fractionBits

/-- The exponent field of infinities and of what is no number. -/
def topField (f : FloatFormat) : Nat := Nat.pow 2 f.exponentBits - 1

def signBit (f : FloatFormat) (negative : Bool) : Nat := if negative then Nat.pow 2 (f.fractionBits + f.exponentBits) else 0

def infinity (f : FloatFormat) (negative : Bool) : Nat := f.signBit negative + f.topField * Nat.pow 2 f.fractionBits

def decode (f : FloatFormat) (bits : Nat) : FloatValue :=
  let fraction := bits % Nat.pow 2 f.fractionBits
  let field := bits / Nat.pow 2 f.fractionBits % Nat.pow 2 f.exponentBits
  let negative := bits / Nat.pow 2 (f.fractionBits + f.exponentBits) % 2 = 1
  if field = f.topField then if fraction = 0 then .infinite negative else .nan negative fraction
  else if field = 0 then .finite negative fraction f.leastExponent
  else .finite negative (Nat.pow 2 f.fractionBits + fraction) (f.leastExponent + (field - 1 : Nat))

/-- The bit pattern nearest to `mantissa * 2 ^ exponent`. -/
def encode (f : FloatFormat) (negative : Bool) (mantissa : Nat) (exponent : Int) : Nat :=
  let last := max (exponent + mantissa.log2 - f.fractionBits) f.leastExponent
  let places := if last ≤ exponent then mantissa * Nat.pow 2 (exponent - last).toNat
    else roundShift mantissa (last - exponent).toNat
  let magnitude := (last - f.leastExponent).toNat * Nat.pow 2 f.fractionBits + places
  if mantissa = 0 then f.signBit negative
  else if magnitude ≥ f.topField * Nat.pow 2 f.fractionBits then f.infinity negative
  else f.signBit negative + magnitude

/-- The same number in another format. What is no number keeps its sign and the leading bits of its fraction, of which
the first is set. -/
def convert (f g : FloatFormat) (bits : Nat) : Nat :=
  match f.decode bits with
  | .nan negative fraction =>
    let scaled := fraction * Nat.pow 2 g.fractionBits / Nat.pow 2 f.fractionBits
    let quiet := Nat.pow 2 (g.fractionBits - 1)
    g.infinity negative + quiet + scaled % quiet
  | .infinite negative => g.infinity negative
  | .finite negative mantissa exponent => g.encode negative mantissa exponent

def ofInt (f : FloatFormat) (v : Int) : Nat := f.encode (v < 0) v.natAbs 0

end FloatFormat

end Flatwire
