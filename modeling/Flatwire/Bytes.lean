/-! Byte strings. Source text, wire strings and file contents are byte lists, because any of them may fail to be
UTF-8. Numbers are stored little-endian. -/

namespace Flatwire

abbrev Bytes := List UInt8

namespace Bytes

/-- The UTF-8 bytes of a text. -/
def ofString (s : String) : Bytes := s.toUTF8.data.toList

instance : Coe String Bytes := ⟨ofString⟩

/-- The low `n` bytes of `v`, least significant first. -/
def ofNat : Nat → Nat → Bytes
  | 0, _ => []
  | n + 1, v => UInt8.ofNat v :: ofNat n (v / 256)

/-- The number whose little-endian digits are the given bytes. -/
def toNat : Bytes → Nat
  | [] => 0
  | b :: bs => b.toNat + 256 * toNat bs

@[simp] theorem length_ofNat (n v : Nat) : (ofNat n v).length = n := by
  induction n generalizing v with
  | zero => rfl
  | succ n ih => simp [ofNat, ih]

theorem toNat_ofNat (n v : Nat) : toNat (ofNat n v) = v % Nat.pow 256 n := by
  induction n generalizing v with
  | zero => simp [ofNat, toNat, Nat.mod_one]
  | succ n ih =>
    have hp : Nat.pow 256 (n + 1) = 256 * Nat.pow 256 n := Nat.mul_comm _ _
    rw [ofNat, toNat, ih, hp, Nat.mod_mul]
    simp

theorem toNat_lt (bs : Bytes) : toNat bs < Nat.pow 256 bs.length := by
  induction bs with
  | nil => simp [toNat]
  | cons b bs ih =>
    have hb := b.toNat_lt
    have hp : Nat.pow 256 (bs.length + 1) = Nat.pow 256 bs.length * 256 := rfl
    rw [toNat, List.length_cons, hp]
    omega

/-- The digit of value `d`, lower case above nine. -/
def digit (d : Nat) : UInt8 := UInt8.ofNat (if d < 10 then 48 + d else 87 + d)

def radixAux (base : Nat) : Nat → Nat → Bytes → Bytes
  | 0, _, acc => acc
  | fuel + 1, n, acc =>
    if n < base then digit n :: acc else radixAux base fuel (n / base) (digit (n % base) :: acc)

/-- The digits of `n` in the given base, most significant first and without leading zeros. -/
def radix (base n : Nat) : Bytes := radixAux base (n + 1) n []

def decimal (n : Nat) : Bytes := radix 10 n

def decimalInt : Int → Bytes
  | .ofNat n => decimal n
  | .negSucc n => 45 :: decimal (n + 1)

/-- Puts `fill` in front until the length is at least `n`. -/
def padLeft (fill : UInt8) (n : Nat) (bs : Bytes) : Bytes := List.replicate (n - bs.length) fill ++ bs

/-- Two hexadecimal digits per byte. -/
def hex (bs : Bytes) : Bytes := bs.flatMap fun b => [digit (b.toNat / 16), digit (b.toNat % 16)]

/-- The parts with `sep` between each two. -/
def join (sep : Bytes) : List Bytes → Bytes
  | [] => []
  | [b] => b
  | b :: bs => b ++ sep ++ join sep bs

def unlines (lines : List Bytes) : Bytes := lines.flatMap (· ++ [0x0A])

/-- The pieces between the separators; there is always one more piece than separators. -/
def splitOn (sep : UInt8) : Bytes → List Bytes
  | [] => [[]]
  | b :: bs =>
    if b = sep then [] :: splitOn sep bs
    else
      match splitOn sep bs with
      | [] => [[b]]
      | p :: ps => (b :: p) :: ps

/-- The text without the given ending, if it has it. -/
def dropSuffix (suffix bs : Bytes) : Bytes :=
  if suffix.isSuffixOf bs then bs.take (bs.length - suffix.length) else bs

/-- The text without the given beginning, if it has it. -/
def dropStart (start bs : Bytes) : Bytes := if start.isPrefixOf bs then bs.drop start.length else bs

/-- Byte by byte, a text before its extensions. -/
def lt : Bytes → Bytes → Bool
  | [], [] => false
  | [], _ :: _ => true
  | _ :: _, [] => false
  | a :: as, b :: bs => a < b || (a == b && lt as bs)

end Bytes

/-- Reads the low `8 * n` bits of `v` as a signed number. -/
def signed (n v : Nat) : Int :=
  if v < Nat.pow 2 (8 * n - 1) then v else (v : Int) - (Nat.pow 2 (8 * n) : Nat)

/-- The bits of `v` in `n` bytes, negative numbers in two's complement. -/
def unsigned (n : Nat) (v : Int) : Nat := (v % (Nat.pow 2 (8 * n) : Nat)).toNat

end Flatwire
