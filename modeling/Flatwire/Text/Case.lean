import Flatwire.Text.Printable

/-! Letter case. Upper-case letters, lower-case letters and decimal digits are those of the general categories; a
character is cased if it belongs to a letter with several cases. -/

namespace Flatwire.Text

/-- The run that holds the number, with its place in it. A run is given by the numbers that are left out before it and
by its length. -/
def findRun {α : Type} : List (Nat × Nat × α) → Nat → Option (Nat × α)
  | [], _ => none
  | (gap, run, a) :: rest, n =>
    if n < gap then none else if n < gap + run then some (n - gap, a) else findRun rest (n - (gap + run))

/-- Decimal digits above ASCII. -/
def digitRuns : List Nat := [
  1632, 10, 134, 10, 198, 10, 412, 10, 118, 10, 118, 10, 118, 10, 118, 10, 118, 10, 118, 10, 118, 10, 118, 10, 118, 10,
  96, 10, 118, 10, 70, 10, 278, 10, 70, 10, 1862, 10, 38, 10, 300, 10, 128, 10, 166, 10, 6, 10, 182, 10, 86, 10, 134,
  10, 6, 10, 35270, 10, 678, 10, 38, 10, 198, 10, 22, 10, 86, 10, 406, 10, 21270, 10, 1414, 10, 2182, 10, 812, 10, 128,
  10, 60, 10, 144, 10, 278, 10, 342, 10, 118, 10, 374, 10, 102, 10, 102, 10, 422, 10, 102, 10, 758, 10, 246, 10, 70, 10,
  422, 10, 19206, 10, 86, 10, 134, 10, 27764, 50, 2368, 10, 422, 10, 502, 10, 1110, 10, 4758, 10]

/-- Cased characters above ASCII. -/
def casedRuns : List Nat := [
  170, 1, 10, 1, 4, 1, 5, 23, 1, 31, 1, 195, 1, 4, 4, 208, 1, 36, 7, 2, 30, 5, 96, 1, 42, 4, 2, 2, 2, 4, 1, 1, 6, 1, 1,
  3, 1, 1, 1, 20, 1, 83, 1, 139, 8, 166, 1, 38, 9, 41, 2839, 38, 1, 1, 5, 1, 2, 43, 2, 3, 672, 86, 2, 6, 2178, 9, 7, 43,
  2, 3, 64, 192, 64, 278, 2, 6, 2, 38, 2, 6, 2, 8, 1, 1, 1, 1, 1, 1, 1, 31, 2, 53, 1, 7, 1, 1, 3, 3, 1, 7, 3, 4, 2, 6,
  4, 13, 5, 3, 1, 7, 116, 1, 13, 1, 16, 13, 101, 1, 4, 1, 2, 10, 1, 1, 3, 5, 6, 1, 1, 1, 1, 1, 1, 4, 1, 6, 4, 1, 2, 4,
  5, 5, 4, 1, 17, 32, 3, 2, 817, 52, 1814, 229, 6, 4, 3, 2, 12, 38, 1, 1, 5, 1, 30994, 46, 18, 30, 132, 102, 3, 4, 1,
  59, 5, 2, 1, 1, 1, 5, 27, 2, 1, 3, 821, 43, 1, 13, 7, 80, 20288, 7, 12, 5, 1033, 26, 6, 26, 1189, 80, 96, 36, 4, 36,
  116, 11, 1, 15, 1, 7, 1, 2, 1, 11, 1, 15, 1, 7, 1, 2, 451, 1, 2, 3, 1, 42, 1, 9, 1221, 51, 13, 51, 2989, 64, 21856,
  64, 25984, 85, 1, 71, 1, 2, 2, 1, 2, 2, 2, 4, 1, 12, 1, 1, 1, 7, 1, 65, 1, 4, 2, 8, 1, 7, 1, 28, 1, 4, 1, 5, 1, 1, 3,
  7, 1, 340, 2, 25, 1, 25, 1, 31, 1, 25, 1, 31, 1, 25, 1, 31, 1, 25, 1, 31, 1, 25, 1, 8, 1844, 10, 1, 20, 6, 6, 261, 62,
  2194, 68, 2028, 26, 6, 26, 6, 26]

/-- Cased characters above ASCII that are neither upper nor lower case. -/
def otherRuns : List Nat := [
  170, 1, 15, 1, 266, 1, 2, 1, 2, 1, 38, 1, 189, 9, 7, 2, 30, 5, 96, 1, 52, 1, 6577, 63, 13, 1, 34, 37, 456, 8, 8, 8, 8,
  8, 12, 1, 15, 1, 47, 1, 116, 1, 13, 1, 16, 13, 195, 32, 822, 52, 1938, 2, 31262, 2, 210, 1, 135, 2, 866, 4, 23584, 1,
  2, 3, 1, 42, 1, 9, 55413, 62, 4290, 26, 6, 26, 6, 26]

/-- Upper-case letters above ASCII without a lower-case form of their own. -/
def capitalRuns : List Nat := [
  304, 1, 673, 3, 7469, 1, 4, 1, 3, 3, 2, 3, 2, 1, 3, 5, 6, 1, 3, 1, 3, 2, 2, 2, 1, 1, 10, 2, 5, 1, 111290, 26, 26, 26,
  26, 26, 26, 1, 1, 2, 2, 1, 2, 2, 2, 4, 1, 8, 26, 26, 26, 2, 1, 4, 2, 8, 1, 7, 27, 2, 1, 4, 1, 5, 1, 1, 3, 7, 27, 26,
  26, 26, 26, 26, 26, 26, 26, 26, 26, 26, 30, 25, 33, 25, 33, 25, 33, 25, 33, 25, 33, 1]

/-- Runs above ASCII in which every character, or every second one, has a lower-case form at the distance given last. -/
def lowerShifts : List (Nat × Nat × Nat × Int) := [
  (192, 23, 1, 32), (1, 7, 1, 32), (33, 47, 2, 1), (3, 5, 2, 1), (2, 15, 2, 1), (2, 45, 2, 1), (1, 1, 1, -121),
  (0, 5, 2, 1), (3, 1, 1, 210), (0, 3, 2, 1), (1, 1, 1, 206), (0, 1, 1, 1), (1, 2, 1, 205), (0, 1, 1, 1), (2, 1, 1, 79),
  (0, 1, 1, 202), (0, 1, 1, 203), (0, 1, 1, 1), (1, 1, 1, 205), (0, 1, 1, 207), (1, 1, 1, 211), (0, 1, 1, 209),
  (0, 1, 1, 1), (3, 1, 1, 211), (0, 1, 1, 213), (1, 1, 1, 214), (0, 5, 2, 1), (1, 1, 1, 218), (0, 1, 1, 1),
  (1, 1, 1, 218), (2, 1, 1, 1), (1, 1, 1, 218), (0, 1, 1, 1), (1, 2, 1, 217), (0, 3, 2, 1), (1, 1, 1, 219),
  (0, 1, 1, 1), (3, 1, 1, 1), (7, 1, 1, 2), (0, 1, 1, 1), (1, 1, 1, 2), (0, 1, 1, 1), (1, 1, 1, 2), (0, 17, 2, 1),
  (2, 17, 2, 1), (2, 1, 1, 2), (0, 3, 2, 1), (1, 1, 1, -97), (0, 1, 1, -56), (0, 39, 2, 1), (1, 1, 1, -130),
  (1, 17, 2, 1), (7, 1, 1, 10795), (0, 1, 1, 1), (1, 1, 1, -163), (0, 1, 1, 10792), (2, 1, 1, 1), (1, 1, 1, -195),
  (0, 1, 1, 69), (0, 1, 1, 71), (0, 9, 2, 1), (289, 3, 2, 1), (3, 1, 1, 1), (8, 1, 1, 116), (6, 1, 1, 38),
  (1, 3, 1, 37), (1, 1, 1, 64), (1, 2, 1, 63), (1, 17, 1, 32), (1, 9, 1, 32), (35, 1, 1, 8), (8, 23, 2, 1),
  (5, 1, 1, -60), (2, 1, 1, 1), (1, 1, 1, -7), (0, 1, 1, 1), (2, 3, 1, -130), (0, 16, 1, 80), (0, 32, 1, 32),
  (48, 33, 2, 1), (9, 53, 2, 1), (1, 1, 1, 15), (0, 13, 2, 1), (2, 95, 2, 1), (2, 38, 1, 48), (2889, 38, 1, 7264),
  (1, 1, 1, 7264), (5, 1, 1, 7264), (722, 80, 1, 38864), (0, 6, 1, 8), (2202, 43, 1, -3008), (2, 3, 1, -3008),
  (320, 149, 2, 1), (9, 1, 1, -7615), (1, 95, 2, 1), (9, 8, 1, -8), (8, 6, 1, -8), (10, 8, 1, -8), (8, 8, 1, -8),
  (8, 6, 1, -8), (11, 7, 2, -8), (8, 8, 1, -8), (24, 8, 1, -8), (8, 8, 1, -8), (8, 8, 1, -8), (8, 2, 1, -8),
  (0, 2, 1, -74), (0, 1, 1, -9), (11, 4, 1, -86), (0, 1, 1, -9), (11, 2, 1, -8), (0, 2, 1, -100), (12, 2, 1, -8),
  (0, 2, 1, -112), (0, 1, 1, -7), (11, 2, 1, -128), (0, 2, 1, -126), (0, 1, 1, -9), (297, 1, 1, -7517),
  (3, 1, 1, -8383), (0, 1, 1, -8262), (6, 1, 1, 28), (45, 16, 1, 16), (19, 1, 1, 1), (818, 26, 1, 26),
  (1840, 48, 1, 48), (48, 1, 1, 1), (1, 1, 1, -10743), (0, 1, 1, -3814), (0, 1, 1, -10727), (2, 5, 2, 1),
  (1, 1, 1, -10780), (0, 1, 1, -10749), (0, 1, 1, -10783), (0, 1, 1, -10782), (1, 1, 1, 1), (2, 1, 1, 1),
  (8, 2, 1, -10815), (0, 99, 2, 1), (8, 3, 2, 1), (4, 1, 1, 1), (31053, 45, 2, 1), (19, 27, 2, 1), (135, 13, 2, 1),
  (3, 61, 2, 1), (10, 3, 2, 1), (1, 1, 1, -35332), (0, 9, 2, 1), (4, 1, 1, 1), (1, 1, 1, -42280), (2, 3, 2, 1),
  (3, 19, 2, 1), (1, 1, 1, -42308), (0, 1, 1, -42319), (0, 1, 1, -42315), (0, 1, 1, -42305), (0, 1, 1, -42308),
  (1, 1, 1, -42258), (0, 1, 1, -42282), (0, 1, 1, -42261), (0, 1, 1, 928), (0, 15, 2, 1), (1, 1, 1, -48),
  (0, 1, 1, -42307), (0, 1, 1, -35384), (0, 3, 2, 1), (6, 1, 1, 1), (5, 3, 2, 1), (28, 1, 1, 1), (22315, 26, 1, 32),
  (1221, 40, 1, 40), (136, 36, 1, 40), (156, 11, 1, 39), (1, 15, 1, 39), (1, 7, 1, 39), (1, 2, 1, 39),
  (1770, 51, 1, 64), (3053, 32, 1, 32), (21888, 32, 1, 32), (31392, 34, 1, 34)]

def isAscii (c : Char) : Bool := c.toNat < 0x80

/-- The lower-case form of a character above ASCII, if it is another one. -/
def lowerForm? (n : Nat) : Option Nat :=
  match findRun lowerShifts n with
  | some (k, step, shift) => if k % step = 0 then some ((n : Int) + shift).toNat else none
  | none => none

/-- Whether a letter above ASCII is a capital, if it is of one case. -/
def capital? (n : Nat) : Option Bool :=
  if inRuns casedRuns n && !inRuns otherRuns n then some ((lowerForm? n).isSome || inRuns capitalRuns n) else none

def isUpper (c : Char) : Bool := if isAscii c then c.isUpper else capital? c.toNat == some true

def isLower (c : Char) : Bool := if isAscii c then c.isLower else capital? c.toNat == some false

def isDigit (c : Char) : Bool := if isAscii c then c.isDigit else inRuns digitRuns c.toNat

/-- The lower-case form of a character. -/
def lowerChar (c : Char) : Char :=
  if isAscii c then c.toLower
  else if c = 'İ' then 'i'
  else
    match lowerForm? c.toNat with
    | some n => Char.ofNat n
    | none => c

end Flatwire.Text
