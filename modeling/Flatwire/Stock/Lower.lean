import Flatwire.Text.Case

/-! Lower case of whole texts. Inside a word a capital sigma becomes the small sigma, at the end of it the final one. A
text is lowered in passes over windows of bounded size, and no pass knows of the letters before its window: a sigma at
the start of a window begins a word. -/

namespace Flatwire.Stock

open Text (inRuns isAscii casedRuns)

/-- Case-ignorable characters above ASCII. -/
def ignorableRuns : List Nat := [
  168, 1, 4, 1, 1, 1, 4, 1, 2, 2, 503, 192, 4, 2, 4, 1, 9, 2, 1, 1, 251, 7, 207, 1, 5, 1, 49, 45, 1, 1, 1, 2, 1, 2, 1,
  1, 44, 1, 11, 6, 10, 11, 1, 1, 35, 1, 10, 21, 16, 1, 101, 8, 1, 10, 1, 4, 33, 1, 1, 1, 30, 27, 91, 11, 58, 11, 4, 1,
  2, 1, 24, 24, 43, 3, 44, 1, 7, 2, 6, 8, 41, 58, 55, 1, 1, 1, 4, 8, 4, 1, 3, 7, 10, 2, 13, 1, 15, 1, 58, 1, 4, 4, 8, 1,
  20, 2, 26, 1, 2, 2, 57, 1, 4, 2, 4, 2, 2, 3, 3, 1, 30, 2, 3, 1, 11, 2, 57, 1, 4, 5, 1, 2, 4, 1, 20, 2, 22, 6, 1, 1,
  58, 1, 2, 1, 1, 4, 8, 1, 7, 2, 11, 2, 30, 1, 61, 1, 12, 1, 50, 1, 3, 1, 55, 1, 1, 3, 5, 3, 1, 4, 7, 2, 11, 2, 29, 1,
  58, 1, 2, 1, 6, 1, 5, 2, 20, 2, 28, 2, 57, 2, 4, 4, 8, 1, 20, 2, 29, 1, 72, 1, 7, 3, 1, 1, 90, 1, 2, 7, 11, 9, 98, 1,
  2, 9, 9, 1, 1, 7, 73, 2, 27, 1, 1, 1, 1, 1, 55, 14, 1, 5, 1, 2, 5, 11, 1, 36, 9, 1, 102, 4, 1, 6, 1, 2, 2, 2, 25, 2,
  4, 3, 16, 4, 13, 1, 2, 2, 6, 1, 15, 1, 94, 1, 608, 3, 946, 3, 29, 2, 30, 2, 30, 2, 64, 2, 1, 7, 8, 1, 2, 11, 3, 1, 5,
  1, 45, 5, 51, 1, 65, 2, 34, 1, 118, 3, 4, 2, 9, 1, 6, 3, 219, 2, 2, 1, 58, 1, 1, 7, 1, 1, 1, 1, 2, 8, 6, 10, 2, 1, 39,
  1, 8, 31, 49, 4, 48, 1, 1, 5, 1, 1, 5, 1, 40, 9, 12, 2, 32, 4, 2, 2, 1, 3, 56, 1, 1, 2, 3, 1, 1, 3, 58, 8, 2, 2, 64,
  6, 82, 3, 1, 13, 1, 7, 4, 1, 6, 1, 3, 2, 50, 63, 13, 1, 34, 101, 445, 1, 1, 3, 11, 3, 13, 3, 13, 3, 13, 2, 12, 5, 8,
  2, 10, 1, 2, 1, 2, 5, 49, 5, 1, 10, 1, 1, 13, 1, 16, 13, 51, 33, 2955, 2, 113, 3, 125, 1, 15, 1, 96, 32, 47, 1, 469,
  1, 36, 4, 3, 5, 5, 1, 93, 6, 93, 3, 28438, 1, 1250, 6, 270, 1, 98, 4, 1, 10, 1, 1, 28, 4, 80, 2, 14, 34, 78, 1, 23, 3,
  103, 3, 3, 2, 8, 1, 3, 1, 4, 1, 25, 2, 5, 1, 151, 2, 26, 18, 13, 1, 38, 8, 25, 11, 46, 3, 48, 1, 2, 4, 2, 2, 17, 1,
  21, 2, 66, 6, 2, 2, 2, 2, 12, 1, 8, 1, 35, 1, 11, 1, 51, 1, 1, 3, 2, 2, 5, 2, 1, 1, 27, 1, 14, 2, 5, 2, 1, 1, 100, 5,
  9, 3, 121, 1, 2, 1, 4, 1, 20272, 1, 147, 17, 573, 16, 3, 1, 12, 16, 34, 1, 2, 1, 169, 1, 7, 1, 6, 1, 11, 1, 35, 1, 1,
  1, 47, 1, 45, 2, 67, 1, 21, 3, 513, 1, 226, 1, 149, 5, 1029, 6, 1, 42, 1, 9, 582, 3, 1, 2, 5, 4, 40, 3, 4, 1, 165, 2,
  573, 4, 387, 2, 80, 3, 70, 11, 49, 4, 123, 1, 54, 15, 41, 1, 2, 2, 10, 3, 49, 4, 2, 2, 2, 1, 4, 1, 10, 1, 50, 3, 36,
  5, 1, 8, 62, 1, 12, 2, 52, 9, 10, 4, 2, 1, 95, 3, 2, 1, 1, 2, 6, 1, 2, 1, 157, 1, 3, 8, 21, 2, 57, 2, 3, 1, 37, 7, 3,
  5, 195, 8, 2, 3, 1, 1, 23, 1, 84, 6, 1, 1, 4, 2, 1, 2, 238, 4, 6, 2, 1, 2, 27, 2, 85, 8, 2, 1, 1, 2, 106, 1, 1, 1, 2,
  6, 1, 1, 101, 3, 2, 4, 1, 5, 259, 9, 1, 2, 256, 2, 1, 1, 4, 1, 144, 4, 2, 2, 4, 1, 32, 10, 40, 6, 2, 4, 8, 1, 9, 6, 2,
  3, 46, 13, 1, 2, 406, 7, 1, 6, 1, 1, 82, 22, 2, 7, 1, 2, 1, 2, 122, 6, 3, 1, 1, 2, 1, 7, 1, 1, 72, 2, 3, 1, 1, 1, 347,
  2, 11, 2, 52, 5, 5, 1, 1, 1, 5357, 17, 6, 15, 13978, 5, 59, 7, 9, 4, 1035, 1, 63, 17, 64, 2, 1, 2, 16395, 4, 1, 7, 1,
  2, 3230, 2, 1, 4, 4700, 46, 2, 23, 544, 3, 9, 16, 2, 7, 30, 4, 148, 3, 1979, 55, 4, 50, 8, 1, 14, 1, 22, 5, 1, 15,
  1360, 7, 1, 17, 2, 7, 1, 2, 1, 5, 5, 62, 33, 1, 160, 14, 368, 1, 61, 4, 507, 5, 992, 7, 109, 8, 2735, 5, 789505, 1,
  30, 96, 128, 240]

def isCased (c : Char) : Bool := if isAscii c then c.isAlpha else inRuns casedRuns c.toNat

def isIgnorable (c : Char) : Bool :=
  if isAscii c then ['\'', '.', ':', '^', '`'].contains c else inRuns ignorableRuns c.toNat

/-- The lower-case form of one character, without regard to its neighbours. One capital becomes two characters. -/
def lowered (c : Char) : List Char := if c = 'İ' then ['i', '̇'] else [Text.lowerChar c]

/-- The bytes of a text in UTF-8. -/
def textSize (cs : List Char) : Nat := cs.foldl (fun n c => n + c.utf8Size) 0

/-! ### Sigmas -/

/-- The search for the end of a sigma's word goes on for so many characters. -/
def sigmaReach : Nat := 31

def passedOver (cs : List Char) : List Char := (cs.take sigmaReach).takeWhile isIgnorable

/-- The lower-case form of a capital sigma after a cased letter: the final one, unless the search meets another cased
letter. -/
def sigmaForm (cs : List Char) : Char :=
  match (cs.take sigmaReach).dropWhile isIgnorable with
  | c :: _ => if isCased c then 'σ' else 'ς'
  | [] => 'ς'

/-- Whether the search comes to an end in the window; in the last one it always does. -/
def sigmaSettled (last : Bool) (cs : List Char) : Bool :=
  last || sigmaReach ≤ cs.length || (passedOver cs).length < cs.length

/-! ### Passes -/

structure Pass where
  lowered : List Char
  rest : List Char
  full : Bool

/-- Lowers a window into `room` bytes; `inWord` tells whether a cased letter came before in the same word. A sigma is
left if there is no room for it and for what the search passes over, or if its form is not settled in the window. -/
def lowerPass (last : Bool) : Bool → Nat → List Char → Pass
  | _, _, [] => ⟨[], [], false⟩
  | inWord, room, c :: cs =>
    let isSigma := inWord && c == 'Σ'
    let form := if isSigma then [sigmaForm cs] else lowered c
    if room < textSize form + (if isSigma then textSize (passedOver cs) else 0) then ⟨[], c :: cs, true⟩
    else if isSigma && !sigmaSettled last cs then ⟨[], c :: cs, false⟩
    else
      let p := lowerPass last (isCased c || (inWord && isIgnorable c)) (room - textSize form) cs
      { p with lowered := form ++ p.lowered }

def windowSize : Nat := 128

/-- The characters that lie within the first `n` bytes, and the others. -/
def splitAtSize : Nat → List Char → List Char × List Char
  | _, [] => ([], [])
  | n, c :: cs =>
    if n < c.utf8Size then ([], c :: cs)
    else
      let (window, beyond) := splitAtSize (n - c.utf8Size) cs
      (c :: window, beyond)

/-! ### Output -/

structure Output where
  /-- The bytes that it may have; nothing as long as the text is its own lower case, for then no output is kept. -/
  size : Option Nat
  used : Nat

namespace Output

def grown (size : Nat) : Nat := if size ≤ 256 then 2 * size else size + size / 2

/-- The output with room for at least one more character. -/
def enlarged (o : Output) (c : Char) : Output :=
  { o with size := o.size.map fun n => if n - o.used < textSize (lowered c) then grown n else n }

def room (o : Output) : Nat :=
  match o.size with
  | none => windowSize
  | some n => n - o.used

/-- The output after a pass that took the given characters of a text of `total` bytes. -/
def after (o : Output) (total : Nat) (taken : List Char) (p : Pass) : Output :=
  let used := o.used + textSize p.lowered
  let size := match o.size with
    | some n => some n
    | none =>
      if p.lowered = taken ∧ !p.full then none
      else some (if used ≤ windowSize then windowSize else total - textSize taken + textSize p.lowered)
  ⟨size, used⟩

end Output

/-- Lowers what is left of a text of `total` bytes. Every pass takes a character, so fuel for all of them suffices. -/
def lowerFrom (total : Nat) : Nat → Output → List Char → List Char
  | 0, _, _ => []
  | _, _, [] => []
  | fuel + 1, o, c :: cs =>
    let o := o.enlarged c
    let (window, beyond) := splitAtSize windowSize (c :: cs)
    let p := lowerPass beyond.isEmpty false o.room window
    let taken := window.take (window.length - p.rest.length)
    p.lowered ++ lowerFrom total fuel (o.after total taken p) (p.rest ++ beyond)

def lower (cs : List Char) : List Char := lowerFrom (textSize cs) cs.length ⟨none, 0⟩ cs

end Flatwire.Stock
