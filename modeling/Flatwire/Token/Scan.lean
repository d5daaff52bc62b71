import Flatwire.Source.SyntaxError

/-! Cutting source text into tokens. Each token is the longest one that starts where the last one ended. -/

namespace Flatwire.Token

def isDecimal (b : UInt8) : Bool := 0x30 ≤ b && b ≤ 0x39

def isLetter (b : UInt8) : Bool := (0x41 ≤ b && b ≤ 0x5A) || (0x61 ≤ b && b ≤ 0x7A)

def underscore : UInt8 := 0x5F

/-- Letters, digits and the underscore. -/
def isWord (b : UInt8) : Bool := isLetter b || isDecimal b || b == underscore

def digitValue? (b : UInt8) : Option Nat :=
  if isDecimal b then some (b.toNat - 0x30)
  else if 0x41 ≤ b && b ≤ 0x46 then some (b.toNat - 0x37)
  else if 0x61 ≤ b && b ≤ 0x66 then some (b.toNat - 0x57)
  else none

def isDigitOf (base : Nat) (b : UInt8) : Bool :=
  match digitValue? b with
  | some d => d < base
  | none => false

/-- The length of the run of blanks in front: spaces, tabs and no-break spaces. -/
def spaceLen : Bytes → Nat
  | [] => 0
  | 0xC2 :: 0xA0 :: r => spaceLen r + 2
  | b :: r => if b = 0x20 || b = 0x09 then spaceLen r + 1 else 0

def isLineEnd (b : UInt8) : Bool := b == 0x0A || b == 0x0D

def intForm : Bytes → IntForm
  | 0x30 :: b :: _ =>
    if b = 0x62 then .binary
    else if b = 0x6F then .octal
    else if b = 0x64 then .decimal
    else if b = 0x78 then .hex
    else .plain
  | _ => .plain

/-- Digits of the base with underscores strictly between them. -/
def wellFormedDigits (base : Nat) (ds : Bytes) : Bool :=
  ds.all (fun b => b == underscore || isDigitOf base b) &&
    !ds.isEmpty && ds.head? != some underscore && ds.getLast? != some underscore

/-- A token's kind and length, if it is not too long. -/
def ofLen (kind : Kind) (len : Nat) : Except SyntaxError.Cause (Kind × Nat) :=
  if maxTokenLen < len then .error (.tokenTooLong len) else .ok (kind, len)

/-- An integer literal takes the whole run of word characters; a malformed run is refused before a long one. -/
def scanInt (src : Bytes) : Except SyntaxError.Cause (Kind × Nat) :=
  let form := intForm src
  let run := src.takeWhile isWord
  if wellFormedDigits form.base (run.drop form.markLen) then ofLen (.int form) run.length
  else .error (.invalidInt run)

/-- The first character is no start of a token. -/
def refuse (b : UInt8) (src : Bytes) : SyntaxError.Cause :=
  if b < 0x20 || b = 0x7F then .controlChar b
  else
    match Utf8.first? src with
    | some (c, _) => .unexpectedChar c
    | none => .invalidUtf8

/-- Kind and length of the token at the start of a non-empty text. -/
def scan : Bytes → Except SyntaxError.Cause (Kind × Nat)
  | [] => .ok (.eof, 0)
  | b :: r =>
    if b = 0x20 || b = 0x09 || (b = 0xC2 && r.head? = some 0xA0) then ofLen .space (spaceLen (b :: r))
    else if b = 0x0A then .ok (.newline, 1)
    else if b = 0x0D then if r.head? = some 0x0A then .ok (.newline, 2) else .error (.controlChar b)
    else if b = 0x2F then
      if r.head? = some 0x2F then ofLen .comment ((b :: r).takeWhile (!isLineEnd ·)).length
      else .error (.unexpectedChar '/')
    else
      match Sigil.ofByte? b with
      | some s => .ok (.sigil s, 1)
      | none =>
        if isDecimal b then scanInt (b :: r)
        else if isWord b then ofLen .ident ((b :: r).takeWhile isWord).length
        else .error (refuse b (b :: r))

def errorLen : SyntaxError.Cause → Nat
  | .unexpectedChar c => c.utf8Size
  | .tokenTooLong len => min len 0xFFFFFFFF
  | .invalidInt text => text.length
  | _ => 1

/-- The tokens up to the end or to the first error, found `offset` bytes into the source. -/
def scanAll : Nat → Nat → Bytes → List Token × Option SyntaxError
  | 0, _, _ => ([], none)
  | _ + 1, _, [] => ([], none)
  | fuel + 1, offset, src =>
    match scan src with
    | .error cause => ([], some ⟨cause, ⟨offset, errorLen cause⟩⟩)
    | .ok (kind, len) =>
      let (ts, e) := scanAll fuel (offset + len) (src.drop len)
      (⟨kind, src.take len⟩ :: ts, e)

end Token

/-- A source cut into tokens: those in front of the end, or in front of the place where tokenizing failed. -/
structure TokenStream where
  tokens : List Token
  failure : Option SyntaxError
  offset : Nat
deriving DecidableEq, Repr

namespace TokenStream

/-- The bytes in front of the first place where no character, or the replacement character, starts. -/
def soundLen (bs : Bytes) : Nat :=
  ((Utf8.units bs).takeWhile fun
    | .char c => c != '�'
    | .bad _ => false).foldl (fun n u => n + u.toChar.utf8Size) 0

/-- Refuses sources that are too long or are not UTF-8 before any token is cut. -/
def ofSource (src : Bytes) : Except SyntaxError TokenStream :=
  if maxSourceLen < src.length then .error (.sourceTooLong src.length)
  else if !Utf8.valid src then .error ⟨.invalidUtf8, ⟨soundLen src, 1⟩⟩
  else
    let (tokens, failure) := Token.scanAll src.length 0 src
    .ok ⟨tokens, failure, 0⟩

/-- The token in front. At the end of the source it is an empty one; where tokenizing failed there is none. -/
def peek (ts : TokenStream) : Except SyntaxError Token :=
  match ts.tokens, ts.failure with
  | t :: _, _ => .ok t
  | [], some e => .error e
  | [], none => .ok ⟨.eof, []⟩

/-- The stream without its first token. -/
def advance (ts : TokenStream) : TokenStream :=
  match ts.tokens with
  | t :: rest => { ts with tokens := rest, offset := ts.offset + t.text.length }
  | [] => ts

end TokenStream

end Flatwire
