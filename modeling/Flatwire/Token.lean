import Flatwire.Bytes

/-! Tokens of schema source: the smallest pieces that the grammar speaks of, with blanks, line ends and comments kept
as tokens of their own. -/

namespace Flatwire

inductive Sigil where
  | colon | semicolon | equals | openCurl | closeCurl | openSquare | closeSquare
deriving DecidableEq, Repr

namespace Sigil

def byte : Sigil → UInt8
  | colon => 0x3A
  | semicolon => 0x3B
  | equals => 0x3D
  | openCurl => 0x7B
  | closeCurl => 0x7D
  | openSquare => 0x5B
  | closeSquare => 0x5D

def ofByte? (b : UInt8) : Option Sigil :=
  if b = 0x3A then some colon
  else if b = 0x3B then some semicolon
  else if b = 0x3D then some equals
  else if b = 0x7B then some openCurl
  else if b = 0x7D then some closeCurl
  else if b = 0x5B then some openSquare
  else if b = 0x5D then some closeSquare
  else none

def text (s : Sigil) : Bytes := [s.byte]

end Sigil

/-- How an integer literal is written: plain digits, or one of four bases named by two leading characters. -/
inductive IntForm where
  | plain | binary | octal | decimal | hex
deriving DecidableEq, Repr

def IntForm.base : IntForm → Nat
  | plain => 10
  | binary => 2
  | octal => 8
  | decimal => 10
  | hex => 16

def IntForm.markLen : IntForm → Nat
  | plain => 0
  | _ => 2

inductive Token.Kind where
  | eof | space | newline | comment
  | sigil (s : Sigil)
  | int (form : IntForm)
  | ident
deriving DecidableEq, Repr

namespace Token.Kind

def name : Token.Kind → String
  | eof => "EOF"
  | space => "SPACE"
  | newline => "NEWLINE"
  | comment => "COMMENT"
  | sigil .colon => "COLON"
  | sigil .semicolon => "SEMICOLON"
  | sigil .equals => "EQ"
  | sigil .openCurl => "OPEN_CURL"
  | sigil .closeCurl => "CLOSE_CURL"
  | sigil .openSquare => "OPEN_SQUARE"
  | sigil .closeSquare => "CLOSE_SQUARE"
  | int .plain => "INT_LIT"
  | int .binary => "BIN_INT_LIT"
  | int .octal => "OCT_INT_LIT"
  | int .decimal => "DEC_INT_LIT"
  | int .hex => "HEX_INT_LIT"
  | ident => "IDENT"

def all : List Token.Kind :=
  [eof, space, newline, comment,
    sigil .colon, sigil .semicolon, sigil .equals, sigil .openCurl, sigil .closeCurl, sigil .openSquare,
    sigil .closeSquare, int .plain, int .binary, int .octal, int .decimal, int .hex, ident]

def nameOfNumber (n : Nat) : Bytes :=
  match all[n]? with
  | some k => k.name
  | none => "TokenKind(" ++ Bytes.decimal n ++ ")"

def isTrivia : Token.Kind → Bool
  | space | newline | comment => true
  | _ => false

end Token.Kind

structure Token where
  kind : Token.Kind
  text : Bytes
deriving DecidableEq, Repr

end Flatwire
