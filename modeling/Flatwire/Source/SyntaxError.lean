import Flatwire.Source.Span
import Flatwire.Text.Quoted
import Flatwire.Token

/-! Why a source text is refused by the tokenizer or the parser. Codes below 2000 belong to the tokenizer. -/

namespace Flatwire

/-- The most bytes that a source may have. -/
def maxSourceLen : Nat := 0x7FFFFFFF

/-- The most bytes that a token may have. -/
def maxTokenLen : Nat := 0xFFFF

namespace SyntaxError

inductive Cause where
  | sourceTooLong (len : Nat)
  | invalidUtf8
  | unexpectedChar (c : Char)
  | controlChar (b : UInt8)
  | tokenTooLong (len : Nat)
  | invalidInt (text : Bytes)
  | expectedSigil (want : Sigil) (got : Token)
  | expectedInt (got : Token)
  | expectedIdent (got : Token)
  | expectedDecl (got : Token)
  | unknownDecl (text : Bytes)
  | expectedType (got : Token)
  | intTooLarge
deriving DecidableEq, Repr

def Cause.code : Cause → Nat
  | sourceTooLong _ => 1000
  | invalidUtf8 => 1001
  | unexpectedChar _ => 1002
  | controlChar _ => 1003
  | tokenTooLong _ => 1004
  | invalidInt _ => 1005
  | expectedSigil .colon _ => 2000
  | expectedSigil .semicolon _ => 2001
  | expectedSigil .equals _ => 2002
  | expectedSigil .openCurl _ => 2003
  | expectedSigil .closeCurl _ => 2004
  | expectedSigil .openSquare _ => 2005
  | expectedSigil .closeSquare _ => 2006
  | expectedInt _ => 2007
  | expectedIdent _ => 2008
  | expectedDecl _ => 2009
  | unknownDecl _ => 2010
  | expectedType _ => 2011
  | intTooLarge => 2012

/-- A token as messages show it: its kind and its quoted text. -/
def got (t : Token) : Bytes := "got (" ++ t.kind.name ++ " " ++ Text.quote t.text ++ ")"

def Cause.message : Cause → Bytes
  | sourceTooLong len =>
    "Source file size (" ++ Bytes.decimal len ++ " bytes) exceeds maximum (" ++ Bytes.decimal maxSourceLen ++ " bytes)"
  | invalidUtf8 => "Source file contains invalid UTF-8"
  | unexpectedChar c =>
    "Unexpected character '" ++ Bytes.ofString (String.singleton c) ++ "' (" ++ Text.codePoint c.toNat ++ ")"
  | controlChar b => "Forbidden control character " ++ Text.codePoint b.toNat
  | tokenTooLong len =>
    "Token size (" ++ Bytes.decimal len ++ " bytes) exceeds maximum (" ++ Bytes.decimal maxTokenLen ++ " bytes)"
  | invalidInt text => "Invalid integer literal " ++ Text.quote text
  | expectedSigil want t => "Expected sigil '" ++ want.text ++ "', " ++ got t
  | expectedInt t => "Expected integer literal, " ++ got t
  | expectedIdent t => "Expected identifier, " ++ got t
  | expectedDecl t => "Expected declaration keyword, " ++ got t
  | unknownDecl text => "Unknown declaration keyword " ++ Text.quote text
  | expectedType t => "Expected type, " ++ got t
  | intTooLarge => "Integer literal too large (must be <= 18446744073709551615)"

end SyntaxError

structure SyntaxError where
  cause : SyntaxError.Cause
  span : Span
deriving DecidableEq, Repr

namespace SyntaxError

def code (e : SyntaxError) : Nat := e.cause.code

def message (e : SyntaxError) : Bytes := e.cause.message

def line (e : SyntaxError) : Bytes := "E" ++ Bytes.decimal e.code ++ ": " ++ e.message

/-- A source that is too long is refused by its length alone. -/
def sourceTooLong (len : Nat) : SyntaxError := ⟨.sourceTooLong len, ⟨0, min len 0xFFFFFFFF⟩⟩

end SyntaxError

end Flatwire
