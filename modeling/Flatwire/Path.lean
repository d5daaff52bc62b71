import Flatwire.Bytes

/-! File paths in clean form: no empty parts, no dots, and two dots only at the start. -/

namespace Flatwire

structure Path where
  rooted : Bool
  parts : List Bytes
deriving DecidableEq, Repr

namespace Path

def slash : UInt8 := 0x2F

/-- Goes on from a path, given with its parts in reverse, by one part. -/
def step (rooted : Bool) (back : List Bytes) (part : Bytes) : List Bytes :=
  if part = [] ∨ part = Bytes.ofString "." then back
  else if part = Bytes.ofString ".." then
    match back with
    | [] => if rooted then [] else [part]
    | p :: ps => if p = Bytes.ofString ".." then part :: back else ps
  else part :: back

/-- The clean form of a path, found without looking at any file. -/
def clean (bs : Bytes) : Path :=
  let rooted := bs.head? = some slash
  ⟨rooted, ((Bytes.splitOn slash bs).foldl (step rooted) []).reverse⟩

def text (p : Path) : Bytes :=
  let body := Bytes.join [slash] p.parts
  if p.rooted then slash :: body else if p.parts.isEmpty then "." else body

/-- The parts joined and cleaned; empty ones are left out. -/
def join (parts : List Bytes) : Path := clean (Bytes.join [slash] (parts.filter fun p => !p.isEmpty))

def parent (p : Path) : Path := { p with parts := p.parts.dropLast }

def chain (p : Path) : List Path := (List.range p.parts.length).map fun n => { p with parts := p.parts.take (n + 1) }

/-- The last part of a path as it is written, without cleaning; trailing slashes do not count. -/
def base (bs : Bytes) : Bytes :=
  let trimmed := (bs.reverse.dropWhile (· == slash)).reverse
  if bs.isEmpty then "." else if trimmed.isEmpty then [slash]
  else (trimmed.reverse.takeWhile (· != slash)).reverse

/-- The directory part of a path as it is written, in clean form. -/
def dir (bs : Bytes) : Bytes := (clean (bs.reverse.dropWhile (· != slash)).reverse).text

def extension (name : Bytes) : Bytes :=
  if name.contains 0x2E then 0x2E :: (name.reverse.takeWhile (· != 0x2E)).reverse else []

/-- The last part of a path without its extension. -/
def stem (bs : Bytes) : Bytes := Bytes.dropSuffix (extension (base bs)) (base bs)

end Path

end Flatwire
