import Flatwire.Schema
import Flatwire.Text.SnakeCase

/-! Names that a generator reserves for itself. A name of the schema may match none of them in snake case. -/

namespace Flatwire

inductive NamedThing where
  | enum | enumVariant | sequence | field | oneOfVariant
deriving DecidableEq, Repr

namespace NamedThing

def title : NamedThing → String
  | enum => "Enum"
  | enumVariant => "Enum variant"
  | sequence => "Sequence"
  | field => "Field"
  | oneOfVariant => "OneOf variant"

def titleOfNumber (n : Nat) : Bytes :=
  match [enum, enumVariant, sequence, field, oneOfVariant][n]? with
  | some t => t.title
  | none => "ReservedTarget(" ++ Bytes.decimal n ++ ")"

end NamedThing

structure SchemaName where
  thing : NamedThing
  path : List Bytes
deriving DecidableEq, Repr

def SchemaName.name (n : SchemaName) : Bytes := n.path.getLast?.getD []

structure ReservedName where
  name : SchemaName
  word : Bytes
deriving DecidableEq, Repr

def ReservedName.message (r : ReservedName) : Bytes :=
  r.name.thing.title ++ " `" ++ pathName r.name.path ++ "` matches reserved identifier `" ++ r.word ++ "`"

/-- What a search has found. There is nothing to tell if it has no end. -/
abbrev Search (α : Type) := Option (Option α)

/-- Goes on only after a search that has ended and found nothing. -/
def Search.orElse {α : Type} (first : Search α) (second : Unit → Search α) : Search α :=
  match first with
  | some none => second ()
  | found => found

def searchEach {α β : Type} (search : α → Search β) : List α → Search β
  | [] => some none
  | x :: xs => Search.orElse (search x) fun _ => searchEach search xs

section Reserved

variable (s : Schema) (word? : Bytes → Option Bytes)

def tryName (n : SchemaName) : Search ReservedName := some ((word? n.name).map fun w => ⟨n, w⟩)

/-- Looks at the names of the variants under a type. Types that lead back to themselves are gone through for ever, so a
search that goes deeper than there are types has no end. -/
def searchVariants : Nat → TypeId → List Bytes → Search ReservedName
  | 0, _, _ => none
  | depth + 1, id, path =>
    match s.type? id with
    | some (.list elem) => searchVariants depth elem path
    | some (.oneOf o) => searchEach (fun v => Search.orElse (tryName word? ⟨.oneOfVariant, path ++ [v.name]⟩) fun _ =>
        searchVariants depth v.type (path ++ [v.name])) o.variants
    | _ => some none

def searchEnum (e : EnumType) : Search ReservedName :=
  searchEach (tryName word?) (⟨.enum, [e.name]⟩ :: e.variants.map fun v => ⟨.enumVariant, [e.name, v.name]⟩)

def searchSequence (depth : Nat) (q : SequenceType) : Search ReservedName :=
  Search.orElse (tryName word? ⟨.sequence, [q.name]⟩) fun _ =>
    searchEach (fun f => Search.orElse (tryName word? ⟨.field, [q.name, f.name]⟩) fun _ =>
      searchVariants s word? depth f.type [q.name, f.name]) q.fields

def searchNames (depth : Nat) : Search ReservedName :=
  Search.orElse (searchEach (fun p => searchEnum word? p.2) s.enums) fun _ =>
    searchEach (fun p => searchSequence s word? depth p.2) s.sequences

end Reserved

def reservedWord? [Libraries] (keys : List (Bytes × Bytes)) (name : Bytes) : Option Bytes :=
  let key := Text.snakeCase name
  (keys.find? fun k => k.1 = key).map (·.2)

/-- The first name that matches a reserved word, as it is looked for; without words nothing is looked at. -/
def Schema.checkReserved? [Libraries] (s : Schema) (words : List Bytes) : Search ReservedName :=
  let keys := words.map fun w => (Text.snakeCase w, w)
  if keys.isEmpty then some none else searchNames s (reservedWord? keys) (s.types.size + 1)

end Flatwire
