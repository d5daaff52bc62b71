import Flatwire.Libraries
import Flatwire.Text.Quoted
import Flatwire.Text.Space

/-! Reading of small configuration files: indented mappings and lists, lists in brackets, and scalars on one line. -/

namespace Flatwire.Stock.Settings

/-- A document; each part of it has the number of its line. Null has no text. -/
inductive Node where
  | scalar (line : Nat) (text : Option Bytes) (quoted : Bool)
  | list (line : Nat) (items : List Node)
  | map (line : Nat) (entries : List (Nat × Bytes × Node))

structure Line where
  number : Nat
  indent : Nat
  text : Bytes

/-! ### Scalars and flow values -/

def isBlank (b : UInt8) : Bool := b == 0x20 || b == 0x09 || b == 0x0D

def trim (bs : Bytes) : Bytes := ((bs.dropWhile isBlank).reverse.dropWhile isBlank).reverse

def escaped (b : UInt8) : UInt8 :=
  if b = 0x6E then 0x0A else if b = 0x74 then 0x09 else if b = 0x72 then 0x0D else if b = 0x30 then 0 else b

/-- The text up to the closing quote, and what follows it. -/
def quoted? (quote : UInt8) : Bytes → Option (Bytes × Bytes)
  | [] => none
  | b :: c :: rest =>
    if quote = 0x22 && b = 0x5C then (quoted? quote rest).map fun (t, r) => (escaped c :: t, r)
    else if quote = 0x27 && b = 0x27 && c = 0x27 then (quoted? quote rest).map fun (t, r) => (0x27 :: t, r)
    else if b = quote then some ([], c :: rest)
    else (quoted? quote (c :: rest)).map fun (t, r) => (b :: t, r)
  | [b] => if b = quote then some ([], []) else none

/-- A plain scalar; the words for null have no text. -/
def plain (text : Bytes) : Option Bytes :=
  if text.isEmpty || text = [0x7E] || ["null", "Null", "NULL"].any (text = Bytes.ofString ·) then none else some text

def endsFlow (b : UInt8) : Bool := b == 0x2C || b == 0x5B || b == 0x5D || b == 0x7B || b == 0x7D

/-- A key with what follows its colon. -/
def splitKey? : Bytes → Option (Bytes × Bytes)
  | [] => none
  | [b] => if b = 0x3A then some ([], []) else none
  | b :: c :: rest =>
    if b = 0x3A && isBlank c then some ([], trim rest)
    else (splitKey? (c :: rest)).map fun (key, value) => (b :: key, value)

mutual

/-- A value inside brackets, and what follows it. -/
def flow : Nat → Nat → Bytes → Option (Node × Bytes)
  | 0, _, _ => none
  | fuel + 1, line, text =>
    match text.dropWhile isBlank with
    | 0x5B :: rest => (flowItems fuel line 0x5D rest).map fun (es, r) => (.list line (es.map (·.2.2)), r)
    | 0x7B :: rest => (flowItems fuel line 0x7D rest).map fun (es, r) => (.map line es, r)
    | rest@(b :: more) =>
      if b = 0x22 || b = 0x27 then (quoted? b more).map fun (t, r) => (.scalar line (some t) true, r)
      else
        let word := rest.takeWhile (! endsFlow ·)
        let own := ((splitKey? word).map (·.1)).getD word
        some (.scalar line (plain (trim own)) false, rest.drop own.length)
    | [] => none

/-- The entries up to a closing bracket; those of a list have empty keys. -/
def flowItems : Nat → Nat → UInt8 → Bytes → Option (List (Nat × Bytes × Node) × Bytes)
  | 0, _, _, _ => none
  | fuel + 1, line, close, text =>
    match text.dropWhile isBlank with
    | [] => none
    | b :: rest =>
      if b = close then some ([], rest)
      else if b = 0x2C then flowItems fuel line close rest
      else do
        let (first, rest) ← flow fuel line (b :: rest)
        match first, rest.dropWhile isBlank with
        | .scalar _ key _, 0x3A :: after =>
          let (value, rest) ← if (after.dropWhile isBlank).head?.all (fun c => c == close || c == 0x2C)
            then some (.scalar line none false, after) else flow fuel line after
          let (es, rest) ← flowItems fuel line close rest
          return ((line, key.getD [], value) :: es, rest)
        | _, _ =>
          let (es, rest) ← flowItems fuel line close rest
          return ((line, [], first) :: es, rest)

end

/-! ### Documents -/

/-- A line without its comment; the flag holds behind a blank, where comments and quotes may start. -/
def uncommented : Bool → Option UInt8 → Bytes → Bytes
  | _, _, [] => []
  | fresh, none, b :: bs =>
    if fresh && b = 0x23 then []
    else b :: uncommented (isBlank b || endsFlow b) (if fresh && (b = 0x22 || b = 0x27) then some b else none) bs
  | _, some q, b :: bs =>
    match bs with
    | c :: cs =>
      if q = 0x22 && b = 0x5C then b :: c :: uncommented false (some q) cs
      else b :: uncommented false (if b = q then none else some q) (c :: cs)
    | [] => [b]

def lines (content : Bytes) : List Line :=
  ((Bytes.splitOn 0x0A content).zipIdx 1).filterMap fun (text, number) =>
    let body := trim (uncommented true none text)
    if body.isEmpty || body = Bytes.ofString "---" then none
    else some ⟨number, (text.takeWhile (· == 0x20)).length, body⟩

/-- The key that opens a line, quoted or plain, with what follows its colon. -/
def keyed? (text : Bytes) : Option (Bytes × Bytes) :=
  match text with
  | b :: rest =>
    if b = 0x22 || b = 0x27 then (quoted? b rest).bind fun (key, after) =>
      (splitKey? (after.dropWhile isBlank)).bind fun (gap, value) => if gap.isEmpty then some (key, value) else none
    else if endsFlow b then none
    else (splitKey? text).map fun (key, value) => (trim key, value)
  | [] => none

def item? (text : Bytes) : Option Bytes :=
  match text with
  | b :: rest => if b = 0x2D && rest.head?.all isBlank then some (trim rest) else none
  | [] => none

def problem (line : Nat) (text : String) : Bytes :=
  let place : Bytes := if line = 0 then [] else "line " ++ Bytes.decimal line ++ ": "
  "yaml: " ++ place ++ text

/-- A value that starts on its key's line and takes the deeper lines below it. -/
def inline (depth line : Nat) (text : Bytes) : List Line → Except Bytes (Node × List Line)
  | [] => whole []
  | next :: ls =>
    if closed text || next.indent < depth then whole (next :: ls)
    else if isPlain && (keyed? next.text).isSome then
      .error (problem next.number "mapping values are not allowed in this context")
    else inline depth line (text ++ 0x20 :: next.text) ls
where
  isPlain : Bool := text.head?.all fun b => ! (endsFlow b || b = 0x22 || b = 0x27)
  closed (text : Bytes) : Bool := ! isPlain && (flow (2 * text.length + 2) line text).isSome
  whole (rest : List Line) : Except Bytes (Node × List Line) :=
    if isPlain then
      if (splitKey? text).isSome then .error (problem line "mapping values are not allowed in this context")
      else .ok (.scalar line (plain text) false, rest)
    else match flow (2 * text.length + 2) line text with
      | some (node, behind) =>
        if behind.all isBlank then .ok (node, rest) else .error (problem (line - 1) "did not find expected key")
      | none => .error (problem (line - 1) "did not find expected ',' or ']'")

/-- A block, and the lines behind it. -/
def block : Nat → List Line → Except Bytes (Node × List Line)
  | 0, ls => .ok (.scalar 0 none false, ls)
  | _, [] => .ok (.scalar 0 none false, [])
  | fuel + 1, l :: ls => do
    let nested (within : Line → Bool) (rest : List Line) : Except Bytes (Node × List Line) :=
      if rest.head?.any within then block fuel rest else .ok (.scalar l.number none false, rest)
    let others (same : Line → Bool) (missing : String) (rest : List Line) : Except Bytes (Option Node × List Line) :=
      match rest with
      | next :: _ =>
        if next.indent > l.indent then .error (problem next.number missing)
        else if next.indent = l.indent && ! same next then .error (problem next.number "could not find expected ':'")
        else if next.indent = l.indent then (block fuel rest).map fun (node, rest) => (some node, rest)
        else .ok (none, rest)
      | [] => .ok (none, [])
    match item? l.text, keyed? l.text with
    | some text, _ =>
      let (first, rest) ← if text.isEmpty then nested (·.indent > l.indent) ls
        else if (item? text).isNone && (keyed? text).isNone then inline (l.indent + 1) l.number text ls
        else block fuel (⟨l.number, l.indent + 2, text⟩ :: ls)
      -- a list may stand as deep as its key, and then ends where the next key starts
      let ended := rest.head?.any fun n => n.indent = l.indent && (item? n.text).isNone
      let (more, rest) ← if ended then .ok (none, rest)
        else others (fun n => (item? n.text).isSome) "did not find expected '-' indicator" rest
      return (.list l.number (first :: match more with
        | some (.list _ items) => items
        | _ => []), rest)
    | none, some (key, text) =>
      let (value, rest) ← if text.isEmpty then
          nested (fun n => n.indent > l.indent || (n.indent = l.indent && (item? n.text).isSome)) ls
        else inline (l.indent + 1) l.number text ls
      let (more, rest) ← others (fun n => (keyed? n.text).isSome) "did not find expected key" rest
      return (.map l.number ((l.number, key, value) :: match more with
        | some (.map _ entries) => entries
        | _ => []), rest)
    | none, none => inline l.indent l.number l.text ls

/-! ### Settings -/

/-- Reading goes on after a mistake. -/
abbrev Reading := StateM (List Bytes)

def mistaken {α : Type} (line : Nat) (message : Bytes) (a : α) : Reading α := do
  modify (· ++ ["line " ++ Bytes.decimal line ++ ": " ++ message])
  return a

def scalarTag (text : Bytes) (quoted : Bool) : Bytes :=
  let isDigit (b : UInt8) : Bool := 0x30 ≤ b && b ≤ 0x39
  if quoted then "!!str"
  else if text.all isDigit then "!!int"
  else if ["true", "True", "TRUE", "false", "False", "FALSE"].any (text = Bytes.ofString ·) then "!!bool"
  else if text.any isDigit && text.all (fun b => isDigit b || b == 0x2E) && text.count 0x2E = 1 then "!!float"
  else "!!str"

def misshapen {α : Type} (zero : α) (target : String) : Node → Reading α
  | .scalar _ none _ => return zero
  | .scalar line (some text) quoted =>
    let excerpt := if text.length > 10 then text.take 7 ++ "..." else text
    mistaken line ("cannot unmarshal " ++ scalarTag text quoted ++ " `" ++ excerpt ++ "` into " ++ target) zero
  | .list line _ => mistaken line ("cannot unmarshal !!seq into " ++ target) zero
  | .map line _ => mistaken line ("cannot unmarshal !!map into " ++ target) zero

def readText : Node → Reading (Option Bytes)
  | .scalar _ text _ => return text
  | n => misshapen none "string" n

def readTexts : Node → Reading (List Bytes)
  | .list _ items => do return (← items.mapM readText).filterMap id
  | n => misshapen [] "[]string" n

/-- Reads the entries of a mapping, of which each key may stand once. -/
def readMap {α : Type} (target : String) (entry : Nat → Bytes → Node → α → Reading α) (zero : α) : Node → Reading α
  | .map _ entries => do
    let rec repeated : List (Nat × Bytes × Node) → List (Nat × Bytes × Nat)
      | [] => []
      | (first, key, _) :: es =>
        (es.filter fun e => e.2.1 = key).map (fun e => (e.1, key, first)) ++ repeated es
    match repeated entries with
    | [] => entries.foldlM (fun a e => entry e.1 e.2.1 e.2.2 a) zero
    | twice => twice.foldlM (fun a (line, key, first) => mistaken line
        ("mapping key " ++ Text.quote key ++ " already defined at line " ++ Bytes.decimal first) a) zero
  | n => misshapen zero target n

def unknown {α : Type} (line : Nat) (key : Bytes) (owner : String) (a : α) : Reading α :=
  mistaken line ("field " ++ key ++ " not found in type " ++ owner) a

def readGenerator (n : Node) : Reading (List Bytes) :=
  readMap "main.generatorConfig" (fun line key v args =>
    if key = Bytes.ofString "args" then readTexts v else unknown line key "main.generatorConfig" args) [] n

def readGenerators (n : Node) : Reading (List (Bytes × List Bytes)) :=
  readMap "map[string]main.generatorConfig" (fun _ key v gs => do return (key, ← readGenerator v) :: gs) [] n

def readSettings (n : Node) : Reading Config :=
  readMap "main.config" (fun line key v c => do
    if key = Bytes.ofString "srcdir" then return { c with srcDir := (← readText v).getD [] }
    else if key = Bytes.ofString "dstdir" then return { c with dstDir := (← readText v).getD [] }
    else if key = Bytes.ofString "color" then return { c with color := (← readText v).getD [] }
    else if key = Bytes.ofString "libs" then return { c with libs := ← readTexts v }
    else if key = Bytes.ofString "generators" then return { c with generators := ← readGenerators v }
    else unknown line key "main.config" c) {} n

def read (content : Except Bytes Bytes) : Except Bytes Config :=
  match content with
  | .error e => .error ("yaml: input error: " ++ e)
  | .ok content =>
    let ls := lines content
    match block (3 * content.length + 3) ls with
    | .error e => .error e
    | .ok (node, _) =>
      match (readSettings node).run [] with
      | (c, []) => .ok c
      | (_, ms) => .error ("yaml: unmarshal errors:\n  " ++ Bytes.join "\n  " ms)

end Flatwire.Stock.Settings
