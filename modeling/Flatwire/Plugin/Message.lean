import Flatwire.Schema.Json
import Flatwire.Text.Base64

/-! Messages between the compiler and a plugin. A message is its own length in four bytes, little-endian and counting
itself, and then a JSON document. -/

namespace Flatwire.Plugin

structure Params where
  fileName : Bytes := []
  destDir : Bytes := []
  args : Option (List Bytes) := none
deriving DecidableEq, Repr

structure Request where
  schema : Option Schema := none
  params : Params := {}

structure ResponseFile where
  path : Option (List Bytes) := none
  content : Option Bytes := none
deriving DecidableEq, Repr

structure Response where
  error : Bytes := []
  files : Option (List ResponseFile) := none
  reserved : Option (List Bytes) := none
deriving DecidableEq, Repr

inductive MessageError where
  | truncated
  | badLength (n : Nat)
  | wrongLength (n actual : Nat)
  | body (e : SchemaJson.Failure)
deriving DecidableEq, Repr

def MessageError.message (e : MessageError) : Bytes :=
  "wasmproto: " ++
    match e with
    | truncated => "truncated message header"
    | badLength n => "invalid message length " ++ Bytes.decimal n
    | wrongLength n actual => "message header says " ++ Bytes.decimal n ++ " bytes, have " ++ Bytes.decimal actual
    | body e => e.message

/-! ### Framing -/

def headerSize : Nat := 4

/-- The header has no more room for the length of a message. -/
def maxMessage : Nat := 4294967295

def frame (body : Bytes) : Bytes := Bytes.ofNat headerSize (headerSize + body.length) ++ body

def messageLength (header : Bytes) : Except MessageError Nat :=
  if header.length < headerSize then .error .truncated
  else
    let n := Bytes.toNat (header.take headerSize)
    if n < headerSize then .error (.badLength n) else .ok n

/-- The body of a message, which must be as long as its header says. -/
def unframe (message : Bytes) : Except MessageError Bytes :=
  match messageLength message with
  | .error e => .error e
  | .ok n => if n = message.length then .ok (message.drop headerSize) else .error (.wrongLength n message.length)

def unframeJson (message : Bytes) : Except MessageError Json :=
  match unframe message with
  | .error e => .error e
  | .ok body =>
    match Json.parse? body with
    | none => .error (.body .misfit)
    | some j => .ok j

/-! ### Documents -/

open SchemaJson Json

def optionalTexts : Option (List Bytes) → Json
  | none => .null
  | some ts => texts ts

def Params.toJson (p : Params) : Json :=
  .obj (member "file_name" (.str p.fileName) ++ member "dest_dir" (.str p.destDir) ++
    member "args" (optionalTexts p.args))

def Request.toJson (r : Request) : Json :=
  let schema := match r.schema with
    | none => []
    | some s => member "schema" s.toJson
  .obj (schema ++ member "params" r.params.toJson)

def contentJson : Option Bytes → Json
  | none => .null
  | some bs => .str (Base64.encode bs)

def ResponseFile.toJson (f : ResponseFile) : Json :=
  .obj (member "path" (optionalTexts f.path) ++ member "content" (contentJson f.content))

def Response.toJson (r : Response) : Json :=
  let files := r.files.getD []
  let reserved := r.reserved.getD []
  .obj (memberUnless r.error.isEmpty "error" (.str r.error) ++
    memberUnless files.isEmpty "files" (.arr (files.map ResponseFile.toJson)) ++
    memberUnless reserved.isEmpty "reserved" (texts reserved))

/-! ### Reading

Records as they stand in a document, with what a key that comes again is read over. -/

structure RawParams where
  fileName : Bytes := []
  destDir : Bytes := []
  args : Items Bytes := {}

def RawParams.toParams (p : RawParams) : Params := ⟨p.fileName, p.destDir, p.args.given⟩

structure RawFile where
  path : Items Bytes := {}
  content : Items UInt8 := {}

def RawFile.toFile (f : RawFile) : ResponseFile := ⟨f.path.given, f.content.given⟩

structure RawResponse where
  error : Bytes := []
  files : Items RawFile := {}
  reserved : Items Bytes := {}

def RawResponse.toResponse (r : RawResponse) : Response :=
  ⟨r.error, r.files.given.map (·.map RawFile.toFile), r.reserved.given⟩

def readParams : Reader RawParams := readRecord ⟨⟩ [
  slot "file_name" (·.fileName) (fun p x => { p with fileName := x }) readText,
  slot "dest_dir" (·.destDir) (fun p x => { p with destDir := x }) readText,
  slot "args" (·.args) (fun p x => { p with args := x }) readTexts]

def readByte : Reader UInt8 := fun old j => (readNat 0x100 old.toNat j).map UInt8.ofNat

/-- File contents, in base64 or as a list of numbers. -/
def readContent : Reader (Items UInt8)
  | _, .str t =>
    match Base64.decode? t with
    | some bs => .ok ⟨some bs, []⟩
    | none => .error ⟨⟩
  | old, j => readList 0 readByte old j

def readFile : Reader RawFile := readRecord ⟨⟩ [
  slot "path" (·.path) (fun f x => { f with path := x }) readTexts,
  slot "content" (·.content) (fun f x => { f with content := x }) readContent]

def readResponse : Reader RawResponse := readRecord ⟨⟩ [
  slot "error" (·.error) (fun r x => { r with error := x }) readText,
  slot "files" (·.files) (fun r x => { r with files := x }) (readList {} readFile),
  slot "reserved" (·.reserved) (fun r x => { r with reserved := x }) readTexts]

def schemaSlot : Slot (Option Schema) Failure where
  key := "schema"
  read
    | _, .null => .ok none
    | _, j => (Schema.ofJson j).map some

def paramsSlot : Slot RawParams Misfit := ⟨"params", readParams⟩

/-- A schema that cannot be read is told before anything that is wrong elsewhere. -/
def Request.ofJson : Json → Except Failure Request
  | .null => .ok {}
  | .obj ms =>
    match readMembers [schemaSlot] none ms with
    | .error e => .error e
    | .ok schema =>
      match readMembers [paramsSlot] {} ms with
      | .error _ => .error .misfit
      | .ok params => .ok ⟨schema, params.toParams⟩
  | _ => .error .misfit

def Response.ofJson (j : Json) : Except Failure Response :=
  match readResponse {} j with
  | .error _ => .error .misfit
  | .ok r => .ok r.toResponse

/-! ### Whole messages -/

def Request.encode (r : Request) : Bytes := frame r.toJson.print

def Response.encode (r : Response) : Bytes := frame r.toJson.print

def Request.decode (message : Bytes) : Except MessageError Request :=
  match unframeJson message with
  | .error e => .error e
  | .ok j => (Request.ofJson j).mapError .body

def Response.decode (message : Bytes) : Except MessageError Response :=
  match unframeJson message with
  | .error e => .error e
  | .ok j => (Response.ofJson j).mapError .body

end Flatwire.Plugin
