import Flatwire.FileTree
import Flatwire.Libraries
import Flatwire.Plugin.Guest
import Flatwire.Plugin.Message

/-! The host of a plugin. It puts a request into the guest's memory, calls the guest, and reads the response that the
guest left there. Every buffer it asked for is given back, also after a failure, and so is every response. -/

namespace Flatwire

structure Plugin (σ : Type) where
  name : Bytes
  path : Bytes
  memory : Option (Plugin.Memory σ)
  allocate : UInt32 → σ → Plugin.Reply σ UInt32
  deallocate : Option (UInt32 → σ → Plugin.Reply σ Unit)
  reserved : Plugin.Entry σ
  generate : Plugin.Entry σ

namespace Plugin

/-! ### Errors -/

inductive HostError where
  | requestTooLarge (size : Nat)
  | allocateTrap (size : Nat)
  | outOfMemory (size : Nat)
  | requestOutOfRange (ptr : UInt32)
  | slotOutOfRange (ptr : UInt32)
  | trap
  | noAddress
  | noResponse
  | noLength
  | badLength (e : MessageError)
  | noMessage
  | undecodable (e : MessageError)
  /-- The guest returned a code other than zero. -/
  | failed (code : UInt32) (message : Bytes)
  /-- There is no memory to write to. The host cannot go on. -/
  | noMemory
deriving DecidableEq, Repr

def trapText : Bytes := "wasm error: unreachable"

def failureMessage (name : Bytes) (code : Nat) (message : Bytes) : Bytes :=
  if message.isEmpty then "plugin " ++ name ++ " failed with code " ++ Bytes.decimal code
  else "plugin " ++ name ++ ": " ++ message

def hexAddress (ptr : UInt32) : Bytes := "0x" ++ Bytes.radix 16 ptr.toNat

def HostError.message (name : Bytes) (e : HostError) : Bytes :=
  let told (text : Bytes) : Bytes := "plugin " ++ name ++ ": " ++ text
  match e with
  | requestTooLarge n =>
    told ("encode request: wasmproto: message of " ++ Bytes.decimal n ++ " bytes is too large")
  | allocateTrap n => told ("allocate " ++ Bytes.decimal n ++ " bytes: " ++ trapText)
  | outOfMemory n => told ("allocate " ++ Bytes.decimal n ++ " bytes: out of memory")
  | requestOutOfRange ptr => told ("request buffer at " ++ hexAddress ptr ++ " is out of range")
  | slotOutOfRange ptr => told ("response address at " ++ hexAddress ptr ++ " is out of range")
  | trap => told trapText
  | noAddress => told "failed to read response address"
  | noResponse => told "no response"
  | noLength => told "failed to read response message length"
  | badLength e => told e.message
  | noMessage => told "failed to read response message"
  | undecodable _ => told "decode response: json"
  | failed code message => failureMessage name code.toNat message
  | noMemory => told "no memory"

def isControl (c : Char) : Bool := c.toNat < 0x20 || (0x7F ≤ c.toNat && c.toNat < 0xA0)

def sanitizeUnit : Utf8.Unit → Char
  | .char c => if c != '\n' && c != '\t' && isControl c then Char.ofNat 0xFFFD else c
  | .bad _ => Char.ofNat 0xFFFD

/-- A guest's message without line ends behind it, and with its control characters replaced. -/
def sanitize (message : Bytes) : Bytes :=
  let trimmed := (message.reverse.dropWhile fun b => b == 0x0A || b == 0x0D).reverse
  Bytes.ofString (String.ofList ((Utf8.units trimmed).map sanitizeUnit))

/-! ### Sessions -/

inductive Event where
  | printed (text : Bytes)
  | logged (entry : LogEntry)
  /-- A buffer was asked for; the guest answered with its address or trapped. -/
  | allocated (size : Nat) (result : Option UInt32)
  /-- The guest was told that a buffer is no longer needed. -/
  | freed (ptr : UInt32)
  /-- An entry was called; the guest returned a code or trapped. -/
  | entered (result : Option UInt32)
deriving DecidableEq, Repr

/-- The guest's state, all that has happened, and an error that later calls have to tell. -/
structure Session (σ : Type) where
  state : σ
  events : List Event
  kept : Option HostError

namespace Session

variable {σ α : Type}

def record (s : Session σ) (e : Event) : Session σ := { s with events := s.events ++ [e] }

def step (s : Session σ) (f : σ → Reply σ α) : Option α × Session σ :=
  let r := f s.state
  let s := { s with state := r.state }
  (r.result, if r.printed.isEmpty then s else s.record (.printed r.printed))

end Session

variable {σ α : Type}

def log (p : Plugin σ) (level : LogLevel) (message : String) (fields : List (String × LogValue)) (s : Session σ) :
    Session σ :=
  s.record (.logged ⟨level, message, ("plugin", .text p.name) :: fields⟩)

def errorField (p : Plugin σ) (e : HostError) : String × LogValue := ("error", .text (e.message p.name))

/-! ### Buffers -/

def alloc (p : Plugin σ) (size : Nat) (s : Session σ) : Except HostError UInt32 × Session σ :=
  let (r, s) := s.step (p.allocate (UInt32.ofNat size))
  let s := s.record (.allocated size r)
  match r with
  | none => (.error (.allocateTrap size), s)
  | some ptr => (if ptr = 0 then .error (.outOfMemory size) else .ok ptr, s)

/-- Gives a buffer back, if the guest has a function for it. A trap there is only logged. -/
def free (p : Plugin σ) (ptr : UInt32) (s : Session σ) : Session σ :=
  match p.deallocate with
  | none => s
  | some deallocate =>
    if ptr = 0 then s
    else
      let (r, s) := s.step (deallocate ptr)
      let s := s.record (.freed ptr)
      match r with
      | some _ => s
      | none => p.log .warn "deallocate" [("ptr", .number ptr.toNat), ("error", .text trapText)] s

/-- Runs with a buffer of the guest, which is given back in any case. -/
def withBuffer (p : Plugin σ) (size : Nat) (use : UInt32 → Session σ → Except HostError α × Session σ) (s : Session σ) :
    Except HostError α × Session σ :=
  match p.alloc size s with
  | (.error e, s) => (.error e, s)
  | (.ok ptr, s) =>
    let (r, s) := use ptr s
    (r, p.free ptr s)

def store (p : Plugin σ) (ptr : UInt32) (bytes : Bytes) (outOfRange : HostError) (s : Session σ) :
    Except HostError (Session σ) :=
  match p.memory with
  | none => .error .noMemory
  | some memory =>
    match memory.write? ptr bytes s.state with
    | none => .error outOfRange
    | some state => .ok { s with state := state }

def fetch (p : Plugin σ) (ptr : UInt32) (size : Nat) (outOfRange : HostError) (s : Session σ) :
    Except HostError Bytes :=
  match p.memory with
  | none => .error .noMemory
  | some memory =>
    match memory.read? ptr size s.state with
    | none => .error outOfRange
    | some bytes => .ok bytes

/-! ### Calls -/

def responseAt (p : Plugin σ) (ptr : UInt32) (s : Session σ) : Except HostError Response := do
  let header ← p.fetch ptr headerSize .noLength s
  let size ← (messageLength header).mapError .badLength
  let message ← p.fetch ptr size .noMessage s
  (Response.decode message).mapError .undecodable

/-- The response whose address the guest stored in the slot. It is given back once it is read. -/
def takeResponse (p : Plugin σ) (slot : UInt32) (s : Session σ) : Except HostError Response × Session σ :=
  match p.fetch slot 4 .noAddress s with
  | .error e => (.error e, s)
  | .ok bytes =>
    let ptr := UInt32.ofNat (Bytes.toNat bytes)
    if ptr = 0 then (.error .noResponse, s) else (p.responseAt ptr s, p.free ptr s)

/-- Calls an entry. A code other than zero is an error even if there is no response to read. -/
def enter (p : Plugin σ) (entry : Entry σ) (request slot : UInt32) (s : Session σ) :
    Except HostError Response × Session σ :=
  let (r, s) := s.step (entry request slot)
  let s := s.record (.entered r)
  match r with
  | none => (.error .trap, s)
  | some code =>
    let (r, s) := p.takeResponse slot s
    if code = 0 then (r, s)
    else
      match r with
      | .ok response => (.error (.failed code (sanitize response.error)), s)
      | .error e =>
        (.error (.failed code []),
          p.log .debug "unreadable error response" [("code", .number code.toNat), p.errorField e] s)

def send (p : Plugin σ) (entry : Entry σ) (message : Bytes) : Session σ → Except HostError Response × Session σ :=
  p.withBuffer message.length fun ptr s =>
    match p.store ptr message (.requestOutOfRange ptr) s with
    | .error e => (.error e, s)
    | .ok s =>
      p.withBuffer 4 (fun slot s =>
        match p.store slot (Bytes.ofNat 4 0) (.slotOutOfRange slot) s with
        | .error e => (.error e, s)
        | .ok s => p.enter entry ptr slot s) s

def call (p : Plugin σ) (entry : Entry σ) (request : Request) (s : Session σ) :
    Except HostError Response × Session σ :=
  let message := request.encode
  if maxMessage < message.length then (.error (.requestTooLarge (message.length - headerSize)), s)
  else p.send entry message s

def reservedWords (p : Plugin σ) (params : Params) (s : Session σ) :
    Except HostError (Option (List Bytes)) × Session σ :=
  let (r, s) := p.call p.reserved ⟨none, params⟩ s
  (r.map (·.reserved), s)

/-- The words that the generator reserves. An error is logged and kept for `generateFiles` to tell. -/
def reservedOrKeep (p : Plugin σ) (params : Params) (s : Session σ) :
    Except HostError (Option (List Bytes)) × Session σ :=
  match p.reservedWords params s with
  | (.error .noMemory, s) => (.error .noMemory, s)
  | (.error e, s) => (.ok none, { p.log .error "reserved identifiers" [p.errorField e] s with kept := some e })
  | (.ok words, s) => (.ok words, s)

def generateFiles (p : Plugin σ) (schema : Option Schema) (params : Params) (s : Session σ) :
    Except HostError (List ResponseFile) × Session σ :=
  match s.kept with
  | some e => (.error e, s)
  | none =>
    match p.call p.generate ⟨schema, params⟩ s with
    | (.error e, s) => (.error e, s)
    | (.ok response, s) =>
      let files := response.files.getD []
      (.ok files, p.log .debug "generated" [("files", .number files.length)] s)

/-! ### Loading -/

abbrev Loader (σ : Type) := Bytes → Bytes → Bytes → Except Bytes (Module σ)

inductive LoadError where
  | noName (path : Bytes)
  | file (name : Bytes) (e : FileError)
  | refused (name cause : Bytes)
  | missingExport (name export' : Bytes)
deriving DecidableEq, Repr

def LoadError.message : LoadError → Bytes
  | noName path => "plugin " ++ path ++ ": empty generator name"
  | file name e => "plugin " ++ name ++ ": " ++ e.message
  | refused name cause => "plugin " ++ name ++ ": " ++ cause
  | missingExport name e => "plugin " ++ name ++ ": missing export " ++ Text.quote e

def generatorName (path : Bytes) : Bytes := Bytes.dropStart "sbc-gen-" (Path.stem path)

def ofGuest (name path : Bytes) (g : Guest σ) : Except LoadError (Plugin σ) :=
  match g.allocate, g.entry? (reservedExport name), g.entry? (generateExport name) with
  | some allocate, some reserved, some generate =>
    .ok ⟨name, path, g.memory, allocate, g.deallocate, reserved, generate⟩
  | none, _, _ => .error (.missingExport name allocateExport)
  | some _, none, _ => .error (.missingExport name (reservedExport name))
  | some _, some _, none => .error (.missingExport name (generateExport name))

def load (tree : FileTree) (loader : Loader σ) (path : Bytes) : Except LoadError (Plugin σ × Session σ) :=
  let name := generatorName path
  if name.isEmpty then .error (.noName path)
  else
    match tree.readFile path with
    | .error e => .error (.file name e)
    | .ok content =>
      match loader name path content with
      | .error cause => .error (.refused name cause)
      | .ok m =>
        match ofGuest name path m.guest with
        | .error e => .error e
        | .ok p =>
          .ok (p, p.log .debug "loaded plugin" [("path", .text path), ("size", .number content.length)]
            ⟨m.start, [], none⟩)

end Plugin

end Flatwire
