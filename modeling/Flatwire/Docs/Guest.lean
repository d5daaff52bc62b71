import Flatwire.Docs
import Flatwire.Plugin.Guest
import Flatwire.Plugin.Message

/-! The plugin that makes pages of Markdown, as a guest. It keeps every buffer that it hands out until the host gives
it back. -/

namespace Flatwire.Docs

open Plugin

def generatorName : Bytes := "docs"

/-! ### Answers -/

inductive Failure where
  | message (e : MessageError)
  | noSchema
  | arguments (args : List Bytes)
deriving DecidableEq, Repr

def Failure.text : Failure → Bytes
  | message e => e.message
  | noSchema => "request has no schema"
  | arguments args => generatorName ++ ": unexpected arguments " ++ Text.quoteList args

def readRequest (buffer : Bytes) : Except Failure Request :=
  (Request.decode (buffer.take (Bytes.toNat (buffer.take headerSize)))).mapError .message

/-- Markdown has no words that names could collide with. -/
def reserved (buffer : Bytes) : Except Failure Response := (readRequest buffer).map fun _ => {}

def generate (buffer : Bytes) : Except Failure Response :=
  match readRequest buffer with
  | .error e => .error e
  | .ok request =>
    match request.schema, request.params.args.getD [] with
    | none, _ => .error .noSchema
    | some s, [] => .ok { files := some [⟨some [pageName request.params.fileName], some (page s)⟩] }
    | some _, args => .error (.arguments args)

def reply : Except Failure Response → UInt32 × Bytes
  | .ok r => (if r.error.isEmpty then 0 else 1, r.encode)
  | .error e => (if e.text.isEmpty then 0 else 1, Response.encode { error := e.text })

/-! ### Buffers -/

structure Heap (σ : Type) where
  memory : Memory σ
  read : UInt32 → Nat → σ → Bytes
  write : UInt32 → Bytes → σ → σ
  /-- Makes a buffer for the host, or answers with zero; there is no answer when the guest runs out of addresses. -/
  allocate : Nat → σ → Option (UInt32 × σ)
  keep : Bytes → σ → Option (UInt32 × σ)
  deallocate : UInt32 → σ → σ

structure State where
  cells : Nat → UInt8 := fun _ => 0
  next : Nat := 1024
  live : List Nat := []

/-- One more than the largest address. -/
def memorySize : Nat := 0x100000000

def maxBuffer : Nat := 0x7FFFFFFF

namespace State

def write (st : State) (addr : Nat) (bytes : Bytes) : State :=
  let content := bytes.toArray
  { st with cells := fun i => if addr ≤ i then content.getD (i - addr) (st.cells i) else st.cells i }

def read (st : State) (addr size : Nat) : Bytes := (List.range size).map fun i => st.cells (addr + i)

def keep (st : State) (size : Nat) : Nat × State :=
  (st.next, { st with next := st.next + size, live := st.live ++ [st.next] })

/-- A buffer of the given size; there are none that are empty or too large. -/
def allocate (st : State) (size : Nat) : Option Nat × State :=
  if size = 0 ∨ size > maxBuffer then (none, st)
  else
    let (addr, st) := st.keep size
    (some addr, st)

def deallocate (st : State) (addr : Nat) : State := { st with live := st.live.filter (· != addr) }

def keepMessage (st : State) (message : Bytes) : Nat × State :=
  let (addr, st) := st.keep message.length
  (addr, st.write addr message)

end State

/-! ### The guest -/

section Guest

variable {σ : Type}

def runAllocate (h : Heap σ) (size : UInt32) (st : σ) : Reply σ UInt32 :=
  match h.allocate size.toNat st with
  | none => ⟨st, [], none⟩
  | some (addr, after) => ⟨after, [], some addr⟩

def runDeallocate (h : Heap σ) (ptr : UInt32) (st : σ) : Reply σ Unit := ⟨h.deallocate ptr st, [], some ()⟩

/-- Answers the request at an address and stores the address of the response. -/
def runEntry (h : Heap σ) (answer : Bytes → Except Failure Response) : Entry σ := fun request slot st =>
  let size := Bytes.toNat (h.read request headerSize st)
  let (code, message) := reply (answer (h.read request (max size headerSize) st))
  match h.keep message st with
  | none => ⟨st, [], none⟩
  | some (addr, after) => ⟨h.write slot (Bytes.ofNat 4 addr.toNat) after, [], some code⟩

def guestOn (h : Heap σ) : Guest σ where
  memory := some h.memory
  allocate := some (runAllocate h)
  deallocate := some (runDeallocate h)
  entry? name :=
    if name = reservedExport generatorName then some (runEntry h reserved)
    else if name = generateExport generatorName then some (runEntry h generate)
    else none

end Guest

/-! ### A memory that hands out one address after the other -/

/-- The buffer that was made, unless it goes beyond the last address. -/
def ifAddressable (addr : Nat) (after : State) : Option (UInt32 × State) :=
  if after.next ≤ memorySize then some (UInt32.ofNat addr, after) else none

def heap : Heap State where
  memory := {
    read? := fun ptr size st => if ptr.toNat + size ≤ memorySize then some (st.read ptr.toNat size) else none
    write? := fun ptr bytes st =>
      if ptr.toNat + bytes.length ≤ memorySize then some (st.write ptr.toNat bytes) else none }
  read ptr size st := st.read ptr.toNat size
  write ptr bytes st := st.write ptr.toNat bytes
  allocate size st :=
    let (addr, after) := st.allocate size
    ifAddressable (addr.getD 0) after
  keep bytes st :=
    let (addr, after) := st.keepMessage bytes
    ifAddressable addr after
  deallocate ptr st := st.deallocate ptr.toNat

def guest : Guest State := guestOn heap

end Flatwire.Docs
