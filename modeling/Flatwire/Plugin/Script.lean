import Flatwire.Plugin.Host

/-! Scripted guests. A script says what each function of a guest does, so that a plugin can be played without a module
to run. -/

namespace Flatwire.Plugin

inductive AllocateScript where
  | bump
  /-- Hands out the given addresses in turn, and then zero. -/
  | addresses (ptrs : List UInt32)
  | trap
deriving DecidableEq, Repr

inductive DeallocateScript where
  | ignore
  | trap
deriving DecidableEq, Repr

inductive ResponseScript where
  /-- Stores no address. -/
  | none
  | bytes (content : Bytes)
  | address (ptr : UInt32)
deriving DecidableEq, Repr

structure EntryScript where
  printRequest : Bool := false
  response : ResponseScript := .none
  traps : Bool := false
  code : UInt32 := 0
deriving DecidableEq, Repr

structure Script where
  generator : Bytes
  pages : Nat := 1
  allocate : Option AllocateScript := some .bump
  deallocate : Option DeallocateScript := none
  traced : Bool := false
  startTraps : Bool := false
  reserved : Option EntryScript := some {}
  generate : Option EntryScript := some {}
deriving DecidableEq, Repr

/-- A memory of zeros in which pieces were overwritten, the latest first. -/
structure Cells where
  size : Nat
  pieces : List (Nat × Array UInt8)
deriving DecidableEq, Repr

namespace Cells

def inPiece? (i : Nat) (piece : Nat × Array UInt8) : Option UInt8 :=
  if piece.1 ≤ i then piece.2[i - piece.1]? else none

def get (m : Cells) (i : Nat) : UInt8 := (m.pieces.findSome? (inPiece? i)).getD 0

def set (m : Cells) (addr : Nat) (bytes : Bytes) : Cells := { m with pieces := (addr, bytes.toArray) :: m.pieces }

def read? (m : Cells) (addr size : Nat) : Option Bytes :=
  if addr + size ≤ m.size then some ((List.range size).map fun i => m.get (addr + i)) else none

def write? (m : Cells) (addr : Nat) (bytes : Bytes) : Option Cells :=
  if addr + bytes.length ≤ m.size then some (m.set addr bytes) else none

end Cells

namespace Script

structure State where
  memory : Cells
  next : UInt32
  addresses : List UInt32
deriving DecidableEq, Repr

def pageSize : Nat := 65536

def reservedAddress : UInt32 := 0x8000

def generateAddress : UInt32 := 0xC000

def memory : Memory State where
  read? ptr size st := st.memory.read? ptr.toNat size
  write? ptr bytes st := (st.memory.write? ptr.toNat bytes).map fun m => { st with memory := m }

def traceLine (traced : Bool) (letter : UInt8) (n : UInt32) : Bytes :=
  if traced then letter :: Bytes.ofNat 4 n.toNat else []

def runAllocate (traced : Bool) (a : AllocateScript) (size : UInt32) (st : State) : Reply State UInt32 :=
  let printed := traceLine traced 0x41 size
  match a with
  | .bump => ⟨{ st with next := st.next + size }, printed, some st.next⟩
  | .addresses _ => ⟨{ st with addresses := st.addresses.tail }, printed, some (st.addresses.headD 0)⟩
  | .trap => ⟨st, printed, none⟩

def runDeallocate (traced : Bool) (d : DeallocateScript) (ptr : UInt32) (st : State) : Reply State Unit :=
  let printed := traceLine traced 0x44 ptr
  match d with
  | .ignore => ⟨st, printed, some ()⟩
  | .trap => ⟨st, printed, none⟩

def messageAt (m : Cells) (ptr : UInt32) : Bytes :=
  ((m.read? ptr.toNat 4).bind fun header => m.read? ptr.toNat (Bytes.toNat header)).getD []

def responseAddress? (place : UInt32) : ResponseScript → Option UInt32
  | .none => none
  | .bytes _ => some place
  | .address ptr => some ptr

def runEntry (place : UInt32) (e : EntryScript) (request slot : UInt32) (st : State) : Reply State UInt32 :=
  let printed := if e.printRequest then messageAt st.memory request else []
  let result := if e.traps then none else some e.code
  match responseAddress? place e.response with
  | none => ⟨st, printed, result⟩
  | some ptr =>
    match st.memory.write? slot.toNat (Bytes.ofNat 4 ptr.toNat) with
    | none => ⟨st, printed, none⟩
    | some m => ⟨{ st with memory := m }, printed, result⟩

def responseBytes : Option EntryScript → Bytes
  | some { response := .bytes content, .. } => content
  | _ => []

def start (s : Script) : State where
  memory := (⟨s.pages * pageSize, []⟩ : Cells).set reservedAddress.toNat (responseBytes s.reserved)
    |>.set generateAddress.toNat (responseBytes s.generate)
  next := 1024
  addresses := match s.allocate with
    | some (.addresses ptrs) => ptrs
    | _ => []

def entry? (s : Script) (name : Bytes) : Option (Entry State) :=
  if name = reservedExport s.generator then s.reserved.map (runEntry reservedAddress)
  else if name = generateExport s.generator then s.generate.map (runEntry generateAddress)
  else none

def guest (s : Script) : Guest State where
  memory := if s.pages = 0 then none else some memory
  allocate := s.allocate.map (runAllocate s.traced)
  deallocate := s.deallocate.map (runDeallocate s.traced)
  entry? := s.entry?

/-! ### Loading -/

def sizeText (pages : Nat) : Bytes :=
  let k := pages * 64
  if k < 1024 then Bytes.decimal k ++ " Ki"
  else if k / 1024 < 1024 then Bytes.decimal (k / 1024) ++ " Mi"
  else Bytes.decimal (k / 1024 / 1024) ++ " Gi"

/-- The module that a script plays. It may not take more than `limit` pages of memory. -/
def instantiate (s : Script) (limit : Nat) (name : Bytes) : Except Bytes (Module State) :=
  if s.pages > limit then
    .error ("section memory: min " ++ Bytes.decimal s.pages ++ " pages (" ++ sizeText s.pages ++ ") over limit of " ++
      Bytes.decimal limit ++ " pages (" ++ sizeText limit ++ ")")
  else if s.startTraps then .error ("module[" ++ name ++ "] function[_start] failed: " ++ trapText)
  else .ok ⟨s.guest, s.start⟩

end Script

/-- The pages that a plugin may take unless another limit is set: a gibibyte. -/
def defaultPageLimit : Nat := 16384

end Flatwire.Plugin
