import Flatwire.Bytes

/-! A guest is the running module of a plugin, seen from outside: functions that step its state, and a memory that the
host reads and writes. Nothing is assumed about what the functions do. -/

namespace Flatwire.Plugin

structure Reply (σ α : Type) where
  state : σ
  printed : Bytes
  /-- Nothing if the guest trapped. -/
  result : Option α

/-- The memory of a guest. An access that leaves it has no result. -/
structure Memory (σ : Type) where
  read? : UInt32 → Nat → σ → Option Bytes
  write? : UInt32 → Bytes → σ → Option σ

/-- A function that takes the address of a request and the address of a slot for the address of the response, and
returns a code. -/
abbrev Entry (σ : Type) := UInt32 → UInt32 → σ → Reply σ UInt32

structure Guest (σ : Type) where
  memory : Option (Memory σ)
  allocate : Option (UInt32 → σ → Reply σ UInt32)
  deallocate : Option (UInt32 → σ → Reply σ Unit)
  /-- Entries have names, since a module may provide several generators. -/
  entry? : Bytes → Option (Entry σ)

structure Module (σ : Type) where
  guest : Guest σ
  start : σ

def allocateExport : Bytes := "sbc_allocate"

def reservedExport (name : Bytes) : Bytes := "sbc_reserved_identifiers/" ++ name

def generateExport (name : Bytes) : Bytes := "sbc_generate/" ++ name

end Flatwire.Plugin
