import Mathlib.Data.List.Basic
import Mathlib.Algebra.GroupWithZero.Nat
import Flatwire.Docs.Guest

/-! What is expected of a memory with buffers: buffers lie inside the memory and apart from each other, so they hold
what was written to them last, and a buffer can be made as long as there is room for it. The memory that hands out one
address after the other is such a memory. -/

namespace Flatwire.Docs

open Plugin

/-- `Owns bs ns st` says that there are buffers at the given addresses with the given bytes, and room for further
buffers of the given sizes. -/
structure Heap.WellBehaved {σ : Type} (h : Heap σ) where
  Owns : List (UInt32 × Bytes) → List Nat → σ → Prop
  perm {bs bs' : List (UInt32 × Bytes)} {ns : List Nat} {st : σ} : Owns bs ns st → bs.Perm bs' → Owns bs' ns st
  inside {bs : List (UInt32 × Bytes)} {ns : List Nat} {st : σ} {p : UInt32} {c : Bytes} : Owns bs ns st →
    (p, c) ∈ bs → p ≠ 0 ∧ p.toNat + c.length ≤ memorySize
  read {bs : List (UInt32 × Bytes)} {ns : List Nat} {st : σ} {p : UInt32} {c : Bytes} {n : Nat} : Owns bs ns st →
    (p, c) ∈ bs → n ≤ c.length → h.read p n st = c.take n ∧ h.memory.read? p n st = some (c.take n)
  write {bs : List (UInt32 × Bytes)} {ns : List Nat} {st : σ} {p : UInt32} {c d : Bytes} : Owns ((p, c) :: bs) ns st →
    d.length = c.length → h.memory.write? p d st = some (h.write p d st) ∧ Owns ((p, d) :: bs) ns (h.write p d st)
  allocate {bs : List (UInt32 × Bytes)} {ns : List Nat} {st : σ} {n : Nat} : Owns bs (n :: ns) st → 0 < n →
    n ≤ maxBuffer → ∃ p c st', h.allocate n st = some (p, st') ∧ c.length = n ∧ Owns ((p, c) :: bs) ns st'
  keep {bs : List (UInt32 × Bytes)} {ns : List Nat} {st : σ} {c : Bytes} : Owns bs (c.length :: ns) st → c ≠ [] →
    ∃ p st', h.keep c st = some (p, st') ∧ Owns ((p, c) :: bs) ns st'

/-! ### One address after the other -/

namespace State

variable {st : State} {addr q n : Nat} {c d : Bytes}

theorem length_read (st : State) (addr size : Nat) : (st.read addr size).length = size := by simp [read]

theorem read_take (h : st.read addr c.length = c) (hn : n ≤ c.length) : st.read addr n = c.take n := by
  have htake : (st.read addr c.length).take n = st.read addr n := by
    rw [read, ← List.map_take, List.take_range, Nat.min_eq_left hn, read]
  rw [← htake, h]

theorem read_write (st : State) (addr : Nat) (d : Bytes) : (st.write addr d).read addr d.length = d := by
  apply List.ext_getElem
  · rw [length_read]
  · intro i hi hi'
    simp [read, write, hi']

theorem read_write_apart (h : q + n ≤ addr ∨ addr + d.length ≤ q) : (st.write addr d).read q n = st.read q n := by
  refine List.map_congr_left fun i hi => ?_
  have hi := List.mem_range.1 hi
  simp only [write]
  split_ifs with hle
  · rw [Array.getD_eq_getD_getElem?, List.getElem?_toArray, List.getElem?_eq_none (by omega)]
    rfl
  · rfl

/-- The buffers do not share a byte. -/
def Apart (a b : UInt32 × Bytes) : Prop := a.1.toNat + a.2.length ≤ b.1.toNat ∨ b.1.toNat + b.2.length ≤ a.1.toNat

/-- The buffer lies in front of the next one and holds the given bytes. -/
def Holds (st : State) (b : UInt32 × Bytes) : Prop :=
  b.1 ≠ 0 ∧ b.1.toNat + b.2.length ≤ st.next ∧ st.read b.1.toNat b.2.length = b.2

/-- Everything behind the buffers is room. -/
structure Owns (bs : List (UInt32 × Bytes)) (ns : List Nat) (st : State) : Prop where
  pos : 0 < st.next
  room : st.next + ns.sum ≤ memorySize
  apart : bs.Pairwise Apart
  holds : ∀ b ∈ bs, st.Holds b

variable {bs : List (UInt32 × Bytes)} {ns : List Nat} {p : UInt32}

theorem Owns.write (h : Owns ((p, c) :: bs) ns st) (hd : d.length = c.length) :
    Owns ((p, d) :: bs) ns (st.write p.toNat d) := by
  obtain ⟨hne, hend, -⟩ := h.holds (p, c) List.mem_cons_self
  obtain ⟨hapart, hrest⟩ := List.pairwise_cons.1 h.apart
  have hapart' : ∀ b ∈ bs, Apart (p, d) b := by
    intro b hb
    have := hapart b hb
    simp only [Apart, hd] at this ⊢
    exact this
  refine ⟨h.pos, h.room, List.pairwise_cons.2 ⟨hapart', hrest⟩, List.forall_mem_cons.2 ⟨⟨hne, ?_, ?_⟩, fun b hb => ?_⟩⟩
  · change p.toNat + d.length ≤ st.next
    rw [hd]
    exact hend
  · exact read_write st p.toNat d
  · obtain ⟨hbne, hbend, hbread⟩ := h.holds b (List.mem_cons_of_mem _ hb)
    refine ⟨hbne, hbend, ?_⟩
    rw [read_write_apart (hapart' b hb).symm, hbread]

theorem Owns.toNat_next (h : Owns bs (n :: ns) st) (hn : 0 < n) : (UInt32.ofNat st.next).toNat = st.next := by
  have hroom := h.room
  simp only [List.sum_cons, memorySize] at hroom
  refine UInt32.toNat_ofNat_of_lt' ?_
  change st.next < 2 ^ 32
  omega

theorem Owns.grow (h : Owns bs (n :: ns) st) (hn : 0 < n) :
    Owns ((UInt32.ofNat st.next, st.read st.next n) :: bs) ns (st.keep n).2 := by
  have hroom := h.room
  have hpos := h.pos
  have haddr := h.toNat_next hn
  rw [List.sum_cons, ← Nat.add_assoc] at hroom
  have hne : UInt32.ofNat st.next ≠ 0 := by
    intro heq
    rw [heq] at haddr
    exact absurd haddr.symm (Nat.ne_of_gt hpos)
  refine ⟨Nat.add_pos_left hpos n, hroom,
    List.pairwise_cons.2 ⟨fun b hb => .inr ?_, h.apart⟩, List.forall_mem_cons.2 ⟨⟨hne, ?_, ?_⟩, fun b hb => ?_⟩⟩
  · rw [haddr]
    exact (h.holds b hb).2.1
  · simp only [haddr, length_read]
    exact Nat.le_refl _
  · simp only [haddr, length_read]
    rfl
  · obtain ⟨hbne, hbend, hbread⟩ := h.holds b hb
    exact ⟨hbne, Nat.le_add_right_of_le hbend, hbread⟩

theorem allocate_eq (h : Owns bs (n :: ns) st) (hn : 0 < n) (hmax : n ≤ maxBuffer) :
    heap.allocate n st = some (UInt32.ofNat st.next, (st.keep n).2) := by
  have hroom := h.room
  rw [List.sum_cons] at hroom
  have hnext : st.next + n ≤ memorySize := by omega
  have hsize : ¬ (n = 0 ∨ n > maxBuffer) := by omega
  simp only [heap, allocate, if_neg hsize, keep, ifAddressable, if_pos hnext, Option.getD_some]

theorem keep_eq (h : Owns bs (c.length :: ns) st) :
    heap.keep c st = some (UInt32.ofNat st.next, (st.keep c.length).2.write st.next c) := by
  have hroom := h.room
  rw [List.sum_cons] at hroom
  have hnext : st.next + c.length ≤ memorySize := by omega
  simp only [heap, keepMessage, keep, ifAddressable]
  exact if_pos hnext

end State

def heap_wellBehaved : heap.WellBehaved where
  Owns := State.Owns
  perm h hperm :=
    ⟨h.pos, h.room, (hperm.pairwise_iff fun hab => Or.symm hab).1 h.apart, fun b hb => h.holds b (hperm.mem_iff.2 hb)⟩
  inside h hmem := by
    obtain ⟨hne, hend, -⟩ := h.holds _ hmem
    exact ⟨hne, Nat.le_trans hend (Nat.le_trans (Nat.le_add_right _ _) h.room)⟩
  read h hmem hn := by
    obtain ⟨-, hend, hread⟩ := h.holds _ hmem
    have htake := State.read_take hread hn
    have hroom := h.room
    refine ⟨htake, (if_pos ?_).trans (congrArg some htake)⟩
    dsimp only at hend
    omega
  write h hd := by
    obtain ⟨-, hend, -⟩ := h.holds _ List.mem_cons_self
    have hroom := h.room
    refine ⟨if_pos ?_, h.write hd⟩
    dsimp only at hend
    omega
  allocate h hpos hmax := ⟨_, _, _, State.allocate_eq h hpos hmax, State.length_read _ _ _, h.grow hpos⟩
  keep h hne := by
    have hpos := List.length_pos_of_ne_nil hne
    have hwritten := (h.grow hpos).write (State.length_read _ _ _).symm
    rw [h.toNat_next hpos] at hwritten
    exact ⟨_, _, State.keep_eq h, hwritten⟩

end Flatwire.Docs
