import Mathlib.Data.Finset.Card
import Mathlib.Tactic.Ring
import Flatwire.Dynamic.Decode
import Flatwire.Proofs.Lawful

/-! How deep a walk can go. An embedded sequence begins no earlier than the one around it and reaches fewer types by
embedding; a payload begins behind its slot. Each step down makes the one measure smaller, and the depth that a walk
starts with is larger than all of it. -/

namespace Flatwire

namespace Schema

open Classical in
/-- The types that a type embeds, at any depth. -/
noncomputable def embedded (s : Schema) (id : TypeId) : Finset TypeId :=
  (Finset.range s.types.size).filter (Relation.TransGen s.Embeds id)

noncomputable def rank (s : Schema) (id : TypeId) : Nat := (s.embedded id).card

variable {s : Schema} {a b : TypeId}

theorem mem_embedded : b ∈ s.embedded a ↔ b < s.types.size ∧ Relation.TransGen s.Embeds a b := by
  classical
  rw [embedded, Finset.mem_filter, Finset.mem_range]

theorem rank_le (s : Schema) (id : TypeId) : s.rank id ≤ s.types.size := by
  have h : s.embedded id ⊆ Finset.range s.types.size := fun _ hb => Finset.mem_range.2 (mem_embedded.1 hb).1
  have hcard := Finset.card_le_card h
  rwa [Finset.card_range] at hcard

theorem Embeds.lt (hs : s.LaidOut) (h : s.Embeds a b) : b < s.types.size := by
  obtain ⟨q, hq, f, hf, rfl⟩ := h
  exact hs.refs a _ hq _ (List.mem_map_of_mem hf)

theorem Embeds.rank_lt (hs : s.LaidOut) (h : s.Embeds a b) : s.rank b < s.rank a := by
  have hsub : s.embedded b ⊆ s.embedded a := by
    intro c hc
    obtain ⟨hlt, hbc⟩ := mem_embedded.1 hc
    exact mem_embedded.2 ⟨hlt, .head h hbc⟩
  have ha : b ∈ s.embedded a := mem_embedded.2 ⟨h.lt hs, .single h⟩
  have hb : b ∉ s.embedded b := fun hb => hs.acyclic b (mem_embedded.1 hb).2
  exact Finset.card_lt_card ((Finset.ssubset_iff_of_subset hsub).2 ⟨b, ha, hb⟩)

end Schema

namespace Reader

/-- A bound on the steps that a walk can still go down. -/
noncomputable def steps (r : Reader) : Nat :=
  (r.buf.size + 1 - r.addr) * (r.schema.types.size + 1) + r.schema.rank r.id

variable {r : Reader} {id : TypeId} {a : Nat}

theorem steps_field (hs : r.schema.LaidOut) (h : r.schema.Embeds r.id id) (ha : r.addr ≤ a) :
    (r.moved id a).steps < r.steps := by
  have hr := h.rank_lt hs
  have hm : (r.buf.size + 1 - a) * (r.schema.types.size + 1) ≤ (r.buf.size + 1 - r.addr) * (r.schema.types.size + 1) :=
    Nat.mul_le_mul_right _ (by omega)
  exact Nat.add_lt_add_of_le_of_lt hm hr

theorem steps_payload (hr : r.addr ≤ r.buf.size) (ha : r.addr < a) : (r.moved id a).steps < r.steps := by
  have hrank := r.schema.rank_le id
  have hm : (r.buf.size + 1 - a) * (r.schema.types.size + 1) ≤ (r.buf.size - r.addr) * (r.schema.types.size + 1) :=
    Nat.mul_le_mul_right _ (by omega)
  have hsucc : r.buf.size + 1 - r.addr = (r.buf.size - r.addr) + 1 := by omega
  have hexpand : (r.buf.size + 1 - r.addr) * (r.schema.types.size + 1) =
      (r.buf.size - r.addr) * (r.schema.types.size + 1) + (r.schema.types.size + 1) := by
    rw [hsucc, Nat.succ_mul]
  -- an address further on outweighs any rank
  change (r.buf.size + 1 - a) * (r.schema.types.size + 1) + r.schema.rank id <
    (r.buf.size + 1 - r.addr) * (r.schema.types.size + 1) + r.schema.rank r.id
  omega

theorem steps_lt_depth (r : Reader) : r.steps < r.depth := by
  have hrank := r.schema.rank_le r.id
  have hm : (r.buf.size + 1 - r.addr) * (r.schema.types.size + 1) ≤ (r.buf.size + 1) * (r.schema.types.size + 1) :=
    Nat.mul_le_mul_right _ (by omega)
  have hexpand : r.depth =
      (r.buf.size + 1) * (r.schema.types.size + 1) + (r.buf.size + 2) + (r.schema.types.size + 1) := by
    rw [depth]
    ring
  rw [hexpand, steps]
  omega

end Reader

end Flatwire
