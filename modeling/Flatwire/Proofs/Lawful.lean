import Mathlib.Logic.Relation
import Mathlib.Tactic.IntervalCases
import Flatwire.Schema

/-! The laws that compiled schemas keep. The laws of layout say where the parts of a value lie; the others make names
and numbers stand for one thing each. -/

namespace Flatwire

/-- The bytes that fields take side by side. -/
def Schema.total (s : Schema) (fields : List Field) : Nat := (fields.map fun f => s.staticSize f.type).sum

namespace TypeDef

/-- The types that a type refers to. -/
def refs : TypeDef → List TypeId
  | list elem => [elem]
  | sequence q => q.fields.map Field.type
  | oneOf o => o.variants.map Variant.type
  | _ => []

/-- Each field of a sequence begins where those before it end, and the sequence ends with the last. -/
def Contiguous (s : Schema) : TypeDef → Prop
  | sequence q => (∀ i : Fin q.fields.length, (q.fields.get i).offset.toNat = s.total (q.fields.take i)) ∧
      q.size.toNat = s.total q.fields
  | _ => True

instance (s : Schema) : (t : TypeDef) → Decidable (t.Contiguous s)
  | sequence _ => inferInstanceAs (Decidable (_ ∧ _))
  | primitive _ | string | list _ | enum _ | oneOf _ => inferInstanceAs (Decidable True)

/-- Names and numbers stand for one member each, and numbers fit where they are stored. -/
def Distinct : TypeDef → Prop
  | sequence q => (q.fields.map Field.name).Nodup
  | enum e => (e.variants.map EnumVariant.name).Nodup ∧ (e.variants.map EnumVariant.value).Nodup ∧
      e.width = enumWidth (maxValue e.variants)
  | oneOf o => (o.variants.map Variant.name).Nodup ∧ (1 ≤ o.variants.length ∧ o.variants.length ≤ 255) ∧
      ∀ i : Fin o.variants.length, (o.variants.get i).tag.toNat = i
  | _ => True

instance : (t : TypeDef) → Decidable t.Distinct
  | sequence q => inferInstanceAs (Decidable (q.fields.map Field.name).Nodup)
  | enum _ => inferInstanceAs (Decidable (_ ∧ _ ∧ _))
  | oneOf _ => inferInstanceAs (Decidable (_ ∧ _ ∧ _))
  | primitive _ | string | list _ => inferInstanceAs (Decidable True)

end TypeDef

namespace Schema

/-- The first type is a sequence with a field of the second. -/
def Embeds (s : Schema) (a b : TypeId) : Prop := ∃ q, s.type? a = some (.sequence q) ∧ ∃ f ∈ q.fields, f.type = b

/-- The first type is a list with elements of the second. -/
def Lists (s : Schema) (a b : TypeId) : Prop := s.type? a = some (.list b)

structure LaidOut (s : Schema) : Prop where
  refs : ∀ id t, s.type? id = some t → ∀ ref ∈ t.refs, ref < s.types.size
  acyclic : ∀ id, ¬ Relation.TransGen s.Embeds id id
  contiguous : ∀ id t, s.type? id = some t → t.Contiguous s

structure Lawful (s : Schema) : Prop extends LaidOut s where
  lists : WellFounded fun b a => s.Lists a b
  distinct : ∀ id t, s.type? id = some t → t.Distinct

variable {s : Schema} {id : TypeId}

theorem type?_lt {t : TypeDef} (h : s.type? id = some t) : id < s.types.size := (Array.getElem?_eq_some_iff.1 h).1

theorem type?_mem {t : TypeDef} (h : s.type? id = some t) : t ∈ s.types.toList :=
  Array.mem_toList_iff.2 (Array.mem_of_getElem? h)

theorem staticSize_eq {t : TypeDef} (h : s.type? id = some t) : s.staticSize id = t.staticSize := by
  rw [staticSize, h]
  rfl

theorem not_transGen_of_rank {R : TypeId → TypeId → Prop} (rank : TypeId → Nat) (h : ∀ a b, R a b → rank b < rank a)
    (id : TypeId) : ¬ Relation.TransGen R id id := by
  have hlt : ∀ a b, Relation.TransGen R a b → rank b < rank a := by
    intro a b hab
    induction hab with
    | single hr => exact h _ _ hr
    | tail _ hr ih => exact Nat.lt_trans (h _ _ hr) ih
  intro hid
  exact Nat.lt_irrefl _ (hlt id id hid)

/-- Each field begins where the one before it ends, the first at offset `start`. -/
def Follows (s : Schema) : Nat → List Field → Prop
  | _, [] => True
  | start, f :: fs => f.offset.toNat = start ∧ s.Follows (start + s.staticSize f.type) fs

theorem total_cons (s : Schema) (f : Field) (fs : List Field) :
    s.total (f :: fs) = s.staticSize f.type + s.total fs := by
  rw [total, List.map_cons, List.sum_cons, total]

theorem follows_of_offsets {fs : List Field} {start : Nat}
    (h : ∀ i : Fin fs.length, (fs.get i).offset.toNat = start + s.total (fs.take i)) : s.Follows start fs := by
  induction fs generalizing start with
  | nil => trivial
  | cons f fs ih =>
    refine ⟨h ⟨0, by simp⟩, ih fun i => ?_⟩
    have hi := h ⟨i + 1, by simp⟩
    rw [List.take_succ_cons, total_cons, ← Nat.add_assoc] at hi
    exact hi

theorem LaidOut.follows (hs : s.LaidOut) {q : SequenceType} (ht : s.type? id = some (.sequence q)) :
    s.Follows 0 q.fields := by
  apply follows_of_offsets
  simpa using (hs.contiguous id _ ht).1

theorem Follows.le_total {fs : List Field} {start : Nat} (h : s.Follows start fs) {f : Field} (hf : f ∈ fs) :
    f.offset.toNat + s.staticSize f.type ≤ start + s.total fs := by
  induction fs generalizing start with
  | nil => cases hf
  | cons g gs ih =>
    obtain ⟨hg, hgs⟩ := h
    rw [total_cons]
    rcases List.mem_cons.1 hf with rfl | hf
    · omega
    · have := ih hgs hf
      omega

/-- A tree of nodes: bytes, text, an embedded point with an enum, a list of the type itself, and a union. -/
def sample : Schema where
  name := "sample"
  types := #[
    .primitive .u8, .string, .list 0,
    .enum ⟨"Color", 2, [⟨"red", 1⟩, ⟨"blue", 300⟩]⟩,
    .sequence ⟨"Point", 10, [⟨"x", 0, 8⟩, ⟨"color", 8, 3⟩]⟩,
    .sequence ⟨"Node", 28, [⟨"id", 0, 0⟩, ⟨"at", 1, 4⟩, ⟨"scale", 11, 9⟩, ⟨"name", 15, 1⟩, ⟨"data", 17, 2⟩,
      ⟨"kids", 21, 6⟩, ⟨"extra", 25, 7⟩]⟩,
    .list 5,
    .oneOf ⟨["Node", "extra"], [⟨"at", 0, 4⟩, ⟨"note", 1, 1⟩]⟩,
    .primitive .i64, .primitive .f32]
  decls := [3, 4, 5]
  oneOfs := [7]

theorem sample_laidOut : sample.LaidOut where
  refs id t h := (by decide : ∀ t ∈ sample.types.toList, ∀ ref ∈ t.refs, ref < sample.types.size) t (type?_mem h)
  acyclic := by
    apply not_transGen_of_rank fun id => if id = 5 then 2 else if id = 4 then 1 else 0
    rintro a b ⟨q, hq, f, hf, rfl⟩
    have ha : a < 10 := type?_lt hq
    interval_cases a <;> cases hq
    all_goals
      revert f
      decide
  contiguous id t h := (by decide : ∀ t ∈ sample.types.toList, t.Contiguous sample) t (type?_mem h)

theorem sample_lawful : sample.Lawful where
  toLaidOut := sample_laidOut
  lists := by
    have hlt : ∀ a b, sample.Lists a b → (if b = 2 ∨ b = 6 then 1 else 0) < if a = 2 ∨ a = 6 then 1 else 0 := by
      intro a b h
      have ha : a < 10 := type?_lt h
      unfold Lists at h
      interval_cases a <;> cases h <;> decide
    exact Subrelation.wf (fun {b a} h => hlt a b h) (measure fun id : TypeId => if id = 2 ∨ id = 6 then 1 else 0).wf
  distinct id t h := (by decide : ∀ t ∈ sample.types.toList, t.Distinct) t (type?_mem h)

end Schema

end Flatwire
