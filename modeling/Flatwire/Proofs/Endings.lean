import Mathlib.Data.Fintype.Card
import Mathlib.Order.WellFounded
import Flatwire.Docs
import Flatwire.Generate.Reserved
import Flatwire.Proofs.AsciiText
import Flatwire.Proofs.Interchange
import Flatwire.Proofs.Lawful
import Flatwire.Schema.LayoutText

/-! Where printing comes to an end. The name of a type and the search for reserved words follow references, and a
document may describe types that refer to themselves. Such a walk ends at a depth of as many types as there are or not
at all: if it needs more, some type on the way needs one step less, another one two steps less, and so on, and there
are not so many types. So a schema that was read can be printed exactly if no list in it leads back to itself. -/

namespace Flatwire

variable {d : Nat}

/-- References can be followed from the type on without an end. -/
def Forever (R : TypeId → TypeId → Prop) (id : TypeId) : Prop := ∃ f : Nat → TypeId, f 0 = id ∧ ∀ i, R (f i) (f (i + 1))

theorem acc_iff_not_forever {R : TypeId → TypeId → Prop} {id : TypeId} : Acc (fun b a => R a b) id ↔ ¬ Forever R id := by
  have h := not_acc_iff_exists_descending_chain (r := fun b a => R a b) (x := id)
  rw [Forever, ← h, not_not]

theorem Forever.step {R : TypeId → TypeId → Prop} {id : TypeId} (h : Forever R id) : ∃ b, R id b ∧ Forever R b := by
  obtain ⟨f, rfl, hf⟩ := h
  exact ⟨f 1, hf 0, fun i => f (i + 1), rfl, fun i => hf (i + 1)⟩

/-- Walks to a limited depth. The ones that a type needs one step more for than another walk does are made by way of
that walk. -/
structure Descent (size : Nat) (Ends : Nat → TypeId → Prop) : Prop where
  mono : ∀ d id, Ends d id → Ends (d + 1) id
  step : ∀ d id, Ends (d + 2) id → ¬ Ends (d + 1) id → id < size ∧ ∃ b, Ends (d + 1) b ∧ ¬ Ends d b
  zero : ∀ id, ¬ Ends 0 id

namespace Descent

variable {size : Nat} {Ends : Nat → TypeId → Prop} (h : Descent size Ends) {id : TypeId}

include h

theorem mono_le {d' : Nat} (hd : d ≤ d') (hid : Ends d id) : Ends d' id := by
  induction hd with
  | refl => exact hid
  | step _ ih => exact h.mono _ _ ih

theorem exists_tight (hid : Ends (d + 1) id) (hnot : ¬ Ends d id) {k : Nat} (hk : k ≤ d) :
    ∃ b, Ends (k + 1) b ∧ ¬ Ends k b := by
  induction d generalizing id with
  | zero =>
    obtain rfl : k = 0 := Nat.le_zero.1 hk
    exact ⟨id, hid, hnot⟩
  | succ d ih =>
    rcases Nat.lt_or_eq_of_le hk with hlt | rfl
    · obtain ⟨-, b, hb, hnb⟩ := h.step d id hid hnot
      exact ih hb hnb (Nat.le_of_lt_succ hlt)
    · exact ⟨id, hid, hnot⟩

theorem tight_le (hid : Ends (d + 1) id) (hnot : ¬ Ends d id) : d ≤ size := by
  have htight : ∀ k : Fin d, ∃ b : Fin size, Ends (k + 2) b ∧ ¬ Ends (k + 1) b := by
    intro k
    obtain ⟨b, hb, hnb⟩ := h.exists_tight hid hnot (Nat.succ_le_of_lt k.isLt)
    exact ⟨⟨b, (h.step k b hb hnb).1⟩, hb, hnb⟩
  choose f hf hnf using htight
  have hlt : ∀ i j : Fin d, i < j → f i ≠ f j := fun i j hij heq =>
    hnf j (h.mono_le (Nat.add_le_add_right (Nat.succ_le_of_lt hij) 1) (heq ▸ hf i))
  have hinj : Function.Injective f := by
    intro i j heq
    rcases Nat.lt_trichotomy i j with hij | hij | hij
    · exact absurd heq (hlt i j hij)
    · exact Fin.ext hij
    · exact absurd heq.symm (hlt j i hij)
  simpa using Fintype.card_le_of_injective f hinj

theorem ends_within (hid : Ends d id) : Ends (size + 1) id := by
  induction d with
  | zero => exact absurd hid (h.zero id)
  | succ d ih =>
    by_cases hd : Ends d id
    · exact ih hd
    · exact h.mono_le (Nat.succ_le_succ (h.tight_le hid hd)) hid

end Descent

namespace Schema

variable {s : Schema} {id : TypeId} {n : Bytes}

/-! ### Names of types -/

theorem typeNameAux_list {elem : TypeId} (ht : s.type? id = some (.list elem)) (d : Nat) :
    s.typeNameAux (d + 1) id =
      (s.typeNameAux d elem).map fun n => Bytes.ofString "[" ++ n ++ Bytes.ofString "]" := by
  simp only [typeNameAux, ht]

theorem typeNameAux_succ_of_not_list (ht : ∀ elem, s.type? id ≠ some (.list elem)) (d d' : Nat) :
    s.typeNameAux (d + 1) id = s.typeNameAux (d' + 1) id := by
  cases hid : s.type? id with
  | none => simp only [typeNameAux, hid]
  | some t =>
    cases t with
    | list elem => exact absurd hid (ht elem)
    | primitive | string | enum | sequence | oneOf => simp only [typeNameAux, hid]

theorem typeNameAux_mono (h : s.typeNameAux d id = some n) : s.typeNameAux (d + 1) id = some n := by
  induction d generalizing id n with
  | zero => cases h
  | succ d ih =>
    by_cases hlist : ∃ elem, s.type? id = some (.list elem)
    · obtain ⟨elem, ht⟩ := hlist
      rw [typeNameAux_list ht] at h ⊢
      obtain ⟨m, hm, rfl⟩ := Option.map_eq_some_iff.1 h
      rw [ih hm, Option.map_some]
    · rw [typeNameAux_succ_of_not_list (fun elem ht => hlist ⟨elem, ht⟩) (d + 1) d, h]

theorem descent_typeNameAux (s : Schema) : Descent s.types.size fun d id => ∃ n, s.typeNameAux d id = some n where
  mono d id := by
    rintro ⟨n, h⟩
    exact ⟨n, typeNameAux_mono h⟩
  step d id := by
    rintro ⟨n, h⟩ hnot
    by_cases hlist : ∃ elem, s.type? id = some (.list elem)
    · obtain ⟨elem, ht⟩ := hlist
      rw [typeNameAux_list ht] at h
      obtain ⟨m, hm, -⟩ := Option.map_eq_some_iff.1 h
      refine ⟨type?_lt ht, elem, ⟨m, hm⟩, ?_⟩
      rintro ⟨m', hm'⟩
      exact hnot ⟨_, by rw [typeNameAux_list ht, hm', Option.map_some]⟩
    · rw [typeNameAux_succ_of_not_list (fun elem ht => hlist ⟨elem, ht⟩) (d + 1) d] at h
      exact absurd ⟨n, h⟩ hnot
  zero id := by
    rintro ⟨n, h⟩
    cases h

theorem typeNameAux_mono_le {d' : Nat} (hd : d ≤ d') (h : s.typeNameAux d id = some n) :
    s.typeNameAux d' id = some n := by
  induction hd with
  | refl => exact h
  | step _ ih => exact typeNameAux_mono ih

theorem typeName?_eq_some_iff : s.typeName? id = some n ↔ ∃ d, s.typeNameAux d id = some n := by
  refine ⟨fun h => ⟨_, h⟩, ?_⟩
  rintro ⟨d, h⟩
  obtain ⟨m, hm⟩ := s.descent_typeNameAux.ends_within ⟨n, h⟩
  -- at the larger of both depths the name is found with either of them
  have hn := typeNameAux_mono_le (Nat.le_max_left d (s.types.size + 1)) h
  rw [typeNameAux_mono_le (Nat.le_max_right d (s.types.size + 1)) hm] at hn
  rw [typeName?, hm, hn]

theorem not_forever_of_typeNameAux (h : s.typeNameAux d id = some n) : ¬ Forever s.Lists id := by
  induction d generalizing id n with
  | zero => cases h
  | succ d ih =>
    intro hforever
    obtain ⟨elem, ht, helem⟩ := hforever.step
    rw [typeNameAux_list ht] at h
    obtain ⟨m, hm, -⟩ := Option.map_eq_some_iff.1 h
    exact ih hm helem

theorem exists_typeNameAux (hrefs : ∀ id e, s.type? id = some (.list e) → e < s.types.size)
    (h : Acc (fun b a => s.Lists a b) id) (hid : id < s.types.size) : ∃ d n, s.typeNameAux d id = some n := by
  induction h with
  | intro id _ ih =>
    have ht : s.type? id = some s.types[id] := Array.getElem?_eq_getElem hid
    cases htype : s.types[id] with
    | list elem =>
      rw [htype] at ht
      obtain ⟨d, n, h⟩ := ih elem ht (hrefs id elem ht)
      exact ⟨d + 1, _, by rw [typeNameAux_list ht, h, Option.map_some]⟩
    | primitive | string | enum | sequence | oneOf =>
      rw [htype] at ht
      refine ⟨1, ?_⟩
      simp [typeNameAux, ht]

theorem exists_typeName?_iff (hrefs : ∀ id e, s.type? id = some (.list e) → e < s.types.size)
    (hid : id < s.types.size) : (∃ n, s.typeName? id = some n) ↔ ¬ Forever s.Lists id := by
  constructor
  · rintro ⟨n, h⟩
    exact not_forever_of_typeNameAux h
  · intro h
    obtain ⟨d, n, hn⟩ := exists_typeNameAux hrefs (acc_iff_not_forever.2 h) hid
    exact ⟨n, typeName?_eq_some_iff.2 ⟨d, hn⟩⟩

/-! ### Members -/

theorem mem_sequences {p : TypeId × SequenceType} :
    p ∈ s.sequences ↔ p.1 ∈ s.decls ∧ s.type? p.1 = some (.sequence p.2) := by
  rw [sequences, List.mem_filterMap]
  constructor
  · rintro ⟨id, hid, hp⟩
    split at hp
    · rename_i q ht
      cases hp
      exact ⟨hid, ht⟩
    · cases hp
  · rintro ⟨hid, ht⟩
    exact ⟨p.1, hid, by rw [ht]⟩

theorem mem_unions {p : TypeId × OneOfType} :
    p ∈ s.unions ↔ p.1 ∈ s.oneOfs ∧ s.type? p.1 = some (.oneOf p.2) := by
  rw [unions, List.mem_filterMap]
  constructor
  · rintro ⟨id, hid, hp⟩
    split at hp
    · rename_i o ht
      cases hp
      exact ⟨hid, ht⟩
    · cases hp
  · rintro ⟨hid, ht⟩
    exact ⟨p.1, hid, by rw [ht]⟩

/-- The types of all members of sequences and unions. -/
def memberTypes (s : Schema) : List TypeId :=
  s.sequences.flatMap (fun p => p.2.fields.map (·.type)) ++ s.unions.flatMap fun p => p.2.variants.map (·.type)

theorem memberTypes_lt (hrefs : ∀ id t, s.type? id = some t → ∀ ref ∈ t.refs, ref < s.types.size) :
    ∀ id ∈ s.memberTypes, id < s.types.size := by
  intro id hid
  rw [memberTypes, List.mem_append, List.mem_flatMap, List.mem_flatMap] at hid
  rcases hid with ⟨p, hp, hid⟩ | ⟨p, hp, hid⟩
  · exact hrefs p.1 _ (mem_sequences.1 hp).2 id hid
  · exact hrefs p.1 _ (mem_unions.1 hp).2 id hid

/-- Every member can be written down with its type. -/
def Writable (s : Schema) : Prop := ∀ id ∈ s.memberTypes, (s.typeName? id).isSome

theorem writable_iff (hrefs : ∀ id e, s.type? id = some (.list e) → e < s.types.size)
    (hmembers : ∀ id ∈ s.memberTypes, id < s.types.size) :
    s.Writable ↔ ∀ id ∈ s.memberTypes, ¬ Forever s.Lists id := by
  refine forall₂_congr fun id hid => ?_
  rw [Option.isSome_iff_exists, exists_typeName?_iff hrefs (hmembers id hid)]

theorem mem_declTypes_sequence {q : SequenceType} : .sequence q ∈ s.declTypes ↔ ∃ p ∈ s.sequences, p.2 = q := by
  rw [declTypes, List.mem_filterMap]
  constructor
  · rintro ⟨id, hid, ht⟩
    exact ⟨(id, q), mem_sequences.2 ⟨hid, ht⟩, rfl⟩
  · rintro ⟨p, hp, rfl⟩
    exact ⟨p.1, mem_sequences.1 hp⟩

theorem forall_memberTypes {P : TypeId → Prop} : (∀ id ∈ s.memberTypes, P id) ↔
    (∀ q, .sequence q ∈ s.declTypes → ∀ f ∈ q.fields, P f.type) ∧ ∀ p ∈ s.unions, ∀ v ∈ p.2.variants, P v.type := by
  rw [memberTypes, List.forall_mem_append, List.forall_mem_flatMap, List.forall_mem_flatMap]
  simp only [List.forall_mem_map, mem_declTypes_sequence]
  refine and_congr_left fun _ => ⟨?_, fun h p hp => h p.2 ⟨p, hp, rfl⟩⟩
  rintro h q ⟨p, hp, rfl⟩
  exact h p hp

/-- The first type is a list or a union, with elements or a variant of the second. -/
def Nests (s : Schema) (a b : TypeId) : Prop :=
  s.type? a = some (.list b) ∨ ∃ o, s.type? a = some (.oneOf o) ∧ ∃ v ∈ o.variants, v.type = b

end Schema

/-! ### Searches -/

namespace Search

variable {α : Type}

/-- The second search finds what the first one does, if that ends. -/
def Le (a b : Search α) : Prop := ∀ r, a = some r → b = some r

/-- Whether the search ends, and if so whether it finds anything. -/
def outcome (a : Search α) : Option Bool := a.map Option.isSome

theorem orElse_eq_some {a : Search α} {f : Unit → Search α} {r : Option α} :
    orElse a f = some r ↔ (∃ x, a = some (some x) ∧ r = some x) ∨ a = some none ∧ f () = some r := by
  rcases a with _ | _ | x <;> simp [orElse, eq_comm]

theorem exists_orElse {a : Search α} {f : Unit → Search α} (ha : ∃ r, a = some r) (hf : ∃ r, f () = some r) :
    ∃ r, orElse a f = some r := by
  obtain ⟨_ | x, rfl⟩ := ha
  · exact hf
  · exact ⟨some x, rfl⟩

theorem orElse_le {a b : Search α} {f g : Unit → Search α} (h : Le a b) (hfg : Le (f ()) (g ())) :
    Le (orElse a f) (orElse b g) := by
  intro r hr
  rcases orElse_eq_some.1 hr with ⟨x, ha, rfl⟩ | ⟨ha, hf⟩
  · exact orElse_eq_some.2 (.inl ⟨x, h _ ha, rfl⟩)
  · exact orElse_eq_some.2 (.inr ⟨h _ ha, hfg r hf⟩)

theorem outcome_orElse {a b : Search α} {f g : Unit → Search α} (h : outcome a = outcome b)
    (hfg : outcome (f ()) = outcome (g ())) : outcome (orElse a f) = outcome (orElse b g) := by
  rcases a with _ | _ | x <;> rcases b with _ | _ | y <;> simp_all [outcome, orElse]

end Search

section SearchEach

open Search

variable {α β : Type} {f g : α → Search β} {xs : List α}

theorem searchEach_le (h : ∀ x ∈ xs, Le (f x) (g x)) : Le (searchEach f xs) (searchEach g xs) := by
  induction xs with
  | nil => exact fun _ hr => hr
  | cons x xs ih =>
    rw [List.forall_mem_cons] at h
    exact orElse_le h.1 (ih h.2)

theorem outcome_searchEach (h : ∀ x ∈ xs, outcome (f x) = outcome (g x)) :
    outcome (searchEach f xs) = outcome (searchEach g xs) := by
  induction xs with
  | nil => rfl
  | cons x xs ih =>
    rw [List.forall_mem_cons] at h
    exact outcome_orElse h.1 (ih h.2)

theorem exists_searchEach (h : ∀ x ∈ xs, ∃ r, f x = some r) : ∃ r, searchEach f xs = some r := by
  induction xs with
  | nil => exact ⟨none, rfl⟩
  | cons x xs ih =>
    rw [List.forall_mem_cons] at h
    exact exists_orElse h.1 (ih h.2)

theorem exists_mem_of_searchEach (hle : ∀ x ∈ xs, Le (g x) (f x)) (hf : ∃ r, searchEach f xs = some r)
    (hg : ¬ ∃ r, searchEach g xs = some r) : ∃ x ∈ xs, (∃ r, f x = some r) ∧ ¬ ∃ r, g x = some r := by
  induction xs with
  | nil => exact absurd ⟨none, rfl⟩ hg
  | cons x xs ih =>
    rw [List.forall_mem_cons] at hle
    obtain ⟨r, hr⟩ := hf
    rcases hx : g x with _ | _ | b
    · have hfx : ∃ r, f x = some r := by
        rcases orElse_eq_some.1 hr with ⟨b, hb, -⟩ | ⟨hb, -⟩
        · exact ⟨_, hb⟩
        · exact ⟨_, hb⟩
      exact ⟨x, List.mem_cons_self, hfx, by simp [hx]⟩
    · have hrest : ∃ r, searchEach f xs = some r := by
        rcases orElse_eq_some.1 hr with ⟨b, hb, -⟩ | ⟨-, hb⟩
        · rw [hle.1 _ hx] at hb
          cases hb
        · exact ⟨r, hb⟩
      obtain ⟨y, hy, hends⟩ := ih hle.2 hrest fun ⟨r, hr⟩ => hg ⟨r, orElse_eq_some.2 (.inr ⟨hx, hr⟩)⟩
      exact ⟨y, List.mem_cons_of_mem x hy, hends⟩
    · exact absurd ⟨_, orElse_eq_some.2 (.inl ⟨b, hx, rfl⟩)⟩ hg

theorem searchEach_eq_none (h : ∀ x ∈ xs, ∀ r, f x = some r → r = none) (hx : ∃ x ∈ xs, f x = none) :
    searchEach f xs = none := by
  induction xs with
  | nil =>
    obtain ⟨x, hx, -⟩ := hx
    cases hx
  | cons x xs ih =>
    rw [List.forall_mem_cons] at h
    obtain ⟨y, hy, hnone⟩ := hx
    rw [searchEach]
    rcases hfx : f x with _ | r
    · rfl
    · obtain rfl := h.1 r hfx
      rcases List.mem_cons.1 hy with rfl | hy
      · rw [hfx] at hnone
        cases hnone
      · exact ih h.2 ⟨y, hy, hnone⟩

variable {γ : Type} {names : α → List γ} {pick? : γ → Option β}

theorem findSome?_of_searchEach (h : ∀ x ∈ xs, ∀ r, f x = some r → (names x).findSome? pick? = r) {r : Option β}
    (hr : searchEach f xs = some r) : (xs.flatMap names).findSome? pick? = r := by
  induction xs generalizing r with
  | nil =>
    cases hr
    rfl
  | cons x xs ih =>
    rw [List.forall_mem_cons] at h
    rw [List.flatMap_cons, List.findSome?_append]
    rcases orElse_eq_some.1 hr with ⟨b, hb, rfl⟩ | ⟨hb, hrest⟩
    · rw [h.1 _ hb, Option.some_or]
    · rw [h.1 _ hb, Option.none_or, ih h.2 hrest]

end SearchEach

/-- What is reserved in a name. -/
def reservedAs? (word? : Bytes → Option Bytes) (n : SchemaName) : Option ReservedName :=
  (word? n.name).map fun w => ⟨n, w⟩

section Variants

open Search

variable {s : Schema} {word? : Bytes → Option Bytes} {id : TypeId} {r : Option ReservedName}

theorem exists_tryName (n : SchemaName) : ∃ r, tryName word? n = some r := ⟨_, rfl⟩

/-- The search at a variant and under it. -/
def searchVariant (s : Schema) (word? : Bytes → Option Bytes) (d : Nat) (path : List Bytes) (v : Variant) :
    Search ReservedName :=
  orElse (tryName word? ⟨.oneOfVariant, path ++ [v.name]⟩) fun _ => searchVariants s word? d v.type (path ++ [v.name])

theorem searchVariants_list {elem : TypeId} (ht : s.type? id = some (.list elem)) (d : Nat) (path : List Bytes) :
    searchVariants s word? (d + 1) id path = searchVariants s word? d elem path := by
  simp only [searchVariants, ht]

theorem searchVariants_oneOf {o : OneOfType} (ht : s.type? id = some (.oneOf o)) (d : Nat) (path : List Bytes) :
    searchVariants s word? (d + 1) id path = searchEach (searchVariant s word? d path) o.variants := by
  simp only [searchVariants, ht]
  rfl

theorem searchVariants_of_not_nests (hlist : ∀ elem, s.type? id ≠ some (.list elem))
    (hone : ∀ o, s.type? id ≠ some (.oneOf o)) (d : Nat) (path : List Bytes) :
    searchVariants s word? (d + 1) id path = some none := by
  unfold searchVariants
  split
  · exact absurd ‹_› (hlist _)
  · exact absurd ‹_› (hone _)
  · rfl

theorem Schema.nests_cases (s : Schema) (id : TypeId) :
    (∃ elem, s.type? id = some (.list elem)) ∨ (∃ o, s.type? id = some (.oneOf o)) ∨
      (∀ elem, s.type? id ≠ some (.list elem)) ∧ ∀ o, s.type? id ≠ some (.oneOf o) := by
  by_cases hlist : ∃ elem, s.type? id = some (.list elem)
  · exact .inl hlist
  by_cases hone : ∃ o, s.type? id = some (.oneOf o)
  · exact .inr (.inl hone)
  exact .inr (.inr ⟨fun elem h => hlist ⟨elem, h⟩, fun o h => hone ⟨o, h⟩⟩)

theorem searchVariants_mono (d : Nat) (id : TypeId) (path : List Bytes) :
    Le (searchVariants s word? d id path) (searchVariants s word? (d + 1) id path) := by
  induction d generalizing id path with
  | zero => exact fun _ h => nomatch h
  | succ d ih =>
    rcases s.nests_cases id with ⟨elem, ht⟩ | ⟨o, ht⟩ | ⟨hlist, hone⟩
    · rw [searchVariants_list ht, searchVariants_list ht]
      exact ih elem path
    · rw [searchVariants_oneOf ht, searchVariants_oneOf ht]
      exact searchEach_le fun v _ => orElse_le (fun _ h => h) (ih v.type _)
    · rw [searchVariants_of_not_nests hlist hone, searchVariants_of_not_nests hlist hone]
      exact fun _ h => h

theorem searchVariants_mono_le {d' : Nat} (hd : d ≤ d') (id : TypeId) (path : List Bytes) :
    Le (searchVariants s word? d id path) (searchVariants s word? d' id path) := by
  induction hd with
  | refl => exact fun _ h => h
  | step _ ih => exact fun r h => searchVariants_mono _ id path r (ih r h)

/-- What a search comes to does not depend on the path that leads to it: a variant is known by its own name. -/
theorem outcome_searchVariants (d : Nat) (id : TypeId) (path path' : List Bytes) :
    outcome (searchVariants s word? d id path) = outcome (searchVariants s word? d id path') := by
  induction d generalizing id path path' with
  | zero => rfl
  | succ d ih =>
    rcases s.nests_cases id with ⟨elem, ht⟩ | ⟨o, ht⟩ | ⟨hlist, hone⟩
    · rw [searchVariants_list ht, searchVariants_list ht]
      exact ih elem path path'
    · rw [searchVariants_oneOf ht, searchVariants_oneOf ht]
      refine outcome_searchEach fun v _ => outcome_orElse ?_ (ih v.type _ _)
      simp [outcome, tryName, SchemaName.name]
    · rw [searchVariants_of_not_nests hlist hone, searchVariants_of_not_nests hlist hone]

theorem exists_searchVariants_iff (d : Nat) (id : TypeId) (path path' : List Bytes) :
    (∃ r, searchVariants s word? d id path = some r) ↔ ∃ r, searchVariants s word? d id path' = some r := by
  have h : (outcome (searchVariants s word? d id path)).isSome = (outcome (searchVariants s word? d id path')).isSome :=
    congrArg Option.isSome (outcome_searchVariants d id path path')
  rw [outcome, outcome, Option.isSome_map, Option.isSome_map] at h
  rw [← Option.isSome_iff_exists, ← Option.isSome_iff_exists, h]

theorem descent_searchVariants (s : Schema) (word? : Bytes → Option Bytes) :
    Descent s.types.size fun d id => ∃ r, searchVariants s word? d id [] = some r where
  mono d id := by
    rintro ⟨r, h⟩
    exact ⟨r, searchVariants_mono d id [] r h⟩
  step d id := by
    intro hends hnot
    rcases s.nests_cases id with ⟨elem, ht⟩ | ⟨o, ht⟩ | ⟨hlist, hone⟩
    · rw [searchVariants_list ht] at hends hnot
      exact ⟨Schema.type?_lt ht, elem, hends, hnot⟩
    · rw [searchVariants_oneOf ht] at hends hnot
      have hle : ∀ v ∈ o.variants, Le (searchVariant s word? d [] v) (searchVariant s word? (d + 1) [] v) :=
        fun v _ => orElse_le (fun _ h => h) (searchVariants_mono d v.type _)
      obtain ⟨v, -, ⟨r, hr⟩, hv⟩ := exists_mem_of_searchEach hle hends hnot
      refine ⟨Schema.type?_lt ht, v.type, ?_, ?_⟩
      · rcases orElse_eq_some.1 hr with ⟨x, hx, rfl⟩ | ⟨-, hr⟩
        · exact absurd ⟨_, orElse_eq_some.2 (.inl ⟨x, hx, rfl⟩)⟩ hv
        · exact (exists_searchVariants_iff _ _ _ _).1 ⟨r, hr⟩
      · intro hv'
        obtain ⟨r', hr'⟩ := (exists_searchVariants_iff d v.type [] ([] ++ [v.name])).1 hv'
        rcases orElse_eq_some.1 hr with ⟨x, hx, rfl⟩ | ⟨hx, -⟩
        · exact hv ⟨_, orElse_eq_some.2 (.inl ⟨x, hx, rfl⟩)⟩
        · exact hv ⟨r', orElse_eq_some.2 (.inr ⟨hx, hr'⟩)⟩
    · rw [searchVariants_of_not_nests hlist hone] at hnot
      exact absurd ⟨none, rfl⟩ hnot
  zero id := by
    rintro ⟨r, h⟩
    cases h

theorem searchVariants_le (d : Nat) (id : TypeId) (path : List Bytes) :
    Le (searchVariants s word? d id path) (searchVariants s word? (s.types.size + 1) id path) := by
  intro r h
  have hends := (descent_searchVariants s word?).ends_within ((exists_searchVariants_iff d id path []).1 ⟨r, h⟩)
  obtain ⟨r', h'⟩ := (exists_searchVariants_iff _ id [] path).1 hends
  have hr := searchVariants_mono_le (Nat.le_max_left d (s.types.size + 1)) id path r h
  rw [searchVariants_mono_le (Nat.le_max_right d (s.types.size + 1)) id path r' h'] at hr
  rw [h', hr]

theorem exists_searchVariants (h : Acc (fun b a => s.Nests a b) id) (path : List Bytes) :
    ∃ r, searchVariants s word? (s.types.size + 1) id path = some r := by
  induction h generalizing path with
  | intro id _ ih =>
    have hnext : ∃ r, searchVariants s word? (s.types.size + 2) id path = some r := by
      rcases s.nests_cases id with ⟨elem, ht⟩ | ⟨o, ht⟩ | ⟨hlist, hone⟩
      · rw [searchVariants_list ht]
        exact ih elem (.inl ht) path
      · rw [searchVariants_oneOf ht]
        refine exists_searchEach fun v hv => exists_orElse (exists_tryName _) ?_
        exact ih v.type (.inr ⟨o, ht, v, hv, rfl⟩) (path ++ [v.name])
      · exact ⟨none, searchVariants_of_not_nests hlist hone _ path⟩
    obtain ⟨r, hr⟩ := hnext
    exact ⟨r, searchVariants_le _ id path r hr⟩

/-- The names of the variants under a type, to a depth. -/
def variantNames (s : Schema) : Nat → TypeId → List Bytes → List SchemaName
  | 0, _, _ => []
  | depth + 1, id, path =>
    match s.type? id with
    | some (.list elem) => variantNames s depth elem path
    | some (.oneOf o) => o.variants.flatMap fun v =>
        ⟨.oneOfVariant, path ++ [v.name]⟩ :: variantNames s depth v.type (path ++ [v.name])
    | _ => []

theorem variantNames_oneOf {o : OneOfType} (ht : s.type? id = some (.oneOf o)) (d : Nat) (path : List Bytes) :
    variantNames s (d + 1) id path = o.variants.flatMap fun v =>
      ⟨.oneOfVariant, path ++ [v.name]⟩ :: variantNames s d v.type (path ++ [v.name]) := by
  simp only [variantNames, ht]

theorem findSome?_of_orElse {n : SchemaName} {names : List SchemaName} {rest : Unit → Search ReservedName}
    (h : ∀ r, rest () = some r → names.findSome? (reservedAs? word?) = r)
    (hr : orElse (tryName word? n) rest = some r) : (n :: names).findSome? (reservedAs? word?) = r := by
  rw [List.findSome?_cons]
  rcases orElse_eq_some.1 hr with ⟨x, hx, rfl⟩ | ⟨hx, hrest⟩
  · have hn : reservedAs? word? n = some x := Option.some.inj hx
    rw [hn]
  · have hn : reservedAs? word? n = none := Option.some.inj hx
    rw [hn, h r hrest]

theorem findSome?_variantNames {path : List Bytes} (h : searchVariants s word? d id path = some r) :
    (variantNames s d id path).findSome? (reservedAs? word?) = r := by
  induction d generalizing id path r with
  | zero => cases h
  | succ d ih =>
    rcases s.nests_cases id with ⟨elem, ht⟩ | ⟨o, ht⟩ | ⟨hlist, hone⟩
    · rw [searchVariants_list ht] at h
      simp only [variantNames, ht]
      exact ih h
    · rw [searchVariants_oneOf ht] at h
      rw [variantNames_oneOf ht]
      exact findSome?_of_searchEach (fun v _ _ hr => findSome?_of_orElse (fun _ h => ih h) hr) h
    · rw [searchVariants_of_not_nests hlist hone] at h
      cases h
      unfold variantNames
      split
      · exact absurd ‹_› (hlist _)
      · exact absurd ‹_› (hone _)
      · rfl

theorem searchEach_members_eq_none {α : Type} {xs : List α} {name : α → SchemaName} {names : α → List SchemaName}
    {under : α → Search ReservedName}
    (hnames : (xs.flatMap fun x => name x :: names x).findSome? (reservedAs? word?) = none)
    (hunder : ∀ x ∈ xs, ∀ r, under x = some r → (names x).findSome? (reservedAs? word?) = r)
    (hend : ∃ x ∈ xs, (names x).findSome? (reservedAs? word?) = none → under x = none) :
    searchEach (fun x => orElse (tryName word? (name x)) fun _ => under x) xs = none := by
  have hnone : ∀ x ∈ xs, (name x :: names x).findSome? (reservedAs? word?) = none := by
    intro x hx
    rw [List.findSome?_eq_none_iff] at hnames ⊢
    exact fun n hn => hnames n (List.mem_flatMap.2 ⟨x, hx, hn⟩)
  obtain ⟨x, hx, hend⟩ := hend
  refine searchEach_eq_none (fun y hy r hr => ?_) ⟨x, hx, ?_⟩
  · rw [← findSome?_of_orElse (hunder y hy) hr, hnone y hy]
  · have hall := List.findSome?_eq_none_iff.1 (hnone x hx)
    rw [List.forall_mem_cons] at hall
    have htry : tryName word? (name x) = some none := congrArg some hall.1
    rw [htry]
    exact hend (List.findSome?_eq_none_iff.2 hall.2)

theorem searchVariants_of_forever {path : List Bytes} (h : Forever s.Nests id)
    (hnames : (variantNames s d id path).findSome? (reservedAs? word?) = none) :
    searchVariants s word? d id path = none := by
  induction d generalizing id path with
  | zero => rfl
  | succ d ih =>
    obtain ⟨b, hnests, hb⟩ := h.step
    rcases hnests with ht | ⟨o, ht, v, hv, rfl⟩
    · rw [searchVariants_list ht]
      simp only [variantNames, ht] at hnames
      exact ih hb hnames
    · rw [searchVariants_oneOf ht]
      rw [variantNames_oneOf ht] at hnames
      exact searchEach_members_eq_none hnames (fun _ _ _ => findSome?_variantNames) ⟨v, hv, ih hb⟩

/-! ### The names of a schema -/

theorem searchSequence_le (d : Nat) (q : SequenceType) :
    Le (searchSequence s word? d q) (searchSequence s word? (s.types.size + 1) q) :=
  orElse_le (fun _ h => h) (searchEach_le fun f _ => orElse_le (fun _ h => h) (searchVariants_le d f.type _))

theorem searchNames_le (d : Nat) : Le (searchNames s word? d) (searchNames s word? (s.types.size + 1)) :=
  orElse_le (fun _ h => h) (searchEach_le fun p _ => searchSequence_le d p.2)

theorem exists_searchEnum (e : EnumType) : ∃ r, searchEnum word? e = some r :=
  exists_searchEach fun n _ => exists_tryName n

theorem exists_searchNames (h : ∀ p ∈ s.sequences, ∀ f ∈ p.2.fields, ¬ Forever s.Nests f.type) :
    ∃ r, searchNames s word? (s.types.size + 1) = some r := by
  refine exists_orElse (exists_searchEach fun p _ => exists_searchEnum p.2) (exists_searchEach fun p hp => ?_)
  refine exists_orElse (exists_tryName _) (exists_searchEach fun f hf => ?_)
  exact exists_orElse (exists_tryName _) (exists_searchVariants (acc_iff_not_forever.2 (h p hp f hf)) _)

/-- The names in a sequence. -/
def sequenceNames (s : Schema) (d : Nat) (q : SequenceType) : List SchemaName :=
  ⟨.sequence, [q.name]⟩ :: q.fields.flatMap fun f =>
    ⟨.field, [q.name, f.name]⟩ :: variantNames s d f.type [q.name, f.name]

def enumNames (e : EnumType) : List SchemaName :=
  ⟨.enum, [e.name]⟩ :: e.variants.map fun v => ⟨.enumVariant, [e.name, v.name]⟩

/-- All names of a schema: those of the enums, then those of the sequences. -/
def Schema.names (s : Schema) : List SchemaName :=
  s.enums.flatMap (fun p => enumNames p.2) ++ s.sequences.flatMap fun p => sequenceNames s (s.types.size + 1) p.2

theorem findSome?_sequenceNames {q : SequenceType} (h : searchSequence s word? d q = some r) :
    (sequenceNames s d q).findSome? (reservedAs? word?) = r := by
  refine findSome?_of_orElse (fun r hr => ?_) h
  exact findSome?_of_searchEach (fun f _ _ hf => findSome?_of_orElse (fun _ h => findSome?_variantNames h) hf) hr

theorem findSome?_enumNames {e : EnumType} (h : searchEnum word? e = some r) :
    (enumNames e).findSome? (reservedAs? word?) = r := by
  have hone : ∀ n ∈ enumNames e, ∀ r, tryName word? n = some r → [n].findSome? (reservedAs? word?) = r := by
    intro n _ r hr
    obtain rfl : reservedAs? word? n = r := Option.some.inj hr
    rw [List.findSome?_singleton]
  have hfound := findSome?_of_searchEach hone h
  rwa [List.flatMap_singleton'] at hfound

theorem findSome?_names (h : searchNames s word? (s.types.size + 1) = some r) :
    s.names.findSome? (reservedAs? word?) = r := by
  rw [Schema.names, List.findSome?_append]
  have henums : ∀ r, searchEach (fun p => searchEnum word? p.2) s.enums = some r →
      (s.enums.flatMap fun p => enumNames p.2).findSome? (reservedAs? word?) = r :=
    fun r => findSome?_of_searchEach fun p _ _ => findSome?_enumNames
  rcases orElse_eq_some.1 h with ⟨x, hx, rfl⟩ | ⟨hx, hrest⟩
  · rw [henums _ hx, Option.some_or]
  · rw [henums _ hx, Option.none_or]
    exact findSome?_of_searchEach (fun p _ _ => findSome?_sequenceNames) hrest

theorem searchNames_of_forever (hnames : s.names.findSome? (reservedAs? word?) = none)
    (h : ∃ p ∈ s.sequences, ∃ f ∈ p.2.fields, Forever s.Nests f.type) :
    searchNames s word? (s.types.size + 1) = none := by
  obtain ⟨p, hp, f, hf, hforever⟩ := h
  rw [Schema.names, List.findSome?_append, Option.or_eq_none_iff] at hnames
  obtain ⟨henums, hsequences⟩ := hnames
  have hunder : ∀ q ∈ s.sequences, (sequenceNames s (s.types.size + 1) q.2).findSome? (reservedAs? word?) = none := by
    intro q hq
    rw [List.findSome?_eq_none_iff] at hsequences ⊢
    exact fun n hn => hsequences n (List.mem_flatMap.2 ⟨q, hq, hn⟩)
  obtain ⟨r, hr⟩ : ∃ r, searchEach (fun p => searchEnum word? p.2) s.enums = some r :=
    exists_searchEach fun p _ => exists_searchEnum p.2
  obtain rfl : none = r :=
    henums.symm.trans (findSome?_of_searchEach (fun p _ _ => findSome?_enumNames) hr)
  rw [searchNames, hr]
  refine searchEach_eq_none (fun q hq r hr => ?_) ⟨p, hp, ?_⟩
  · rw [← findSome?_sequenceNames hr, hunder q hq]
  · have hin := List.findSome?_eq_none_iff.1 (hunder p hp)
    rw [sequenceNames, List.forall_mem_cons] at hin
    have htry : tryName word? ⟨.sequence, [p.2.name]⟩ = some none := congrArg some hin.1
    rw [searchSequence, htry]
    exact searchEach_members_eq_none (List.findSome?_eq_none_iff.2 hin.2) (fun _ _ _ => findSome?_variantNames)
      ⟨f, hf, searchVariants_of_forever hforever⟩

end Variants

namespace Schema

variable {s : Schema} {words : List Bytes}

/-! ### Layout and page -/

/-- There is a result exactly under the condition, and it is the given one. -/
structure ExactIf {α : Type} (P : Prop) (a : Option α) (b : α) : Prop where
  result : P → a = some b
  only : a.isSome = true → P

namespace ExactIf

variable {α β γ : Type} {P Q : Prop} {a : Option α} {b : α}

theorem map (h : ExactIf P a b) (f : α → β) : ExactIf P (a.map f) (f b) :=
  ⟨fun hP => by rw [h.result hP, Option.map_some], fun hsome => h.only (by rwa [Option.isSome_map] at hsome)⟩

theorem mapM {p : α → Prop} {f : α → Option β} {g : α → β} (h : ∀ x, ExactIf (p x) (f x) (g x)) (xs : List α) :
    ExactIf (∀ x ∈ xs, p x) (xs.mapM f) (xs.map g) := by
  induction xs with
  | nil => exact ⟨fun _ => rfl, fun _ => nofun⟩
  | cons x xs ih =>
    rw [List.mapM_cons, List.forall_mem_cons]
    refine ⟨fun ⟨hx, hxs⟩ => ?_, fun hsome => ?_⟩
    · rw [(h x).result hx, ih.result hxs]
      rfl
    · obtain ⟨_, hsome⟩ := Option.isSome_iff_exists.1 hsome
      obtain ⟨y, hx, hsome⟩ := Option.bind_eq_some_iff.1 hsome
      obtain ⟨ys, hxs, -⟩ := Option.bind_eq_some_iff.1 hsome
      exact ⟨(h x).only (by rw [hx, Option.isSome_some]), ih.only (by rw [hxs, Option.isSome_some])⟩

theorem both {c : Option β} {d : β} (h : ExactIf P a b) (h' : ExactIf Q c d) (f : α → β → γ) :
    ExactIf (P ∧ Q) (do let x ← a; let y ← c; return f x y) (f b d) := by
  refine ⟨fun ⟨hP, hQ⟩ => ?_, fun hsome => ?_⟩
  · rw [h.result hP, h'.result hQ]
    rfl
  · obtain ⟨_, hsome⟩ := Option.isSome_iff_exists.1 hsome
    obtain ⟨x, hx, hsome⟩ := Option.bind_eq_some_iff.1 hsome
    obtain ⟨y, hy, -⟩ := Option.bind_eq_some_iff.1 hsome
    exact ⟨h.only (by rw [hx, Option.isSome_some]), h'.only (by rw [hy, Option.isSome_some])⟩

theorem exists_iff (h : ExactIf P a b) : (∃ x, a = some x) ↔ P :=
  ⟨fun ⟨x, hx⟩ => h.only (by rw [hx, Option.isSome_some]), fun hP => ⟨b, h.result hP⟩⟩

end ExactIf

/-- The members are put down with the names of their types. -/
theorem exact_members {α : Type} (type : α → TypeId) (text : α → Bytes → Bytes) (xs : List α) :
    ExactIf (∀ x ∈ xs, (s.typeName? (type x)).isSome = true) (xs.mapM fun x => (s.typeName? (type x)).map (text x))
      (xs.map fun x => text x (s.typeName (type x))) := by
  refine .mapM (fun x => ⟨fun h => ?_, fun h => by rwa [Option.isSome_map] at h⟩) xs
  obtain ⟨n, hn⟩ := Option.isSome_iff_exists.1 h
  rw [typeName, hn]
  rfl

/-- A declaration can be put down. -/
def WritableDecl (s : Schema) (t : TypeDef) : Prop :=
  ∀ q, t = .sequence q → ∀ f ∈ q.fields, (s.typeName? f.type).isSome = true

theorem exact_decl {α : Type} {decl? : TypeDef → Option α} {decl : TypeDef → α}
    (hsequence : ∀ q, ExactIf (∀ f ∈ q.fields, (s.typeName? f.type).isSome = true) (decl? (.sequence q))
      (decl (.sequence q)))
    (hother : ∀ t, (∀ q, t ≠ .sequence q) → decl? t = some (decl t)) (t : TypeDef) :
    ExactIf (s.WritableDecl t) (decl? t) (decl t) := by
  by_cases h : ∃ q, t = .sequence q
  · obtain ⟨q, rfl⟩ := h
    exact ⟨fun hq => (hsequence q).result (hq q rfl), fun hsome r hr => TypeDef.sequence.inj hr ▸ (hsequence q).only hsome⟩
  · exact ⟨fun _ => hother t fun q hq => h ⟨q, hq⟩, fun _ q hq => absurd ⟨q, hq⟩ h⟩

theorem writable_iff_decls : s.Writable ↔ (∀ t ∈ s.declTypes, s.WritableDecl t) ∧
    ∀ p ∈ s.unions, ∀ v ∈ p.2.variants, (s.typeName? v.type).isSome = true := by
  rw [Writable, forall_memberTypes]
  refine and_congr_left fun _ => ⟨?_, fun h q hq => h _ hq q rfl⟩
  rintro h t ht q rfl
  exact h q ht

theorem exact_layoutText? (s : Schema) : ExactIf s.Writable s.layoutText? s.layoutText := by
  have hdecl : ∀ t, ExactIf (s.WritableDecl t) (LayoutText.declLines? s t) (LayoutText.declLines s t) := by
    refine exact_decl (fun q => (exact_members Field.type LayoutText.fieldLine q.fields).map _) fun t ht => ?_
    cases t with
    | sequence q => exact absurd rfl (ht q)
    | primitive | string | list | enum | oneOf => rfl
  have hunion : ∀ p : TypeId × OneOfType, ExactIf (∀ v ∈ p.2.variants, (s.typeName? v.type).isSome = true)
      (LayoutText.oneOfLines? s p.2) (LayoutText.oneOfLines s p.2) :=
    fun p => (exact_members Variant.type LayoutText.variantLine p.2.variants).map _
  rw [writable_iff_decls]
  exact (ExactIf.both (.mapM hdecl s.declTypes) (.mapM hunion s.unions) _).map _

theorem exact_page? (s : Schema) : ExactIf s.Writable (Docs.page? s) (Docs.page s) := by
  have hdecl : ∀ t, ExactIf (s.WritableDecl t) (Docs.declSection? s t) (Docs.declSection s t) := by
    refine exact_decl (fun q => (exact_members Field.type Docs.fieldRow q.fields).map _) fun t ht => ?_
    cases t with
    | sequence q => exact absurd rfl (ht q)
    | primitive | string | list | enum | oneOf => rfl
  have hunion : ∀ p : TypeId × OneOfType, ExactIf (∀ v ∈ p.2.variants, (s.typeName? v.type).isSome = true)
      (Docs.unionSection? s p.2) (Docs.unionSection s p.2) :=
    fun p => (exact_members Variant.type Docs.variantRow p.2.variants).map _
  rw [writable_iff_decls]
  exact .both (.mapM hdecl s.declTypes) (.mapM hunion s.unions) _

theorem Portable.elem_lt (h : s.Portable) (id e : TypeId) (ht : s.type? id = some (.list e)) : e < s.types.size :=
  (h.types _ (type?_mem ht)).1

theorem Portable.refs_lt (h : s.Portable) (id : TypeId) (t : TypeDef) (ht : s.type? id = some t) :
    ∀ ref ∈ t.refs, ref < s.types.size := by
  have htype := h.types t (type?_mem ht)
  cases t with
  | primitive | string | enum => simp [TypeDef.refs]
  | list e => exact List.forall_mem_singleton.2 htype.1
  | sequence q => exact List.forall_mem_map.2 fun f hf => (htype.2 f hf).2.1
  | oneOf o => exact List.forall_mem_map.2 fun v hv => (htype.2 v hv).2.1

/-! ### Reserved words -/

section Check

variable [Libraries]

/-- The first of the words that a name matches. -/
def matchedWord? (words : List Bytes) : Bytes → Option Bytes :=
  reservedWord? (words.map fun w => (Text.snakeCase w, w))

theorem checkReserved?_eq (s : Schema) (words : List Bytes) : s.checkReserved? words =
    if words.isEmpty then some none else searchNames s (matchedWord? words) (s.types.size + 1) := by
  rw [checkReserved?, List.isEmpty_map]
  rfl

theorem findSome?_of_checkReserved? {r : Option ReservedName} (h : s.checkReserved? words = some r) :
    s.names.findSome? (reservedAs? (matchedWord? words)) = r := by
  rw [checkReserved?_eq] at h
  split_ifs at h with hempty
  · cases h
    rw [List.isEmpty_iff.1 hempty]
    exact List.findSome?_eq_none_iff.2 fun n _ => rfl
  · exact findSome?_names h

/-- A schema that is read from a document can be printed as far as lists do not lead back to themselves. The name of a
type is found, at whatever depth, exactly if its elements cannot be followed for ever; layout and page come out exactly
if this is so for every member. The check for reserved words ends wherever it does so at any depth, and finds what is
reserved; it always ends if no field leads to lists and unions without an end, and never if one does and nothing is
reserved. -/
theorem parseJson_printable_unless_looping {text : Bytes} {s : Schema} (h : parseJson text = .ok s) :
    (∀ id < s.types.size, ((∃ n, s.typeName? id = some n) ↔ ¬ Forever s.Lists id) ∧
      ∀ n, s.typeName? id = some n ↔ ∃ depth, s.typeNameAux depth id = some n) ∧
    ((∃ t, s.layoutText? = some t) ↔ ∀ id ∈ s.memberTypes, ¬ Forever s.Lists id) ∧
    ((∃ t, Docs.page? s = some t) ↔ ∀ id ∈ s.memberTypes, ¬ Forever s.Lists id) ∧
    ∀ words : List Bytes,
      (∀ depth r, words ≠ [] → searchNames s (matchedWord? words) depth = some r → s.checkReserved? words = some r) ∧
      (∀ r, s.checkReserved? words = some r → s.names.findSome? (reservedAs? (matchedWord? words)) = r) ∧
      ((∀ p ∈ s.sequences, ∀ f ∈ p.2.fields, ¬ Forever s.Nests f.type) → ∃ r, s.checkReserved? words = some r) ∧
      (words ≠ [] → s.names.findSome? (reservedAs? (matchedWord? words)) = none →
        (∃ p ∈ s.sequences, ∃ f ∈ p.2.fields, Forever s.Nests f.type) → s.checkReserved? words = none) := by
  have hportable := portable_of_parseJson h
  have hwritable := writable_iff hportable.elem_lt (memberTypes_lt hportable.refs_lt)
  refine ⟨fun id hid => ⟨exists_typeName?_iff hportable.elem_lt hid, fun n => typeName?_eq_some_iff⟩, ?_, ?_,
    fun words => ⟨fun depth r hwords hr => ?_, fun r => findSome?_of_checkReserved?, fun hends => ?_,
      fun hwords hnone hforever => ?_⟩⟩
  · rw [(exact_layoutText? s).exists_iff, hwritable]
  · rw [(exact_page? s).exists_iff, hwritable]
  · rw [checkReserved?_eq, if_neg (by simpa using hwords)]
    exact searchNames_le depth r hr
  · rw [checkReserved?_eq]
    split_ifs
    · exact ⟨none, rfl⟩
    · exact exists_searchNames hends
  · rw [checkReserved?_eq, if_neg (by simpa using hwords)]
    exact searchNames_of_forever hnone hforever

end Check

/-- A list of itself, a list of numbers, and a sequence with a field of the given type. -/
def looping (field : TypeId) : Schema where
  name := "x"
  types := #[.list 0, .primitive .u8, .list 1, .sequence ⟨"S", 4, [⟨"f", 0, field⟩]⟩]
  decls := [3]
  oneOfs := []

theorem forever_looping (field : TypeId) : Forever (looping field).Lists 0 := ⟨fun _ => 0, rfl, fun _ => rfl⟩

theorem looping_printable :
    letI := Libraries.plain
    parseJson (looping 2).printJson = .ok (looping 2) ∧
    (looping 2).typeName? 0 = none ∧ (looping 2).typeName? 2 = some "[u8]" ∧
    (∃ t, (looping 2).layoutText? = some t) ∧ (∃ t, Docs.page? (looping 2) = some t) ∧
    (looping 2).checkReserved? ["go"] = some none ∧
    (looping 2).names.findSome? (reservedAs? (matchedWord? ["go"])) = none := by
  let := Libraries.plain
  have hread : parseJson (looping 2).printJson = .ok (looping 2) := by decide +kernel
  obtain ⟨hnames, hlayout, hpage, hcheck⟩ := parseJson_printable_unless_looping hread
  have hlooping : (looping 2).typeName? 0 = none := by
    by_contra hn
    exact (hnames 0 (by decide)).1.1 (Option.ne_none_iff_exists'.1 hn) (forever_looping 2)
  have hlist : (looping 2).typeName? 2 = some "[u8]" := ((hnames 2 (by decide)).2 _).2 ⟨2, by decide +kernel⟩
  have hmembers : ∀ id ∈ (looping 2).memberTypes, ¬ Forever (looping 2).Lists id := by
    intro id hid
    have hid2 : id = 2 := by simpa using (show id ∈ [2] from hid)
    subst hid2
    exact (hnames 2 (by decide)).1.1 ⟨_, hlist⟩
  have hfree : (looping 2).checkReserved? ["go"] = some none :=
    (hcheck ["go"]).1 2 none (by decide) (by decide +kernel)
  exact ⟨hread, hlooping, hlist, hlayout.2 hmembers, hpage.2 hmembers, hfree, (hcheck ["go"]).2.1 none hfree⟩

/-- A document is accepted whose types cannot be named, at any depth, and from which nothing can be printed. -/
theorem looping_unprintable :
    letI := Libraries.plain
    ∃ (text : Bytes) (s : Schema), parseJson text = .ok s ∧
    (∀ depth, s.typeNameAux depth 0 = none) ∧ s.layoutText? = none ∧ Docs.page? s = none ∧
    ∀ depth, searchNames s (matchedWord? ["go"]) depth = none := by
  let := Libraries.plain
  refine ⟨(looping 0).printJson, looping 0, by decide +kernel, fun depth => ?_, by decide +kernel, by decide +kernel,
    fun depth => ?_⟩
  · by_contra hn
    obtain ⟨n, hn⟩ := Option.ne_none_iff_exists'.1 hn
    exact not_forever_of_typeNameAux hn (forever_looping 0)
  · have hnone : searchNames (looping 0) (matchedWord? ["go"]) ((looping 0).types.size + 1) = none := by decide +kernel
    by_contra hn
    obtain ⟨r, hr⟩ := Option.ne_none_iff_exists'.1 hn
    rw [searchNames_le depth r hr] at hnone
    cases hnone

end Schema

end Flatwire
