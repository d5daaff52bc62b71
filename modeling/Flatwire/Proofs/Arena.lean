import Mathlib.Data.List.Basic
import Mathlib.Data.List.Find
import Flatwire.Proofs.Lawful
import Flatwire.Schema.Builder

/-! What the operations of a builder do to its arena. Types are added behind the others, and a place that was taken keeps
its name and kind, so everything that was said about the types so far stays true. -/

namespace Flatwire

def TypeDef.isOneOf : TypeDef → Bool
  | oneOf _ => true
  | _ => false

/-- The type as it stands before it is filled in. -/
def TypeDef.blank : TypeDef → TypeDef
  | enum e => .enum ⟨e.name, 0, []⟩
  | sequence q => .sequence ⟨q.name, 0, []⟩
  | oneOf o => .oneOf ⟨o.path, []⟩
  | t => t

theorem TypeDef.declName?_blank (t : TypeDef) : t.blank.declName? = t.declName? := by
  cases t <;> rfl

theorem TypeDef.isOneOf_blank (t : TypeDef) : t.blank.isOneOf = t.isOneOf := by
  cases t <;> rfl

theorem TypeDef.needsFilling_blank (t : TypeDef) : Builder.needsFilling t.blank = Builder.needsFilling t := by
  cases t <;> rfl

namespace Schema

variable {s s' : Schema}

/-- The name under which the type at a place is declared. -/
def declName? (s : Schema) (id : TypeId) : Option Bytes := (s.type? id).bind TypeDef.declName?

theorem lookup_congr (hdecls : s'.decls = s.decls) (hnames : ∀ id, s'.declName? id = s.declName? id) (name : Bytes) :
    s'.lookup name = s.lookup name := by
  rw [lookup, lookup, hdecls]
  congr
  funext id
  rw [← declName?, hnames id, declName?]

/-- The places that hold a union, lowest first. -/
def unionPlaces (s : Schema) : List TypeId :=
  (List.range s.types.size).filter fun id => (s.type? id).any TypeDef.isOneOf

end Schema

namespace Builder

variable {a b c : Builder} {t : TypeDef} {id : TypeId}

/-- The place was taken for a type that is not filled in. -/
def Unset (b : Builder) (id : TypeId) : Prop :=
  ∃ t, b.schema.type? id = some t ∧ needsFilling t = true ∧ id ∉ b.filled

theorem build_of_set (h : ∀ id, ¬ b.Unset id) : b.build = (.ok (), { b with built := true }) := by
  have hnone : b.firstUnset = none := by
    rw [firstUnset, List.findSome?_eq_none_iff]
    intro id _
    cases ht : b.schema.type? id with
    | none => rfl
    | some t =>
      refine if_neg fun hunset => ?_
      simp only [Bool.and_eq_true, Bool.not_eq_true', List.contains_eq_mem, decide_eq_false_iff_not] at hunset
      exact h id ⟨t, ht, hunset⟩
  rw [build, hnone]

/-! ### The indexes -/

/-- What the indexes know of a type that is kept once. -/
def known? (b : Builder) : TypeDef → Option TypeId
  | .primitive k => b.primitives.lookup k
  | .string => b.string?
  | .list elem => b.lists.lookup elem
  | _ => none

def enter (t : TypeDef) (id : TypeId) (b : Builder) : Builder :=
  match t with
  | .primitive k => { b with primitives := (k, id) :: b.primitives }
  | .string => { b with string? := some id }
  | .list elem => { b with lists := (elem, id) :: b.lists }
  | _ => b

/-- The place of a type that is kept once: `primitive`, `str` and `list` in one. -/
def kept (b : Builder) (t : TypeDef) : Reply TypeId := b.intern (b.known? t) t (enter t)

/-- The indexes say what the arena and the declarations do. -/
structure Consistent (b : Builder) : Prop where
  known : ∀ t id, needsFilling t = false → (b.known? t = some id ↔ b.schema.type? id = some t)
  names : ∀ name, b.lookup name = b.schema.lookup name
  declared : ∀ id ∈ b.schema.decls, id < b.schema.types.size

theorem consistent_new (name : Bytes) : (new name).Consistent where
  known t id _ := by cases t <;> simp [new, known?, Schema.type?]
  names _ := rfl
  declared _ h := nomatch h

/-- Types can be added to the builder. -/
structure Ready (b : Builder) : Prop where
  built : b.built = false
  consistent : b.Consistent

theorem enter_eq (t : TypeDef) (id : TypeId) (b : Builder) : (enter t id b).schema = b.schema ∧
    (enter t id b).byName = b.byName ∧ (enter t id b).filled = b.filled ∧ (enter t id b).built = b.built := by
  cases t <;> exact ⟨rfl, rfl, rfl, rfl⟩

theorem lookup_cons {α : Type} [BEq α] [LawfulBEq α] [DecidableEq α] (a k : α) (id : TypeId) (index : List (α × TypeId)) :
    ((k, id) :: index).lookup a = if a = k then some id else index.lookup a := by
  rw [List.lookup_cons]
  by_cases h : a = k
  · simp [h]
  · simp [h, beq_eq_false_iff_ne.2 h]

theorem known?_enter (ht : needsFilling t = false) (id : TypeId) (u : TypeDef) :
    (enter t id b).known? u = if u = t then some id else b.known? u := by
  cases t with
  | enum _ | sequence _ | oneOf _ => cases ht
  | primitive k => cases u <;> simp [enter, known?, lookup_cons]
  | string => cases u <;> simp [enter, known?]
  | list elem => cases u <;> simp [enter, known?, lookup_cons]

/-- The unions are listed by place. -/
def Listed (b : Builder) : Prop := b.schema.oneOfs = b.schema.unionPlaces

/-- The second builder has more types, all of which are filled in and none of which is declared. -/
structure Appends (a b : Builder) : Prop where
  built : b.built = a.built
  decls : b.schema.decls = a.schema.decls
  types : ∀ id t, a.schema.type? id = some t → b.schema.type? id = some t
  names : ∀ id, b.schema.declName? id = a.schema.declName? id
  unset : ∀ id, b.Unset id → a.Unset id
  listed : a.Listed → b.Listed
  consistent : a.Consistent → b.Consistent

namespace Appends

theorem refl (b : Builder) : b.Appends b := ⟨rfl, rfl, fun _ _ h => h, fun _ => rfl, fun _ h => h, id, id⟩

theorem trans (h : a.Appends b) (h' : b.Appends c) : a.Appends c where
  built := h'.built.trans h.built
  decls := h'.decls.trans h.decls
  types id t ht := h'.types id t (h.types id t ht)
  names id := (h'.names id).trans (h.names id)
  unset id hid := h.unset id (h'.unset id hid)
  listed hl := h'.listed (h.listed hl)
  consistent hc := h'.consistent (h.consistent hc)

theorem ready (h : a.Appends b) (ha : a.Ready) : b.Ready := ⟨h.built.trans ha.built, h.consistent ha.consistent⟩

theorem lookup (h : a.Appends b) (name : Bytes) : b.schema.lookup name = a.schema.lookup name :=
  Schema.lookup_congr h.decls h.names name

end Appends

/-- The builder with one more type. -/
def pushed (b : Builder) (t : TypeDef) : Builder := { b with schema.types := b.schema.types.push t }

theorem add_eq (hb : b.built = false) (t : TypeDef) (f : TypeId → Builder → Builder) :
    b.add t f = (.ok b.schema.types.size, f b.schema.types.size (b.pushed t)) := by
  rw [add, push, if_neg (by simp [hb])]
  rfl

theorem type?_pushed (b : Builder) (t : TypeDef) (id : TypeId) :
    (b.pushed t).schema.type? id = if id = b.schema.types.size then some t else b.schema.type? id :=
  Array.getElem?_push

theorem type?_size (b : Builder) : b.schema.type? b.schema.types.size = none := by
  simp [Schema.type?]

theorem ne_size_of_type? (h : b.schema.type? id = some t) : id ≠ b.schema.types.size :=
  Nat.ne_of_lt (Schema.type?_lt h)

theorem unionPlaces_pushed (b : Builder) (t : TypeDef) : (b.pushed t).schema.unionPlaces =
    b.schema.unionPlaces ++ if t.isOneOf then [b.schema.types.size] else [] := by
  have hsize : (b.pushed t).schema.types.size = b.schema.types.size + 1 := Array.size_push ..
  have hold : ∀ id ∈ List.range b.schema.types.size,
      ((b.pushed t).schema.type? id).any TypeDef.isOneOf = (b.schema.type? id).any TypeDef.isOneOf := by
    intro id hid
    rw [type?_pushed, if_neg (Nat.ne_of_lt (List.mem_range.1 hid))]
  rw [Schema.unionPlaces, hsize, List.range_succ, List.filter_append, List.filter_congr hold, Schema.unionPlaces]
  simp [type?_pushed, List.filter_singleton]

theorem declName?_pushed (ht : t.declName? = none) (id : TypeId) :
    (b.pushed t).schema.declName? id = b.schema.declName? id := by
  rw [Schema.declName?, Schema.declName?, type?_pushed]
  split_ifs with h
  · rw [h, type?_size]
    exact ht
  · rfl

theorem of_not_needsFilling (ht : needsFilling t = false) : t.declName? = none ∧ t.isOneOf = false := by
  cases t with
  | primitive _ | string | list _ => exact ⟨rfl, rfl⟩
  | enum _ | sequence _ | oneOf _ => cases ht

/-- A type that is kept once takes a place, which is entered into its index. -/
def entered (b : Builder) (t : TypeDef) : Builder := enter t b.schema.types.size (b.pushed t)

theorem schema_entered (b : Builder) (t : TypeDef) : (b.entered t).schema = (b.pushed t).schema := (enter_eq ..).1

theorem lookup_pushed (ht : t.declName? = none) (name : Bytes) :
    (b.pushed t).schema.lookup name = b.schema.lookup name := by
  apply Schema.lookup_congr
  · rfl
  · exact declName?_pushed ht

theorem consistent_entered (hc : b.Consistent) (ht : needsFilling t = false) (hnew : ∀ i, b.schema.type? i ≠ some t) :
    (b.entered t).Consistent where
  known u id hu := by
    rw [entered, known?_enter ht, (enter_eq ..).1, type?_pushed]
    have hold : (b.pushed t).known? u = b.known? u := by cases u <;> rfl
    have hknown := hc.known u id hu
    split_ifs with hut hid hid
    · simp [hut, hid]
    · subst hut
      simp [hnew, eq_comm, hid]
    · rw [hold, hknown, hid, type?_size]
      simp [Ne.symm hut]
    · rw [hold, hknown]
  names name := by
    rw [lookup, entered, (enter_eq ..).2.1, (enter_eq ..).1, lookup_pushed (of_not_needsFilling ht).1]
    exact hc.names name
  declared id hid := by
    rw [schema_entered] at hid ⊢
    exact Nat.lt_trans (hc.declared id hid) (by simp [pushed])

theorem appends_entered (ht : needsFilling t = false) (hnew : ∀ i, b.schema.type? i ≠ some t) :
    b.Appends (b.entered t) where
  built := (enter_eq ..).2.2.2
  decls := by rw [schema_entered]; rfl
  types id u hu := by rw [schema_entered, type?_pushed, if_neg (ne_size_of_type? hu), hu]
  names id := by
    rw [schema_entered]
    exact declName?_pushed (of_not_needsFilling ht).1 id
  unset := by
    rintro id ⟨u, hu, hneeds, hid⟩
    rw [schema_entered, type?_pushed] at hu
    rw [entered, (enter_eq ..).2.2.1] at hid
    split_ifs at hu with h
    · cases hu
      cases ht.symm.trans hneeds
    · exact ⟨u, hu, hneeds, hid⟩
  listed h := by
    rw [Listed, schema_entered, unionPlaces_pushed, (of_not_needsFilling ht).2, ← h]
    exact (List.append_nil _).symm
  consistent hc := consistent_entered hc ht hnew

/-- A type that is kept once is found at its place, or takes the next one. -/
theorem kept_cases (hc : b.Consistent) (ht : needsFilling t = false) (h : b.kept t = (.ok id, c)) :
    (c = b ∧ b.schema.type? id = some t) ∨
      (c = b.entered t ∧ id = b.schema.types.size ∧ ∀ i, b.schema.type? i ≠ some t) := by
  unfold kept intern at h
  split at h
  · rename_i i hi
    cases h
    exact .inl ⟨rfl, (hc.known t _ ht).1 hi⟩
  · rename_i hnone
    cases hbuilt : b.built with
    | true => simp [add, push, hbuilt] at h
    | false =>
      rw [add_eq hbuilt] at h
      cases h
      refine .inr ⟨rfl, rfl, fun i hi => ?_⟩
      rw [(hc.known t i ht).2 hi] at hnone
      cases hnone

/-- A type that is kept once has a place, and no other type is appended. -/
structure Interns (b : Builder) (t : TypeDef) (id : TypeId) (c : Builder) : Prop where
  run : b.kept t = (.ok id, c)
  consistent : b.Consistent
  appends : b.Appends c
  type : c.schema.type? id = some t
  fresh : ∀ i u, c.schema.type? i = some u → u = t ∨ b.schema.type? i = some u

theorem exists_interns (hb : b.Ready) (ht : needsFilling t = false) : ∃ id c, b.Interns t id c := by
  obtain ⟨id, c, hrun⟩ : ∃ id c, b.kept t = (.ok id, c) := by
    unfold kept intern
    split
    · exact ⟨_, _, rfl⟩
    · exact ⟨_, _, add_eq hb.built ..⟩
  rcases kept_cases hb.consistent ht hrun with ⟨rfl, hid⟩ | ⟨rfl, rfl, hnew⟩
  · exact ⟨id, c, hrun, hb.consistent, .refl _, hid, fun _ _ h => .inr h⟩
  · refine ⟨_, _, hrun, hb.consistent, appends_entered ht hnew, ?_, fun i u hu => ?_⟩
    · rw [schema_entered, type?_pushed, if_pos rfl]
    rw [schema_entered, type?_pushed] at hu
    split_ifs at hu
    · exact .inl (Option.some.inj hu).symm
    · exact .inr hu

/-! ### Filling a place -/

theorem type?_fill {place : TypeId} {t₀ : TypeDef} (h₀ : b.schema.type? place = some t₀) (t : TypeDef) (id : TypeId) :
    (b.fill place t).schema.type? id = if id = place then some t else b.schema.type? id := by
  have hlt := Schema.type?_lt h₀
  rw [fill, Schema.type?, Array.getElem?_setIfInBounds]
  grind [Schema.type?]

section Fill

variable {place : TypeId} {t₀ : TypeDef} (h₀ : b.schema.type? place = some t₀)

include h₀

theorem declName?_fill (ht : t.declName? = t₀.declName?) (id : TypeId) :
    (b.fill place t).schema.declName? id = b.schema.declName? id := by
  rw [Schema.declName?, Schema.declName?, type?_fill h₀]
  split_ifs with h
  · rw [h, h₀]
    exact ht
  · rfl

theorem consistent_fill (hc : b.Consistent) (hneeds₀ : needsFilling t₀ = true) (hneeds : needsFilling t = true)
    (hname : t.declName? = t₀.declName?) : (b.fill place t).Consistent where
  known u id hu := by
    have hold : (b.fill place t).known? u = b.known? u := by cases u <;> rfl
    rw [hold, hc.known u id hu, type?_fill h₀]
    split_ifs with hid
    · refine iff_of_false (fun hsame => ?_) (fun hsame => ?_)
      · rw [hid, h₀] at hsame
        cases hsame
        cases hu.symm.trans hneeds₀
      · cases hsame
        cases hu.symm.trans hneeds
    · rfl
  names name := by
    refine (hc.names name).trans (Schema.lookup_congr ?_ (declName?_fill h₀ hname) name).symm
    rfl
  declared id hid := by
    rw [fill, Array.size_setIfInBounds]
    exact hc.declared id hid

theorem listed_fill (ht : t.isOneOf = t₀.isOneOf) (h : b.Listed) : (b.fill place t).Listed := by
  have hsize : (b.fill place t).schema.types.size = b.schema.types.size := Array.size_setIfInBounds ..
  have hkinds : ∀ id,
      ((b.fill place t).schema.type? id).any TypeDef.isOneOf = (b.schema.type? id).any TypeDef.isOneOf := by
    intro id
    rw [type?_fill h₀]
    split_ifs with h
    · rw [h, h₀]
      exact ht
    · rfl
  rw [Listed, Schema.unionPlaces, hsize]
  simp only [hkinds]
  exact h

theorem unset_fill (h : (b.fill place t).Unset id) : id ≠ place ∧ b.Unset id := by
  obtain ⟨u, hu, hneeds, hid⟩ := h
  have hne : id ≠ place := fun h => hid (h ▸ List.mem_cons_self)
  rw [type?_fill h₀, if_neg hne] at hu
  exact ⟨hne, u, hu, hneeds, fun h => hid (List.mem_cons_of_mem _ h)⟩

end Fill

/-- What a setter does: a place gets a type of the same kind and name, or everything stays. -/
def Refills (b c : Builder) : Prop :=
  c = b ∨ ∃ place t₀ t, c = b.fill place t ∧ b.schema.type? place = some t₀ ∧ t.blank = t₀.blank ∧ needsFilling t = true

theorem refills_setEnum (b : Builder) (id : TypeId) (variants : List EnumVariant) :
    b.Refills (b.setEnum id variants).2 := by
  unfold setEnum
  split
  · rename_i e he
    exact .inr ⟨id, .enum e, _, rfl, he, rfl, rfl⟩
  · exact .inl rfl

theorem refills_setSequence (b : Builder) (id : TypeId) (fields : List Field) (size : UInt16) :
    b.Refills (b.setSequence id fields size).2 := by
  unfold setSequence
  split
  · rename_i q hq
    exact .inr ⟨id, .sequence q, _, rfl, hq, rfl, rfl⟩
  · exact .inl rfl

theorem refills_setOneOf (b : Builder) (id : TypeId) (variants : List Variant) :
    b.Refills (b.setOneOf id variants).2 := by
  unfold setOneOf
  split
  · rename_i o ho
    exact .inr ⟨id, .oneOf o, _, rfl, ho, rfl, rfl⟩
  · exact .inl rfl

theorem refills_of_setOneOf {variants : List Variant} (h : b.setOneOf id variants = (.ok (), c)) : b.Refills c := by
  have hset := b.refills_setOneOf id variants
  rwa [h] at hset

theorem Refills.consistent (h : b.Refills c) (hb : b.Consistent) : c.Consistent := by
  rcases h with rfl | ⟨place, t₀, t, rfl, h₀, hblank, hneeds⟩
  · exact hb
  · refine consistent_fill h₀ hb ?_ hneeds ?_
    · rw [← t₀.needsFilling_blank, ← hblank, t.needsFilling_blank, hneeds]
    · rw [← t.declName?_blank, hblank, t₀.declName?_blank]

theorem Refills.ready (h : b.Refills c) (hb : b.Ready) : c.Ready := by
  refine ⟨?_, h.consistent hb.consistent⟩
  rcases h with rfl | ⟨-, -, -, rfl, -⟩ <;> exact hb.built

/-! ### Declarations -/

/-- The builder with a place for one more declaration. -/
def withDecl (b : Builder) (t : TypeDef) : Builder :=
  { b.pushed t with
    byName := (t.declName?.toList.map fun name => (name, b.schema.types.size)) ++ b.byName
    schema.decls := b.schema.decls ++ [b.schema.types.size] }

theorem declare_eq {name : Bytes} (hb : b.Ready) (ht : t.declName? = some name) (hfree : b.schema.lookup name = none) :
    b.declare name t = (.ok b.schema.types.size, b.withDecl t) := by
  rw [declare, hb.consistent.names, hfree]
  dsimp only
  rw [add_eq hb.built, withDecl, ht]
  rfl

theorem type?_withDecl (b : Builder) (t : TypeDef) (id : TypeId) : (b.withDecl t).schema.type? id =
    if id = b.schema.types.size then some t else b.schema.type? id :=
  type?_pushed b t id

theorem lookup_withDecl {name : Bytes} (ht : t.declName? = some name)
    (hvalid : ∀ id ∈ b.schema.decls, id < b.schema.types.size) (n : Bytes) : (b.withDecl t).schema.lookup n =
      (b.schema.lookup n).or (if n = name then some b.schema.types.size else none) := by
  have hold : ∀ id ∈ b.schema.decls, (b.withDecl t).schema.type? id = b.schema.type? id := by
    intro id hid
    rw [type?_withDecl, if_neg (Nat.ne_of_lt (hvalid id hid))]
  have hnew : (b.withDecl t).schema.type? b.schema.types.size = some t := by rw [type?_withDecl, if_pos rfl]
  have hdecls : (b.withDecl t).schema.decls = b.schema.decls ++ [b.schema.types.size] := rfl
  rw [Schema.lookup, hdecls, List.find?_append, Schema.lookup]
  congr 1
  · apply List.find?_congr
    intro id hid
    rw [hold id hid]
  · by_cases h : n = name
    · simp [hnew, ht, h]
    · simp [hnew, ht, h, Ne.symm h]

theorem consistent_withDecl {name : Bytes} (hc : b.Consistent) (hneeds : needsFilling t = true)
    (ht : t.declName? = some name) (hfree : b.schema.lookup name = none) : (b.withDecl t).Consistent where
  known u id hu := by
    have hold : (b.withDecl t).known? u = b.known? u := by cases u <;> rfl
    rw [hold, hc.known u id hu, type?_withDecl]
    split_ifs with hid
    · rw [hid, type?_size]
      refine iff_of_false nofun fun hsame => ?_
      cases hsame
      cases hu.symm.trans hneeds
    · rfl
  names n := by
    rw [lookup_withDecl ht hc.declared, ← hc.names n, lookup, withDecl, ht]
    change ((name, _) :: b.byName).lookup n = _
    rw [lookup_cons]
    split_ifs with hn
    · rw [hc.names, hn, hfree, Option.none_or]
    · rw [Option.or_none, lookup]
  declared id hid := by
    have hsize : (b.withDecl t).schema.types.size = b.schema.types.size + 1 := Array.size_push ..
    rw [hsize]
    rcases List.mem_append.1 hid with hid | hid
    · exact Nat.lt_succ_of_lt (hc.declared id hid)
    · exact List.mem_singleton.1 hid ▸ Nat.lt_succ_self _

/-! ### Unions -/

/-- The builder with a place for one more union. -/
def withUnion (b : Builder) (path : List Bytes) : Builder :=
  { b.pushed (.oneOf ⟨path, []⟩) with schema.oneOfs := b.schema.oneOfs ++ [b.schema.types.size] }

theorem declareOneOf_eq (hb : b.built = false) (path : List Bytes) :
    b.declareOneOf path = (.ok b.schema.types.size, b.withUnion path) := by
  rw [declareOneOf, add_eq hb]
  rfl

theorem type?_withUnion (b : Builder) (path : List Bytes) (id : TypeId) : (b.withUnion path).schema.type? id =
    if id = b.schema.types.size then some (.oneOf ⟨path, []⟩) else b.schema.type? id :=
  type?_pushed b _ id

theorem consistent_withUnion (hc : b.Consistent) (path : List Bytes) : (b.withUnion path).Consistent where
  known u id hu := by
    have hold : (b.withUnion path).known? u = b.known? u := by cases u <;> rfl
    rw [hold, hc.known u id hu, type?_withUnion]
    split_ifs with hid
    · rw [hid, type?_size]
      refine iff_of_false nofun fun hsame => ?_
      cases hsame
      cases hu
    · rfl
  names name := (hc.names name).trans (lookup_pushed rfl name).symm
  declared id hid := Nat.lt_trans (hc.declared id hid) (by simp [withUnion, pushed])

theorem Ready.withUnion (hb : b.Ready) (path : List Bytes) : (b.withUnion path).Ready :=
  ⟨hb.built, consistent_withUnion hb.consistent path⟩

theorem setOneOf_spec {path : List Bytes} (h : (b.withUnion path).Appends c) (variants : List Variant) :
    ∃ d, c.setOneOf b.schema.types.size variants = (.ok (), d) ∧ b.Appends d ∧
      ∀ id, d.schema.type? id =
        if id = b.schema.types.size then some (.oneOf ⟨path, variants⟩) else c.schema.type? id := by
  have hplace : c.schema.type? b.schema.types.size = some (.oneOf ⟨path, []⟩) :=
    h.types _ _ (by rw [type?_withUnion, if_pos rfl])
  refine ⟨c.fill b.schema.types.size (.oneOf ⟨path, variants⟩), by rw [setOneOf, hplace], ?_, type?_fill hplace _⟩
  refine ⟨h.built, h.decls, fun id t ht => ?_, fun id => ?_, fun id hid => ?_, fun hl => ?_, fun hc => ?_⟩
  · have hne := ne_size_of_type? ht
    rw [type?_fill hplace, if_neg hne]
    exact h.types id t (by rw [type?_withUnion, if_neg hne, ht])
  · refine (declName?_fill hplace ?_ id).trans ((h.names id).trans ?_)
    · rfl
    · exact declName?_pushed rfl id
  · obtain ⟨hne, hunset⟩ := unset_fill hplace hid
    obtain ⟨u, hu, hneeds, hfilled⟩ := h.unset id hunset
    rw [type?_withUnion, if_neg hne] at hu
    exact ⟨u, hu, hneeds, hfilled⟩
  · refine listed_fill hplace ?_ (h.listed ?_)
    · rfl
    have hplaces : (b.withUnion path).schema.unionPlaces = b.schema.unionPlaces ++ [b.schema.types.size] :=
      unionPlaces_pushed b _
    rw [Listed, hplaces, ← hl]
    rfl
  · exact consistent_fill hplace (h.consistent (consistent_withUnion hc path)) rfl rfl rfl

end Builder

end Flatwire
