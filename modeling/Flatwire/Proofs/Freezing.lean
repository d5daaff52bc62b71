import Flatwire.Proofs.Arena

/-! What can still happen to a schema after it was built. No operation adds a type or a declaration any more, so every
type keeps its place, its kind and its name. But setters go on replacing what is in a type: the built schema is the one
that the builder works on. -/

namespace Flatwire

/-- The second schema is the first with every type replaced by what `f` makes of it. -/
structure Schema.Refilled (f : TypeId → TypeDef → TypeDef) (s s' : Schema) : Prop where
  name : s'.name = s.name
  decls : s'.decls = s.decls
  oneOfs : s'.oneOfs = s.oneOfs
  types : ∀ id, s'.type? id = (s.type? id).map (f id)

namespace Schema.Refilled

variable {s s' s'' : Schema} {f g : TypeId → TypeDef → TypeDef}

theorem refl (s : Schema) (hf : ∀ id t, f id t = t) : Refilled f s s where
  name := rfl
  decls := rfl
  oneOfs := rfl
  types id := by simp [funext (hf id)]

theorem trans (h : Refilled f s s') (h' : Refilled g s' s'') : Refilled (fun id t => g id (f id t)) s s'' where
  name := h'.name.trans h.name
  decls := h'.decls.trans h.decls
  oneOfs := h'.oneOfs.trans h.oneOfs
  types id := by rw [h'.types, h.types, Option.map_map, Function.comp_def]

theorem eq_iff (h : Refilled f s s') : s' = s ↔ ∀ id t, s.type? id = some t → f id t = t := by
  constructor
  · rintro rfl id t ht
    have hid := h.types id
    rw [ht, Option.map_some] at hid
    exact (Option.some.inj hid).symm
  · intro hf
    have htypes : s'.types = s.types := by
      apply Array.ext_getElem?
      intro id
      have hid : s'.type? id = (s.type? id).map (f id) := h.types id
      cases ht : s.type? id with
      | none =>
        rw [ht, Option.map_none] at hid
        exact hid.trans ht.symm
      | some t =>
        rw [ht, Option.map_some, hf id t ht] at hid
        exact hid.trans ht.symm
    obtain ⟨name, types, decls, oneOfs⟩ := s
    obtain ⟨name', types', decls', oneOfs'⟩ := s'
    obtain rfl : name' = name := h.name
    obtain rfl : decls' = decls := h.decls
    obtain rfl : oneOfs' = oneOfs := h.oneOfs
    obtain rfl : types' = types := htypes
    rfl

end Schema.Refilled

namespace Builder

variable {a b : Builder} {op : Op} {place : TypeId}

/-- The place that a setter is about. -/
def Op.place? : Op → Option TypeId
  | setEnum place _ | setSequence place _ _ | setOneOf place _ => some place
  | _ => none

/-- What becomes of the type at a place: a setter of its kind replaces what is in it, but not its name. -/
def Op.refill (id : TypeId) : TypeDef → Op → TypeDef
  | .enum e, setEnum place variants =>
    if place = id then .enum ⟨e.name, enumWidth (maxValue variants), variants⟩ else .enum e
  | .sequence q, setSequence place fields size => if place = id then .sequence ⟨q.name, size, fields⟩ else .sequence q
  | .oneOf o, setOneOf place variants => if place = id then .oneOf ⟨o.path, variants⟩ else .oneOf o
  | t, _ => t

theorem Op.refill_eq_self {id : TypeId} (h : op.place? ≠ some id) (t : TypeDef) : Op.refill id t op = t := by
  unfold refill
  split
  · exact if_neg fun heq => h (congrArg some heq)
  · exact if_neg fun heq => h (congrArg some heq)
  · exact if_neg fun heq => h (congrArg some heq)
  · rfl

theorem Op.blank_refill (id : TypeId) (t : TypeDef) (op : Op) : (Op.refill id t op).blank = t.blank := by
  unfold refill
  split
  · split_ifs <;> rfl
  · split_ifs <;> rfl
  · split_ifs <;> rfl
  · rfl

/-! ### One operation -/

theorem after_setter (hop : op.place? = some place) :
    (∃ t, b.schema.type? place = some t ∧ b.after op = b.fill place (Op.refill place t op)) ∨
    (b.after op = b ∧ ∀ t, b.schema.type? place = some t → Op.refill place t op = t) := by
  cases op with
  | primitive | str | list | declareEnum | declareSequence | declareOneOf | build => cases hop
  | setEnum | setSequence | setOneOf =>
    cases hop
    cases ht : b.schema.type? place with
    | none => simp [after, perform, setEnum, setSequence, setOneOf, ht, Reply.done]
    | some t => cases t <;> simp [after, perform, setEnum, setSequence, setOneOf, ht, Reply.done, Op.refill]

theorem refilled_setter (hop : op.place? = some place) :
    Schema.Refilled (fun id t => Op.refill id t op) b.schema (b.after op).schema := by
  have hother : ∀ id t, id ≠ place → Op.refill id t op = t := by
    intro id t hne
    apply Op.refill_eq_self
    rw [hop]
    exact fun heq => hne (Option.some.inj heq).symm
  rcases after_setter hop with ⟨t, ht, hafter⟩ | ⟨hafter, hsame⟩
  · rw [hafter]
    refine ⟨rfl, rfl, rfl, fun id => ?_⟩
    rw [type?_fill ht]
    split_ifs with hid
    · rw [hid, ht, Option.map_some]
    · rw [funext fun t => hother id t hid, Option.map_id']
  · rw [hafter]
    refine ⟨rfl, rfl, rfl, fun id => ?_⟩
    cases ht : b.schema.type? id with
    | none => rfl
    | some t =>
      by_cases hid : id = place
      · rw [Option.map_some, hid, hsame t (hid ▸ ht)]
      · rw [Option.map_some, hother id t hid]

theorem built_setter (hop : op.place? = some place) : (b.after op).built = b.built := by
  rcases after_setter hop with ⟨t, -, hafter⟩ | ⟨hafter, -⟩
  · rw [hafter, fill]
  · rw [hafter]

section Built

variable (hb : b.built = true)

include hb

theorem add_of_built (t : TypeDef) (f : TypeId → Builder → Builder) : b.add t f = (.error .frozen, b) := by
  rw [add, push, if_pos hb]

theorem intern_of_built (known : Option TypeId) (t : TypeDef) (f : TypeId → Builder → Builder) :
    (b.intern known t f).2 = b := by
  cases known with
  | some id => rfl
  | none => exact congrArg Prod.snd (add_of_built hb t f)

theorem declare_of_built (name : Bytes) (t : TypeDef) : (b.declare name t).2 = b := by
  rw [declare]
  split
  · rfl
  · rw [add_of_built hb]

theorem build_of_built : b.build.2 = b := by
  rw [build]
  split
  · rfl
  · rw [← hb]

theorem after_of_built (hop : op.place? = none) : b.after op = b := by
  cases op with
  | setEnum | setSequence | setOneOf => cases hop
  | primitive | str | list => exact intern_of_built hb ..
  | declareEnum | declareSequence => exact declare_of_built hb ..
  | declareOneOf => exact congrArg Prod.snd (add_of_built hb ..)
  | build => exact build_of_built hb

/-- One operation on a finished schema: what it makes of each type is all that it does. -/
theorem step_of_built (op : Op) :
    (b.after op).built = true ∧ Schema.Refilled (fun id t => Op.refill id t op) b.schema (b.after op).schema := by
  cases hop : op.place? with
  | some place => exact ⟨(built_setter hop).trans hb, refilled_setter hop⟩
  | none =>
    rw [after_of_built hb hop]
    exact ⟨hb, .refl _ fun id t => Op.refill_eq_self (by simp [hop]) t⟩

theorem run_of_built (ops : List Op) :
    Schema.Refilled (fun id t => ops.foldl (Op.refill id) t) b.schema (b.run ops).schema := by
  induction ops generalizing b with
  | nil => exact .refl _ fun _ _ => rfl
  | cons op ops ih =>
    obtain ⟨hbuilt, hstep⟩ := step_of_built hb op
    exact hstep.trans (ih hbuilt)

end Built

theorem built_of_build (h : a.build = (.ok (), b)) : b.built = true := by
  rw [build] at h
  split at h
  · cases h
  · cases h
    rfl

section Later

variable {ops : List Op} {id : TypeId}

theorem declared_foldl_refill (t : TypeDef) : (ops.foldl (Op.refill id) t).blank = t.blank := by
  induction ops generalizing t with
  | nil => rfl
  | cons op ops ih => rw [List.foldl_cons, ih, Op.blank_refill]

theorem foldl_refill_eq_self (h : ∀ op ∈ ops, op.place? ≠ some id) (t : TypeDef) : ops.foldl (Op.refill id) t = t := by
  induction ops generalizing t with
  | nil => rfl
  | cons op ops ih =>
    rw [List.foldl_cons, Op.refill_eq_self (h op List.mem_cons_self)]
    exact ih (fun op' hop' => h op' (List.mem_cons_of_mem op hop')) t

end Later

/-- After a schema was built its name, declarations and unions stay as they are, and each type is what the setters of its
place have made of it since, in order: its kind and its name or path never change, and nothing of it does if no setter
is used on it. So the schema stays what it was exactly if the setters leave every type as it was, in particular if
nothing but interning, declaring and building is asked for. -/
theorem built_unless_set (h : a.build = (.ok (), b)) (ops : List Op) :
    (b.run ops).schema.name = b.schema.name ∧ (b.run ops).schema.decls = b.schema.decls ∧
    (b.run ops).schema.oneOfs = b.schema.oneOfs ∧
    (∀ id, (b.run ops).schema.type? id = (b.schema.type? id).map fun t => ops.foldl (Op.refill id) t) ∧
    (∀ id, ((b.run ops).schema.type? id).map TypeDef.blank = (b.schema.type? id).map TypeDef.blank) ∧
    (∀ id, (∀ op ∈ ops, op.place? ≠ some id) → (b.run ops).schema.type? id = b.schema.type? id) ∧
    ((b.run ops).schema = b.schema ↔ ∀ id t, b.schema.type? id = some t → ops.foldl (Op.refill id) t = t) ∧
    ((∀ op ∈ ops, op.place? = none) → (b.run ops).schema = b.schema) := by
  have hrun := run_of_built (built_of_build h) ops
  refine ⟨hrun.name, hrun.decls, hrun.oneOfs, hrun.types, fun id => ?_, fun id hid => ?_, hrun.eq_iff, fun hnone => ?_⟩
  · rw [hrun.types, Option.map_map]
    congr 1
    exact funext declared_foldl_refill
  · rw [hrun.types, funext (foldl_refill_eq_self hid), Option.map_id']
  · apply hrun.eq_iff.2
    intro id t _
    exact foldl_refill_eq_self (fun op hop => by simp [hnone op hop]) t

/-- A builder of one enum that has been filled in. -/
def sampleOps : List Op := [.str, .declareEnum "E", .setEnum 1 [⟨"a", 1⟩]]

theorem build_sampleOps :
    ((new "s").run sampleOps).build = (.ok (), { (new "s").run sampleOps with built := true }) := by
  have hset : ((new "s").run sampleOps).firstUnset = none := by decide +kernel
  rw [build, hset]

/-- Once the enum is built, nothing else can be declared, and the string type is found where it was. -/
theorem built_unless_set_sample :
    ∃ b, ((new "s").run sampleOps).build = (.ok (), b) ∧
      (b.run [.str, .declareEnum "F", .declareSequence "E", .list 1, .build]).schema = b.schema :=
  ⟨_, build_sampleOps, (built_unless_set build_sampleOps _).2.2.2.2.2.2.2 (by decide)⟩

/-- A schema is not immutable once it is built: its enum is given other variants, and another width with them. -/
theorem built_then_set :
    ¬ ∀ (name : Bytes) (ops later : List Op) (b : Builder), ((new name).run ops).build = (.ok (), b) →
      (b.run later).schema = b.schema := by
  intro h
  have hsame := h "s" sampleOps [.setEnum 1 [⟨"b", 300⟩]] _ build_sampleOps
  exact absurd hsame (by decide +kernel)

end Builder

end Flatwire
