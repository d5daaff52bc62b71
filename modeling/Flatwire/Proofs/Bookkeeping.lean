import Flatwire.Proofs.Freezing
import Flatwire.Proofs.Memory

/-! The books of a builder. Whatever is asked of it, in whatever order, the arena, the declared names and the filled
places say the same about what was granted: one step keeps them in agreement with the history, and so does a run. -/

namespace Flatwire.Builder

variable {b b' : Builder} {op : Op} {r : Option TypeId} {t : TypeDef} {log : List (Op × Option TypeId)} {name : Bytes}
  {id place : TypeId}

/-- The type that is asked for, before it is filled in. -/
def Op.subject? : Op → Option TypeDef
  | primitive kind => some (.primitive kind)
  | str => some .string
  | list elem => some (.list elem)
  | declareEnum name => some (.enum ⟨name, 0, []⟩)
  | declareSequence name => some (.sequence ⟨name, 0, []⟩)
  | declareOneOf path => some (.oneOf ⟨path, []⟩)
  | _ => none

/-- The name that is declared. -/
def Op.declares? (op : Op) : Option Bytes := op.subject?.bind TypeDef.declName?

/-- The operations that succeed, in order, with the places that they are granted. -/
def granted (b : Builder) : List Op → List (Op × Option TypeId)
  | [] => []
  | op :: ops =>
    match b.perform op with
    | (.ok r, b') => (op, r) :: b'.granted ops
    | (.error _, b') => b'.granted ops

/-- Whether no type is added to a finished schema, and no setter used on a type of another kind. -/
def orderly (b : Builder) : List Op → Bool
  | [] => true
  | op :: ops =>
    match b.perform op with
    | (.ok _, b') => b'.orderly ops
    | (.error .frozen, _) | (.error .wrongKind, _) => false
    | (.error _, b') => b'.orderly ops

/-! ### What an operation can do -/

/-- One more type, at the next free place. -/
structure Enters (b : Builder) (t : TypeDef) (b' : Builder) : Prop where
  types : b'.schema.types = b.schema.types.push t
  filled : b'.filled = b.filled
  decls : b'.schema.decls = b.schema.decls ++ if t.declName?.isSome then [b.schema.types.size] else []
  free : ∀ name, t.declName? = some name → b.schema.lookup name = none
  consistent : b'.Consistent

/-- What a successful operation does: it finds a type, adds one, fills one in, or finishes the schema. -/
inductive Does (b : Builder) (op : Op) : Option TypeId → Builder → Prop where
  | find {t : TypeDef} {id : TypeId} : op.subject? = some t → needsFilling t = false → b.schema.type? id = some t →
      Does b op (some id) b
  | add {t : TypeDef} {b' : Builder} : op.subject? = some t → b.Enters t b' → Does b op (some b.schema.types.size) b'
  | fill {t u : TypeDef} {place : TypeId} : op.place? = some place → b.schema.type? place = some t →
      needsFilling t = true → Op.refill place t op = u → Does b op none (b.fill place u)
  | build : op = .build → Does b op none { b with built := true }

theorem exists_of_granted {x : Reply TypeId} (h : x.granted = (.ok r, b')) : ∃ id, x = (.ok id, b') ∧ r = some id := by
  obtain ⟨out, c⟩ := x
  cases out with
  | error e => cases h
  | ok id =>
    cases h
    exact ⟨id, rfl, rfl⟩

theorem of_done {x : Reply Unit} (h : x.done = (.ok r, b')) : x = (.ok (), b') ∧ r = none := by
  obtain ⟨out, c⟩ := x
  cases out with
  | error e => cases h
  | ok =>
    cases h
    exact ⟨rfl, rfl⟩

theorem add_frozen (h : b.built = true) (t : TypeDef) (f : TypeId → Builder → Builder) :
    b.add t f = (.error .frozen, b) := by
  rw [add, push, if_pos h]

theorem does_kept (hc : b.Consistent) (hop : op.subject? = some t) (ht : needsFilling t = false)
    (h : b.kept t = (.ok id, b')) : b.Does op (some id) b' := by
  rcases kept_cases hc ht h with ⟨rfl, hid⟩ | ⟨rfl, rfl, hnew⟩
  · exact .find hop ht hid
  · have hschema := b.schema_entered t
    have hname := (of_not_needsFilling ht).1
    refine .add hop ⟨by rw [hschema]; rfl, (enter_eq ..).2.2.1, ?_, by simp [hname], consistent_entered hc ht hnew⟩
    rw [hschema, hname]
    exact (List.append_nil _).symm

theorem does_declare (hc : b.Consistent) (hop : op.subject? = some t)
    (ht : needsFilling t = true) (hname : t.declName? = some name) (h : b.declare name t = (.ok id, b')) :
    b.Does op (some id) b' := by
  cases hfree : b.schema.lookup name with
  | some i =>
    rw [declare, hc.names, hfree] at h
    cases h
  | none =>
    cases hbuilt : b.built with
    | true =>
      rw [declare, hc.names, hfree] at h
      simp only [add_frozen hbuilt] at h
      cases h
    | false =>
      rw [declare_eq ⟨hbuilt, hc⟩ hname hfree] at h
      cases h
      refine .add hop ⟨rfl, rfl, by rw [hname]; rfl, fun n hn => ?_, consistent_withDecl hc ht hname hfree⟩
      cases hname.symm.trans hn
      exact hfree

theorem does_of_perform (hc : b.Consistent) (h : b.perform op = (.ok r, b')) : b.Does op r b' := by
  cases op with
  | primitive | str | list =>
    obtain ⟨id, hkept, rfl⟩ := exists_of_granted h
    exact does_kept hc rfl rfl hkept
  | declareEnum | declareSequence =>
    obtain ⟨id, hdeclare, rfl⟩ := exists_of_granted h
    exact does_declare hc rfl rfl rfl hdeclare
  | declareOneOf path =>
    obtain ⟨id, hdeclare, rfl⟩ := exists_of_granted h
    cases hbuilt : b.built with
    | true =>
      rw [declareOneOf, add_frozen hbuilt] at hdeclare
      cases hdeclare
    | false =>
      rw [declareOneOf_eq hbuilt] at hdeclare
      cases hdeclare
      refine .add rfl ⟨rfl, rfl, (List.append_nil _).symm, fun n hn => ?_, consistent_withUnion hc path⟩
      cases hn
  | setEnum | setSequence | setOneOf =>
    obtain ⟨hset, rfl⟩ := of_done h
    simp only [setEnum, setSequence, setOneOf] at hset
    split at hset
    · next ht =>
      cases hset
      exact .fill rfl ht rfl (if_pos rfl)
    · cases hset
  | build =>
    obtain ⟨hbuild, rfl⟩ := of_done h
    rw [Builder.build] at hbuild
    split at hbuild
    · cases hbuild
    · cases hbuild
      exact .build rfl

/-! ### What a refused operation leaves -/

theorem error_of_map {ε α β : Type} {f : α → β} {x : Except ε α} {e : ε} (h : x.map f = .error e) : x = .error e := by
  cases x with
  | error e' => exact congrArg Except.error (Except.error.inj h)
  | ok a => cases h

section Refused

variable {e : Failure} {f : TypeId → Builder → Builder}

theorem add_of_error (h : (b.add t f).1 = .error e) : (b.add t f).2 = b := by
  cases hbuilt : b.built with
  | true => rw [add_frozen hbuilt]
  | false =>
    rw [add_eq hbuilt] at h
    cases h

theorem intern_of_error {known : Option TypeId} (h : (b.intern known t f).1 = .error e) :
    (b.intern known t f).2 = b := by
  cases known with
  | some id => rfl
  | none => exact add_of_error h

theorem declare_of_error (h : (b.declare name t).1 = .error e) : (b.declare name t).2 = b := by
  unfold declare at h ⊢
  split at h
  · rfl
  · exact add_of_error h

/-- A refused operation leaves the builder as it was. -/
theorem after_of_error (h : (b.perform op).1 = .error e) : b.after op = b := by
  cases op with
  | primitive | str | list => exact intern_of_error (error_of_map h)
  | declareEnum | declareSequence => exact declare_of_error (error_of_map h)
  | declareOneOf => exact add_of_error (error_of_map h)
  | setEnum | setSequence | setOneOf =>
    simp only [after, perform, Reply.done, setEnum, setSequence, setOneOf] at h ⊢
    split at h
    · cases h
    · rfl
  | build =>
    simp only [after, perform, Reply.done, Builder.build] at h ⊢
    split at h
    · rfl
    · cases h

end Refused

/-! ### One step -/

/-- The books: what they say about what was granted. -/
structure Kept (b : Builder) (log : List (Op × Option TypeId)) : Prop where
  consistent : b.Consistent
  /-- A place holds what was asked for, filled in or not. -/
  holds : ∀ op id, (op, some id) ∈ log → ∃ t, b.schema.type? id = some t ∧ op.subject? = some t.blank
  decls : b.schema.decls = log.filterMap fun e => if e.1.declares?.isSome then e.2 else none
  nodup : b.schema.decls.Nodup
  lookup : ∀ name id, b.schema.lookup name = some id ↔ ∃ op, (op, some id) ∈ log ∧ op.declares? = some name
  filled : ∀ id, id ∈ b.filled ↔ ∃ op r, (op, r) ∈ log ∧ op.place? = some id

theorem kept_new (name : Bytes) : Kept (new name) [] where
  consistent := consistent_new name
  holds op id h := absurd h List.not_mem_nil
  decls := rfl
  nodup := List.nodup_nil
  lookup n id := by simp [new, Schema.lookup]
  filled id := by simp [new]

theorem blank_subject? (h : op.subject? = some t) : t.blank = t := by
  cases op <;> cases h <;> rfl

theorem declares?_of_subject? (h : op.subject? = some t) : op.declares? = t.declName? := by
  rw [Op.declares?, h, Option.bind_some]

theorem place?_of_subject? (h : op.subject? = some t) : op.place? = none := by
  cases op <;> cases h <;> rfl

theorem subject?_of_place? (h : op.place? = some place) : op.subject? = none := by
  cases op <;> cases h <;> rfl

theorem Enters.type? (h : b.Enters t b') (id : TypeId) :
    b'.schema.type? id = if id = b.schema.types.size then some t else b.schema.type? id := by
  rw [Schema.type?, h.types]
  exact type?_pushed b t id

theorem Enters.lookup (h : b.Enters t b') (hvalid : ∀ id ∈ b.schema.decls, id < b.schema.types.size) (name : Bytes) :
    b'.schema.lookup name =
      (b.schema.lookup name).or (if t.declName? = some name then some b.schema.types.size else none) := by
  have hdecls := h.decls
  cases hname : t.declName? with
  | none =>
    rw [hname] at hdecls
    have hsame := Schema.lookup_congr (hdecls.trans (List.append_nil _)) (fun id => ?_) name
    · simpa using hsame
    · rw [Schema.declName?, h.type?, ← type?_pushed]
      exact declName?_pushed hname id
  | some n =>
    rw [hname] at hdecls
    have hsame : b'.schema.lookup name = (b.withDecl t).schema.lookup name :=
      Schema.lookup_congr hdecls (fun id => by rw [Schema.declName?, Schema.declName?, h.type?, type?_withDecl]) name
    rw [hsame, lookup_withDecl hname hvalid]
    simp [eq_comm]

theorem Kept.find (h : Kept b log) (hop : op.subject? = some t) (ht : needsFilling t = false)
    (hid : b.schema.type? id = some t) : Kept b (log ++ [(op, some id)]) := by
  have hname : op.declares? = none := (declares?_of_subject? hop).trans (of_not_needsFilling ht).1
  refine { h with holds := fun o i hi => ?_, decls := ?_, lookup := fun n i => ?_, filled := fun i => ?_ }
  · rcases List.mem_append.1 hi with hi | hi
    · exact h.holds o i hi
    · cases List.mem_singleton.1 hi
      exact ⟨t, hid, by rw [blank_subject? hop, hop]⟩
  · rw [h.decls, List.filterMap_append]
    simp [hname]
  · rw [h.lookup]
    grind
  · rw [h.filled]
    have := place?_of_subject? hop
    grind

theorem Kept.add (h : Kept b log) (hop : op.subject? = some t) (henters : b.Enters t b') :
    Kept b' (log ++ [(op, some b.schema.types.size)]) where
  consistent := henters.consistent
  holds o i hi := by
    rw [henters.type?]
    rcases List.mem_append.1 hi with hi | hi
    · obtain ⟨u, hu, hsubject⟩ := h.holds o i hi
      exact ⟨u, by rw [if_neg (ne_size_of_type? hu), hu], hsubject⟩
    · cases List.mem_singleton.1 hi
      exact ⟨t, if_pos rfl, by rw [blank_subject? hop, hop]⟩
  decls := by
    rw [henters.decls, h.decls, List.filterMap_append, List.filterMap_cons, declares?_of_subject? hop]
    split_ifs <;> rfl
  nodup := by
    rw [henters.decls]
    split_ifs
    · refine List.nodup_append.2 ⟨h.nodup, List.pairwise_singleton _ _, fun i hi j hj => ?_⟩
      exact (List.mem_singleton.1 hj) ▸ Nat.ne_of_lt (h.consistent.declared i hi)
    · exact (List.append_nil b.schema.decls).symm ▸ h.nodup
  lookup n i := by
    have hname := declares?_of_subject? hop
    rw [henters.lookup h.consistent.declared]
    split_ifs with hn
    · -- the name is new, so nothing in the history declares it
      have hnew : ∀ o, (o, some i) ∈ log → o.declares? ≠ some n := fun o ho hd => by
        cases (henters.free n hn).symm.trans ((h.lookup n i).2 ⟨o, ho, hd⟩)
      rw [henters.free n hn, Option.none_or]
      grind
    · rw [Option.or_none, h.lookup]
      grind
  filled i := by
    have := place?_of_subject? hop
    rw [henters.filled, h.filled]
    grind

theorem Kept.fill {u : TypeDef} (h : Kept b log) (hop : op.place? = some place)
    (ht : b.schema.type? place = some t) (hneeds : needsFilling t = true) (hu : Op.refill place t op = u) :
    Kept (b.fill place u) (log ++ [(op, none)]) := by
  have hblank : u.blank = t.blank := hu ▸ Op.blank_refill place t op
  have hname : u.declName? = t.declName? := by rw [← u.declName?_blank, hblank, t.declName?_blank]
  have hneeds' : needsFilling u = true := by rw [← u.needsFilling_blank, hblank, t.needsFilling_blank, hneeds]
  refine ⟨consistent_fill ht h.consistent hneeds hneeds' hname, fun o i hi => ?_, ?_, h.nodup, fun n i => ?_,
    fun i => ?_⟩
  · obtain ⟨v, hv, hsubject⟩ := h.holds o i (by simpa using hi)
    rw [type?_fill ht]
    split_ifs with hplace
    · rw [hplace, ht] at hv
      cases hv
      exact ⟨u, rfl, hsubject.trans (congrArg some hblank.symm)⟩
    · exact ⟨v, hv, hsubject⟩
  · exact h.decls.trans (by simp)
  · have hdecls : (b.fill place u).schema.decls = b.schema.decls := rfl
    simpa [Schema.lookup_congr hdecls (declName?_fill ht hname)] using h.lookup n i
  · rw [Builder.fill, List.mem_cons, h.filled]
    grind

theorem Kept.step (h : Kept b log) (hdoes : b.Does op r b') : Kept b' (log ++ [(op, r)]) := by
  cases hdoes with
  | find hop ht hid => exact h.find hop ht hid
  | add hop henters => exact h.add hop henters
  | fill hop ht hneeds hu => exact h.fill hop ht hneeds hu
  | build hop =>
    subst hop
    refine ⟨⟨h.consistent.known, h.consistent.names, h.consistent.declared⟩,
      fun o i hi => h.holds o i (by simpa using hi), h.decls.trans (by simp), h.nodup, fun n i => ?_, fun i => ?_⟩
    · simpa using h.lookup n i
    · rw [h.filled]
      have hplace : Op.place? .build = none := rfl
      grind

/-! ### Runs -/

variable {ops : List Op}

theorem run_cons (b : Builder) (op : Op) (ops : List Op) : b.run (op :: ops) = (b.after op).run ops := rfl

theorem Kept.run (h : Kept b log) (ops : List Op) : Kept (b.run ops) (log ++ b.granted ops) := by
  induction ops generalizing b log with
  | nil => exact (List.append_nil log).symm ▸ h
  | cons op ops ih =>
    rw [granted]
    split
    · next r b' hperform =>
      rw [run_cons, after, hperform]
      have hrest := ih (h.step (does_of_perform h.consistent hperform))
      rwa [List.append_assoc] at hrest
    · next e b' hperform =>
      have hsame : b.after op = b := after_of_error (congrArg Prod.fst hperform)
      rw [after, hperform] at hsame
      rw [run_cons, after, hperform]
      exact ih (hsame.symm ▸ h)

theorem mem_of_granted (h : (op, r) ∈ b.granted ops) : op ∈ ops := by
  induction ops generalizing b with
  | nil => cases h
  | cons o ops ih =>
    rw [granted] at h
    split at h
    · rcases List.mem_cons.1 h with heq | h
      · cases heq
        exact List.mem_cons_self
      · exact List.mem_cons_of_mem o (ih h)
    · exact List.mem_cons_of_mem o (ih h)

theorem setter_error {e : Failure} (hop : op.place? = some place) (h : (b.perform op).1 = .error e) :
    e = .wrongKind := by
  cases op with
  | primitive | str | list | declareEnum | declareSequence | declareOneOf | build => cases hop
  | setEnum | setSequence | setOneOf =>
    simp only [perform, Reply.done, setEnum, setSequence, setOneOf] at h
    split at h
    · cases h
    · cases h
      rfl

theorem granted_of_setter (hop : op.place? = some place) (horder : b.orderly ops = true)
    (h : op ∈ ops) : ∃ r, (op, r) ∈ b.granted ops := by
  induction ops generalizing b with
  | nil => cases h
  | cons o ops ih =>
    rw [orderly] at horder
    rw [granted]
    rcases hperform : b.perform o with ⟨out, b'⟩
    rw [hperform] at horder
    cases out with
    | ok r =>
      rcases List.mem_cons.1 h with rfl | h
      · exact ⟨r, List.mem_cons_self⟩
      · obtain ⟨r, hr⟩ := ih horder h
        exact ⟨r, List.mem_cons_of_mem _ hr⟩
    | error e =>
      rcases List.mem_cons.1 h with rfl | h
      · cases setter_error hop (congrArg Prod.fst hperform)
        cases horder
      · cases e with
        | duplicate | unset => exact ih horder h
        | frozen | wrongKind => cases horder

theorem build_eq_ok_iff : b.build.1 = .ok () ↔ ∀ id, ¬ b.Unset id := by
  refine ⟨?_, fun h => by rw [build_of_set h]⟩
  rintro hbuild id ⟨t, ht, hneeds, hid⟩
  have hnone : b.firstUnset = none := by
    rw [build] at hbuild
    split at hbuild
    · cases hbuild
    · assumption
  have hrow := List.findSome?_eq_none_iff.1 hnone id (List.mem_range.2 (Schema.type?_lt ht))
  simp [ht, hneeds, hid] at hrow

theorem declare_duplicate_iff :
    (b.declare name t).1 = .error (.duplicate name) ↔ (b.lookup name).isSome = true := by
  unfold declare
  split
  · next hname => simp [hname]
  · next hname =>
    cases hbuilt : b.built with
    | true => simp [add_frozen hbuilt, hname]
    | false => simp [add_eq hbuilt, hname]

theorem perform_declaring (hc : b.Consistent) (hop : op.declares? = some name) :
    ((b.perform op).1 = .error (.duplicate name) ↔ (b.lookup name).isSome = true) ∧
    ∀ r, (b.perform op).1 = .ok r →
      r = some b.schema.types.size ∧ (b.after op).schema.types.size = b.schema.types.size + 1 := by
  refine ⟨?_, fun r h => ?_⟩
  · cases op with
    | declareEnum | declareSequence =>
      cases hop
      rw [← declare_duplicate_iff]
      exact ⟨error_of_map, congrArg (Except.map some)⟩
    | primitive | str | list | declareOneOf | setEnum | setSequence | setOneOf | build => cases hop
  · have hperform : b.perform op = (.ok r, b.after op) := Prod.ext h rfl
    generalize b.after op = c at hperform ⊢
    cases does_of_perform hc hperform with
    | find hsubject ht _ =>
      cases hop.symm.trans ((declares?_of_subject? hsubject).trans (of_not_needsFilling ht).1)
    | add _ henters => exact ⟨rfl, by rw [henters.types, Array.size_push]⟩
    | fill hplace _ _ _ => simp [Op.declares?, subject?_of_place? hplace] at hop
    | build heq =>
      subst heq
      cases hop

/-- A run in which nothing is added to a finished schema, and each setter is used on a type of its kind, leaves the
books in order. The indexes agree with the arena and the declarations, and primitive, string and list types are there
once. Every place that was given out holds the type that was asked for, apart from what setters put in it. The
declarations are the places given to declarations, in order and each once, and are found by their names and no others.
An operation that fails leaves everything as it was, and a declaration fails over its name exactly if that is taken;
otherwise it takes the next place. The schema can be finished exactly if each enum, sequence and union has been set. -/
theorem run_agrees_with_history {name : Bytes} {ops : List Op} {b : Builder} (hb : (new name).run ops = b)
    (horder : (new name).orderly ops = true) :
    b.Consistent ∧
    (∀ i j t, needsFilling t = false → b.schema.type? i = some t → b.schema.type? j = some t → i = j) ∧
    (∀ op id, (op, some id) ∈ (new name).granted ops →
      ∃ t, b.schema.type? id = some t ∧ op.subject? = some t.blank) ∧
    b.schema.decls = ((new name).granted ops).filterMap (fun e => if e.1.declares?.isSome then e.2 else none) ∧
    b.schema.decls.Nodup ∧
    (∀ n id, b.lookup n = some id ↔ ∃ op, (op, some id) ∈ (new name).granted ops ∧ op.declares? = some n) ∧
    (∀ op e, (b.perform op).1 = .error e → b.after op = b) ∧
    (∀ op n, op.declares? = some n →
      ((b.perform op).1 = .error (.duplicate n) ↔ (b.lookup n).isSome = true) ∧
      ∀ r, (b.perform op).1 = .ok r →
        r = some b.schema.types.size ∧ (b.after op).schema.types.size = b.schema.types.size + 1) ∧
    (b.build.1 = .ok () ↔
      ∀ id t, b.schema.type? id = some t → needsFilling t = true → ∃ op ∈ ops, op.place? = some id) := by
  have hkept : Kept b ((new name).granted ops) := hb ▸ (kept_new name).run ops
  have hc := hkept.consistent
  refine ⟨hc, fun i j t ht hi hj => ?_, hkept.holds, hkept.decls, hkept.nodup, fun n id => ?_,
    fun op e he => after_of_error he, fun op n hop => perform_declaring hc hop, ?_⟩
  · have hknown := (hc.known t i ht).2 hi
    exact Option.some.inj (hknown.symm.trans ((hc.known t j ht).2 hj))
  · rw [hc.names, hkept.lookup]
  · have hset : ∀ id, id ∈ b.filled ↔ ∃ op ∈ ops, op.place? = some id := by
      intro id
      rw [hkept.filled]
      constructor
      · rintro ⟨op, r, hmem, hplace⟩
        exact ⟨op, mem_of_granted hmem, hplace⟩
      · rintro ⟨op, hmem, hplace⟩
        obtain ⟨r, hr⟩ := granted_of_setter hplace horder hmem
        exact ⟨op, r, hr, hplace⟩
    rw [build_eq_ok_iff]
    constructor
    · intro hno id t ht hneeds
      exact (hset id).1 (not_not.1 fun hid => hno id ⟨t, ht, hneeds, hid⟩)
    · rintro hall id ⟨t, ht, hneeds, hid⟩
      exact hid ((hset id).2 (hall id t ht hneeds))

/-- An enum is declared and set, a second declaration of its name is refused, and a union is left unset. -/
def sampleHistory : List Op :=
  [.str, .declareEnum "E", .list 0, .declareSequence "E", .str, .declareOneOf ["u"], .setEnum 1 [⟨"a", 1⟩], .build]

theorem run_agrees_with_history_sample :
    (new "s").orderly sampleHistory = true ∧ ((new "s").run sampleHistory).lookup "E" = some 1 ∧
    ((new "s").run sampleHistory).after (.declareSequence "E") = (new "s").run sampleHistory ∧
    ((new "s").run sampleHistory).build.1 ≠ .ok () := by
  have horder : (new "s").orderly sampleHistory = true := by decide +kernel
  obtain ⟨-, -, -, -, -, hlookup, hfailed, -, hbuild⟩ := run_agrees_with_history rfl horder
  refine ⟨horder, (hlookup "E" 1).2 ⟨.declareEnum "E", by decide +kernel, rfl⟩, ?_, fun hdone => ?_⟩
  · exact hfailed (.declareSequence "E") (.duplicate "E") (by decide +kernel)
  · exact absurd (hbuild.1 hdone 3 (.oneOf ⟨["u"], []⟩) (by decide +kernel) rfl) (by decide +kernel)

end Flatwire.Builder
