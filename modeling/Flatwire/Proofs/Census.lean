import Mathlib.Algebra.BigOperators.Group.Multiset.Basic
import Mathlib.Tactic.Abel
import Flatwire.Proofs.Grammar
import Flatwire.Proofs.Layout

/-! How many types compilation puts into an arena. Each name, list and union of the source asks for one at most, and
each declaration for one more. On the way no list gets an element that is not there, and no type a name under which it
is not declared. -/

namespace Flatwire

mutual

/-- The names, lists and unions in a type. -/
def TypeForm.weight : TypeForm → Nat
  | .name _ => 1
  | .list elem => elem.weight + 1
  | .oneOf variants => variants.weight + 1

def FieldForms.weight : FieldForms → Nat
  | .nil => 0
  | .cons _ type rest => type.weight + rest.weight

end

def DeclForm.weight : DeclForm → Nat
  | .enum _ _ => 1
  | .sequence _ fields => fields.weight + 1

/-- Every list is of a type in the arena, and every type that has a name is declared. -/
def Schema.Closed (s : Schema) : Prop :=
  ∀ id t, s.type? id = some t → (∀ e, t = .list e → e < s.types.size) ∧ (t.declName? ≠ none → id ∈ s.decls)

namespace Builder

variable {a b c : Builder} {m n : Nat} {t : TypeDef} {id : TypeId}

/-- At most `n` types are added, and the arena stays closed. -/
structure Adds (a : Builder) (n : Nat) (b : Builder) : Prop where
  name : b.schema.name = a.schema.name
  le : a.schema.types.size ≤ b.schema.types.size
  size : b.schema.types.size ≤ a.schema.types.size + n
  closed : a.schema.Closed → b.schema.Closed

theorem Adds.refl (b : Builder) : b.Adds 0 b := ⟨rfl, Nat.le_refl _, Nat.le_refl _, fun h => h⟩

theorem Adds.trans (h : a.Adds m b) (h' : b.Adds n c) : a.Adds (m + n) c where
  name := h'.name.trans h.name
  le := h.le.trans h'.le
  size := by
    have := h.size
    have := h'.size
    omega
  closed hc := h'.closed (h.closed hc)

theorem Adds.mono (h : a.Adds m b) (hmn : m ≤ n) : a.Adds n b :=
  { h with size := h.size.trans (Nat.add_le_add_left hmn _) }

theorem adds_push (hname : b.schema.name = a.schema.name)
    (htypes : b.schema.types = a.schema.types.push t) (hdecls : ∀ id ∈ a.schema.decls, id ∈ b.schema.decls)
    (hlist : ∀ e, t = .list e → e < a.schema.types.size)
    (hdecl : t.declName? ≠ none → a.schema.types.size ∈ b.schema.decls) : a.Adds 1 b := by
  have hsize : b.schema.types.size = a.schema.types.size + 1 := by rw [htypes, Array.size_push]
  refine ⟨hname, by omega, by omega, fun hc id u hu => ?_⟩
  rw [Schema.type?, htypes, Array.getElem?_push] at hu
  split_ifs at hu with hid
  · cases hu
    exact ⟨fun e he => hsize ▸ Nat.lt_succ_of_lt (hlist e he), fun hn => hid ▸ hdecl hn⟩
  · obtain ⟨hl, hd⟩ := hc id u hu
    exact ⟨fun e he => hsize ▸ Nat.lt_succ_of_lt (hl e he), fun hn => hdecls id (hd hn)⟩

theorem Interns.adds (h : b.Interns t id c) (ht : needsFilling t = false)
    (hlist : ∀ e, t = .list e → e < b.schema.types.size) : b.Adds 1 c := by
  rcases kept_cases h.consistent ht h.run with ⟨rfl, -⟩ | ⟨rfl, -⟩
  · exact (Adds.refl _).mono (Nat.zero_le 1)
  · have hschema := b.schema_entered t
    refine adds_push (by rw [hschema]; rfl) (by rw [hschema]; rfl) (fun _ hid => ?_) hlist fun hn => ?_
    · rwa [hschema]
    · exact absurd (of_not_needsFilling ht).1 hn

theorem adds_withUnion (b : Builder) (path : List Bytes) : b.Adds 1 (b.withUnion path) :=
  adds_push rfl rfl (fun _ hid => hid) (fun _ he => by cases he) (fun hn => absurd rfl hn)

theorem adds_withDecl (b : Builder) (d : Decl) : b.Adds 1 (b.withDecl d.blank) := by
  refine adds_push rfl rfl (fun _ hid => List.mem_append_left _ hid) (fun e he => ?_) fun _ => ?_
  · cases d <;> cases he
  · exact List.mem_append_right _ List.mem_cons_self

theorem Refills.adds (h : b.Refills c) : b.Adds 0 c := by
  rcases h with rfl | ⟨place, t₀, t, rfl, h₀, hblank, hneeds⟩
  · exact .refl _
  have hsize : (b.fill place t).schema.types.size = b.schema.types.size := Array.size_setIfInBounds ..
  refine ⟨rfl, Nat.le_of_eq hsize.symm, Nat.le_of_eq hsize, fun hc p u hu => ?_⟩
  rw [type?_fill h₀] at hu
  split_ifs at hu with hp
  · cases hu
    refine ⟨fun e he => ?_, fun hn => ?_⟩
    · rw [he] at hneeds
      cases hneeds
    · rw [← t.declName?_blank, hblank, t₀.declName?_blank] at hn
      exact hp ▸ (hc place t₀ h₀).2 hn
  · rw [hsize]
    exact hc p u hu

end Builder

namespace Compile

variable {ds : List Decl} {st st' st₁ : State} {i m n : Nat} {path : List Bytes} {info : DeclInfo}

/-! ### Expressions -/

theorem weight_cons (f : FieldExpr) (gap : Gap) (rest : FieldList) :
    (FieldList.cons f gap rest).forms.weight = f.type.form.weight + rest.forms.weight := by
  cases f
  rfl

theorem stepwise_adds (known : Bytes → Bool) : Stepwise known (fun b _ type _ c => b.Adds type.form.weight c)
    fun b _ _ fs _ c => b.Adds fs.forms.weight c where
  builtin ht h := by cases ht <;> exact h.adds rfl (by simp)
  named _ _ := (Builder.Adds.refl _).mono (Nat.zero_le 1)
  unknown _ _ := (Builder.Adds.refl _).mono (Nat.zero_le 1)
  unlisted h := h.mono (Nat.le_succ _)
  list h hlt hintern := by
    refine h.trans (hintern.adds rfl ?_)
    rintro _ ⟨⟩
    exact hlt
  oneOf h _ hset _ _ := by
    refine (((Builder.adds_withUnion _ _).trans h).trans (Builder.refills_of_setOneOf hset).adds).mono (Nat.le_of_eq ?_)
    exact Nat.add_comm 1 (FieldList.forms _).weight
  nil := .refl _
  cons h _ _ hrest := weight_cons .. ▸ h.trans hrest

/-! ### Declarations -/

/-- The types that a declaration may still ask for. -/
def DeclInfo.due (info : DeclInfo) : Nat :=
  match info.decl, info.state with
  | .sequence d, .pending => d.fieldList.forms.weight
  | _, _ => 0

/-- The types that there are, with those that declarations may still ask for. -/
def State.load (st : State) : Nat := st.builder.schema.types.size + (st.infos.toList.map DeclInfo.due).sum

/-- The load rises by at most `n`, and the arena stays closed. -/
structure Spends (st : State) (n : Nat) (st' : State) : Prop where
  name : st'.builder.schema.name = st.builder.schema.name
  closed : st.builder.schema.Closed → st'.builder.schema.Closed
  load : st'.load ≤ st.load + n

theorem Spends.refl (st : State) : Spends st 0 st := ⟨rfl, fun h => h, Nat.le_refl _⟩

theorem Spends.trans (h : Spends st m st₁) (h' : Spends st₁ n st') : Spends st (m + n) st' where
  name := h'.name.trans h.name
  closed hc := h'.closed (h.closed hc)
  load := by
    have := h.load
    have := h'.load
    omega

theorem spends_of_adds (h : st.builder.Adds n st'.builder) (hinfos : st'.infos = st.infos) : Spends st n st' where
  name := h.name
  closed := h.closed
  load := by
    rw [State.load, State.load, hinfos]
    have := h.size
    omega

theorem sum_map_modify {α M : Type} [AddCommMonoid M] {xs : List α} {x : α} (h : xs[i]? = some x) (f : α → α)
    (g : α → M) : ((xs.modify i f).map g).sum + g x = (xs.map g).sum + g (f x) := by
  induction xs generalizing i with
  | nil => cases h
  | cons y ys ih =>
    cases i with
    | zero =>
      cases h
      simp only [List.modify_zero_cons, List.map_cons, List.sum_cons]
      abel
    | succ i =>
      simp only [List.modify_succ_cons, List.map_cons, List.sum_cons]
      rw [add_assoc, ih h, add_assoc]

theorem sum_settle {M : Type} [AddCommMonoid M] {g : DeclInfo → M} {s : LayoutState} (hi : st.infos[i]? = some info)
    (hg : g { info with state := s } = 0) (hinfos : st'.infos = (st.setState i s).infos) :
    (st'.infos.toList.map g).sum + g info = (st.infos.toList.map g).sum := by
  rw [← Array.getElem?_toList] at hi
  have hsum := sum_map_modify hi (fun info => { info with state := s }) g
  rw [hg, add_zero] at hsum
  rw [hinfos, ← hsum]
  exact congrArg (fun xs => (xs.map g).sum + g info) (Array.toList_modify ..)

theorem spends_settle {s : LayoutState} (hi : st.infos[i]? = some info) (hs : s ≠ .pending)
    (hb : st.builder.Adds 0 st'.builder) (hinfos : st'.infos = (st.setState i s).infos) :
    Spends st 0 st' ∧ st'.load + info.due ≤ st.load := by
  have hzero : DeclInfo.due { info with state := s } = 0 := by
    cases s with
    | pending => exact absurd rfl hs
    | visiting | done => cases info.decl <;> rfl
  have hsum := sum_settle hi hzero hinfos
  have hload : st'.load + info.due ≤ st.load := by
    have := hb.size
    rw [State.load, State.load]
    omega
  exact ⟨⟨hb.name, hb.closed, by omega⟩, hload⟩

theorem spends_finish (hi : st.infos[i]? = some info) (d : SequenceDecl) (id : Option TypeId) (part : Partial) :
    Spends st 0 (finish i d id part st).2 :=
  (spends_settle hi (by simp) (refills_finish i d id part st).adds (finish_infos ..)).1

theorem spends_compileEnum (hi : st.infos[i]? = some info) (d : EnumDecl) : Spends st 0 (compileEnum i info d st).2 :=
  (spends_settle hi (by simp) refills_compileEnum.adds compileEnum_infos).1

theorem spends_sequence {d : SequenceDecl} {id : Option TypeId} (hi : st.infos[i]? = some ⟨.sequence d, id, .pending⟩)
    (h : Spends (st.enter i) d.fieldList.forms.weight st₁) (hg : Grows (st.enter i) st₁) (part : Partial) :
    Spends st 0 (finish i d id part st₁).2 := by
  have hadds : st.builder.Adds 0 (st.enter i).builder := .refl _
  have hinfos : (st.enter i).infos = (st.setState i .visiting).infos := rfl
  obtain ⟨henter, hload⟩ := spends_settle hi (by simp) hadds hinfos
  have hfinish := spends_finish (hg.visiting hi) d id part
  have hall := (henter.trans h).trans hfinish
  refine ⟨hall.name, hall.closed, ?_⟩
  have := h.load
  have := hfinish.load
  change (st.enter i).load + d.fieldList.forms.weight ≤ st.load at hload
  omega

theorem spends_check (st : State) (q : Bytes) (part : Partial) (f : FieldExpr) : Spends st 0 (st.check q part f) :=
  ⟨rfl, fun h => h, Nat.le_refl _⟩

theorem Spends.mono (h : Spends st m st') (hmn : m ≤ n) : Spends st n st' :=
  { h with load := h.load.trans (Nat.add_le_add_left hmn _) }

theorem Visits.spends {q : Bytes} {part part' : Partial} {fs : FieldList} (h : Visits ds q part fs st part' st') :
    Spends st fs.forms.weight st' := by
  induction h with
  | nil => exact .refl _
  | @own q part f gap rest st found st₁ part' st' hst _ hres _ _ ih =>
    have hp := hst.placed.check q part f
    obtain ⟨hadds, hinfos⟩ := (stepwise_adds _).resolve hp.ready hp.indexed hres
    have hall := ((spends_check st q part f).trans (spends_of_adds hadds hinfos)).trans ih
    rw [Nat.zero_add] at hall
    exact (weight_cons f gap rest).symm ▸ hall
  | @known q part f gap rest st i info n part' st' _ _ _ _ _ ih =>
    refine ((spends_check st q part f).trans ih).mono ?_
    rw [weight_cons]
    omega
  | @cycle q part f gap rest st i info part' st' _ _ _ _ _ ih =>
    have hcyclic : Spends st 0 ((st.check q part f).cyclic f i) := ⟨rfl, fun h => h, Nat.le_refl _⟩
    refine (hcyclic.trans ih).mono ?_
    rw [weight_cons]
    omega
  | @inner q part f gap rest st i d id innerPart st₁ part' st' _ _ hinfo hinner _ ihInner ihRest =>
    -- what the inner sequence asks for was counted while it was pending, so the field itself is free
    have hpending : (st.check q part f).infos[i]? = some ⟨.sequence d, id, .pending⟩ := hinfo
    have hsequence := spends_sequence hpending ihInner hinner.walk.2 innerPart
    refine (((spends_check st q part f).trans hsequence).trans ihRest).mono ?_
    rw [weight_cons]
    omega

theorem LaysOut.spends (h : LaysOut st st') (hw : Walk ds st) (hp : Placed st) : Spends st 0 st' := by
  obtain ⟨i, d, id, part, st₁, hi, hvisits, rfl⟩ := h.visits hw hp
  exact spends_sequence hi hvisits.spends hvisits.walk.2 part

/-! ### All declarations -/

theorem Walk.sum_eq_zero {M : Type} [AddCommMonoid M] {f : DeclInfo → M} (hw : Walk ds st)
    (hdone : ∀ k < ds.length, Done st k) (hf : ∀ info n, info.state = .done n → f info = 0) :
    (st.infos.toList.map f).sum = 0 := by
  refine List.sum_eq_zero fun x hx => ?_
  obtain ⟨info, hinfo, rfl⟩ := List.mem_map.1 hx
  obtain ⟨k, hk⟩ := List.getElem?_of_mem hinfo
  have hlt : k < ds.length := by
    rw [← hw.decls, List.length_map]
    exact (List.getElem?_eq_some_iff.1 hk).1
  obtain ⟨info', n, hinfo', hstate⟩ := hdone k hlt
  rw [← Array.getElem?_toList, hk] at hinfo'
  cases hinfo'
  exact hf info n hstate

/-- The types that declarations ask for. -/
def declsWeight (ds : List Decl) : Nat := (ds.map fun d => d.form.weight).sum

theorem due_pending (d : Decl) (id : Option TypeId) : DeclInfo.due ⟨d, id, .pending⟩ + 1 = d.form.weight := by
  cases d <;> rfl

theorem Placed.spends_register (h : Placed st) (d : Decl) : Spends st d.form.weight (Compile.register d st).2 := by
  have hadds : ∃ id b es, (Compile.register d st).2 = (st.amend b es).addDecl d id ∧ st.builder.Adds 1 b := by
    rcases h.register_cases d with ⟨-, heq⟩ | ⟨-, heq⟩
    · exact ⟨_, _, _, heq, Builder.adds_withDecl _ d⟩
    · exact ⟨_, _, _, heq, (Builder.Adds.refl _).mono (Nat.zero_le 1)⟩
  obtain ⟨id, b, es, heq, hb⟩ := hadds
  rw [heq]
  refine ⟨hb.name, hb.closed, ?_⟩
  have := hb.size
  have := due_pending d id
  rw [State.load, State.load, State.addDecl, Array.toList_push, List.map_append, List.sum_append]
  simp only [amend_builder, amend_infos, List.map_cons, List.map_nil, List.sum_cons, List.sum_nil]
  omega

theorem Placed.spends_registerAll (h : Placed st) (ds : List Decl) :
    Spends st (declsWeight ds) (registerAll ds st).2 := by
  induction ds generalizing st with
  | nil => exact .refl st
  | cons d ds ih => exact (h.spends_register d).trans (ih (h.register d).1)

theorem spends_compileEnums (k : Nat) (rest : List Decl) (st : State) : Spends st 0 (compileEnums k rest st).2 := by
  induction rest generalizing k st with
  | nil => exact .refl st
  | cons d rest ih =>
    cases d with
    | sequence q => exact ih (k + 1) st
    | enum e =>
      cases hk : st.infos[k]? with
      | none =>
        have hskip : compileEnums k (.enum e :: rest) st = compileEnums (k + 1) rest st := by
          simp only [compileEnums, get_bind, hk]
        rw [hskip]
        exact ih (k + 1) st
      | some info =>
        rw [compileEnums_enum hk]
        exact (spends_compileEnum hk e).trans (ih (k + 1) _)

theorem spends_compileDecls (ds : List Decl) (name : Bytes) :
    Spends (start name) (declsWeight ds) (compileDecls ds (start name)).2 := by
  obtain ⟨st', hrun, -, hsteps, -⟩ := compileDecls_spec ds name
  have hprepared := prepared_spec name ds
  have hstart : Spends (start name) (declsWeight ds) (prepared name ds) :=
    ((placed_start name).spends_registerAll ds).trans (spends_compileEnums 0 ds _)
  rw [hrun]
  exact (hprepared.walk.runPlaced hprepared.toPlaced hsteps hstart
    fun st st' hw hp hlays ih => ih.trans (hlays.spends hw hp)).2.2.2

theorem closed_compileDecls (ds : List Decl) (name : Bytes) :
    (compileDecls ds (start name)).2.builder.schema.Closed := by
  refine (spends_compileDecls ds name).closed fun id t ht => ?_
  cases ht

theorem size_compileDecls (ds : List Decl) (name : Bytes) :
    (compileDecls ds (start name)).2.builder.schema.types.size ≤ declsWeight ds :=
  (Nat.le_add_right _ _).trans ((spends_compileDecls ds name).load.trans (Nat.le_of_eq (Nat.zero_add _)))

end Compile

end Flatwire
