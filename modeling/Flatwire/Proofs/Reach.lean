import Flatwire.Proofs.Portability

/-! Nothing in an arena is left over. Every type of a compiled schema is reached from the declarations, by way of the
fields of sequences, the elements of lists and the variants of unions. -/

namespace Flatwire

namespace Schema

/-- The type is a root, or one that refers to it is reached and is among those that may be gone through. -/
inductive Reach (s : Schema) (through root : TypeId → Prop) : TypeId → Prop where
  | root {id} : root id → Reach s through root id
  | ref {i t id} : Reach s through root i → through i → s.type? i = some t → id ∈ t.refs → Reach s through root id

theorem Reach.transport {s s' : Schema} {through through' root root' : TypeId → Prop} {id : TypeId}
    (h : s.Reach through root id)
    (hstep : ∀ i t, through i → s.type? i = some t → through' i ∧ ∃ t', s'.type? i = some t' ∧ t.refs ⊆ t'.refs)
    (hroot : ∀ r, root r → s'.Reach through' root' r) : s'.Reach through' root' id := by
  induction h with
  | root hr => exact hroot _ hr
  | ref _ hthrough ht hid ih =>
    obtain ⟨hthrough', t', ht', hsub⟩ := hstep _ _ hthrough ht
    exact ih.ref hthrough' ht' (hsub hid)

end Schema

namespace Builder

variable {a b c : Builder} {t : TypeDef} {id : TypeId} {root root' : TypeId → Prop}

/-- Chains that go through types without a name only. -/
abbrev Leads (b : Builder) (root : TypeId → Prop) (id : TypeId) : Prop :=
  b.schema.Reach (fun i => b.schema.declName? i = none) root id

/-- The roots lead to every type that the second builder has and the first has not. -/
def Spans (a b : Builder) (root : TypeId → Prop) : Prop :=
  ∀ id t, b.schema.type? id = some t → (∃ u, a.schema.type? id = some u) ∨ b.Leads root id

theorem spans_self (b : Builder) (root : TypeId → Prop) : b.Spans b root := fun _ t ht => .inl ⟨t, ht⟩

theorem Spans.mono (h : a.Spans b root) (hroot : ∀ r, root r → root' r) : a.Spans b root' := fun id t ht =>
  (h id t ht).imp_right fun hleads =>
    hleads.transport (fun _ t hname ht => ⟨hname, t, ht, fun _ href => href⟩) fun r hr => .root (hroot r hr)

theorem Leads.append (h : a.Leads root id) (hab : a.Appends b) (hroot : ∀ r, root r → b.Leads root' r) :
    b.Leads root' id :=
  h.transport (fun i t hname ht => ⟨(hab.names i).trans hname, t, hab.types i t ht, fun _ href => href⟩) hroot

theorem Spans.append (h : a.Spans b root) (hbc : b.Appends c) (h' : b.Spans c root')
    (hroot : ∀ r, root r → c.Leads root' r) : a.Spans c root' := by
  intro id t ht
  rcases h' id t ht with ⟨u, hu⟩ | hleads
  · rcases h id u hu with hold | hleads
    · exact .inl hold
    · exact .inr (hleads.append hbc hroot)
  · exact .inr hleads

theorem Interns.spans (h : b.Interns t id c) (ht : needsFilling t = false) : b.Spans c fun r => some id = some r := by
  rcases kept_cases h.consistent ht h.run with ⟨rfl, -⟩ | ⟨rfl, rfl, -⟩
  · exact spans_self _ _
  · intro i u hu
    rw [schema_entered, type?_pushed] at hu
    split_ifs at hu with hi
    · exact .inr (.root (congrArg some hi.symm))
    · exact .inl ⟨u, hu⟩

theorem Spans.setOneOf {path : List Bytes} {vs : List Variant}
    (h : (a.withUnion path).Spans b fun r => ∃ v ∈ vs, v.type = r) (hab : (a.withUnion path).Appends b)
    (htypes : ∀ id, c.schema.type? id =
      if id = a.schema.types.size then some (.oneOf ⟨path, vs⟩) else b.schema.type? id) :
    a.Spans c fun r => some a.schema.types.size = some r := by
  have hplace : b.schema.type? a.schema.types.size = some (.oneOf ⟨path, []⟩) :=
    hab.types _ _ (by rw [type?_withUnion, if_pos rfl])
  have hunion : c.schema.type? a.schema.types.size = some (.oneOf ⟨path, vs⟩) := by rw [htypes, if_pos rfl]
  have hnames : ∀ i, c.schema.declName? i = b.schema.declName? i := by
    intro i
    rw [Schema.declName?, Schema.declName?, htypes]
    split_ifs with hi
    · rw [hi, hplace]
      rfl
    · rfl
  intro id t ht
  by_cases hid : id = a.schema.types.size
  · exact .inr (.root (congrArg some hid.symm))
  · rw [htypes, if_neg hid] at ht
    rcases h id t ht with ⟨u, hu⟩ | hleads
    · rw [type?_withUnion, if_neg hid] at hu
      exact .inl ⟨u, hu⟩
    · refine .inr (hleads.transport (fun i u hname hu => ⟨(hnames i).trans hname, ?_⟩) ?_)
      · rw [htypes]
        split_ifs with hi
        · rw [hi, hplace] at hu
          cases hu
          exact ⟨_, rfl, by simp [TypeDef.refs]⟩
        · exact ⟨u, hu, fun _ href => href⟩
      · rintro r ⟨v, hv, rfl⟩
        refine .ref (.root rfl) ?_ hunion (List.mem_map_of_mem hv)
        rw [Schema.declName?, hunion]
        rfl

end Builder

namespace Compile

variable {ds : List Decl} {st st' st₁ : State} {i : Nat} {path : List Bytes}

/-! ### Expressions -/

theorem stepwise_spans (known : Bytes → Bool) : Stepwise known (fun b _ _ found c => b.Spans c fun r => found = some r)
    fun b _ _ _ vs c => b.Spans c fun r => ∃ v ∈ vs, v.type = r where
  builtin ht h := by cases ht <;> exact h.spans rfl
  named _ _ := Builder.spans_self _ _
  unknown _ _ := Builder.spans_self _ _
  unlisted h := h
  list h _ hintern := by
    refine h.append hintern.appends (hintern.spans rfl) ?_
    rintro _ ⟨⟩
    refine .ref (.root rfl) ?_ hintern.type List.mem_cons_self
    rw [Schema.declName?, hintern.type]
    rfl
  oneOf h happends _ _ htypes := h.setOneOf happends htypes
  nil := Builder.spans_self _ _
  cons h hv happends hrest := by
    refine h.append happends (hrest.mono ?_) ?_
    · rintro _ ⟨w, hw, rfl⟩
      exact ⟨w, List.mem_cons_of_mem _ hw, rfl⟩
    · rintro _ rfl
      exact .root ⟨_, List.mem_cons_self, hv ▸ rfl⟩

/-! ### Declarations -/

/-- Every type is reached from the roots, by way of types that stay as they are. -/
def Joined (st : State) (root : TypeId → Prop) : Prop :=
  ∀ id t, st.builder.schema.type? id = some t → st.builder.schema.Reach (Settled st) root id

/-- The types of the fields that are known. -/
def Partial.types (part : Partial) : List TypeId := part.fields.toList.map Field.type

theorem Partial.types_add (part : Partial) (name : Bytes) (id : TypeId) (size : Nat) :
    (part.add name id size).types = part.types ++ [id] := by
  simp [types, add]

variable {root root' : TypeId → Prop}

theorem Joined.mono (h : Joined st root) (hroot : ∀ r, root r → root' r) : Joined st root' := fun id t ht =>
  (h id t ht).transport (fun _ t hsettled ht => ⟨hsettled, t, ht, fun _ href => href⟩) fun r hr => .root (hroot r hr)

/-- What was reached stays so; what is new has to be reached. -/
theorem Joined.grow (h : Joined st root) (hb : Builds st st')
    (hnew : ∀ id t, st'.builder.schema.type? id = some t → (∃ u, st.builder.schema.type? id = some u) ∨
      st'.builder.schema.Reach (Settled st') root' id)
    (hroot : ∀ r, root r → st'.builder.schema.Reach (Settled st') root' r) : Joined st' root' := by
  intro id t ht
  rcases hnew id t ht with ⟨u, hu⟩ | hreach
  · refine (h id u hu).transport (fun i u hsettled hu => ⟨hb.settled i hsettled, u, ?_, fun _ href => href⟩) hroot
    exact hb.types i u hsettled hu
  · exact hreach

theorem Joined.amend (h : Joined st root) (es : List CompileError) : Joined (st.amend st.builder es) root := h

theorem Joined.resolve {type : TypeExpr} {found : Option TypeId} (h : Joined st root) (hp : Placed st)
    (hres : resolve path type st = (found, st₁)) (hroot : ∀ r, root r ∨ found = some r → root' r) :
    Joined st₁ root' := by
  obtain ⟨hp₁, hb₁⟩ := hp.resolve hres
  have hspans := ((stepwise_spans _).resolve hp.ready hp.indexed hres).1
  refine h.grow hb₁ (fun id t ht => (hspans id t ht).imp_right fun hleads => ?_) fun r hr => .root (hroot r (.inl hr))
  refine hleads.transport (fun i u hname hu => ⟨hp₁.settled hu ?_, u, hu, fun _ href => href⟩) fun r hr =>
    .root (hroot r (.inr hr))
  rwa [Schema.declName?, hu] at hname

theorem Joined.enter {d : SequenceDecl} {id : Option TypeId} (h : Joined st root)
    (hi : st.infos[i]? = some ⟨.sequence d, id, .pending⟩) : Joined (st.enter i) root :=
  h.grow (builds_enter hi) (fun _ t ht => .inl ⟨t, ht⟩) fun _ hr => .root hr

theorem Joined.finish {d : SequenceDecl} {id : Option TypeId} {part : Partial}
    (h : Joined st fun r => root r ∨ r ∈ part.types) (hp : Placed st)
    (hi : st.infos[i]? = some ⟨.sequence d, id, .visiting⟩) (hnil : (finish i d id part st).2.errors = [])
    (hdecls : ∀ p ∈ st.builder.schema.decls, root p) :
    Joined (finish i d id part st).2 root := by
  obtain ⟨hp', hb, htype, -⟩ := hp.finish hi (by simp) part
  have hnil₀ : st.errors = [] := (List.append_eq_nil_iff.1 ((finish_errors ..).symm.trans hnil)).1
  obtain ⟨p, rfl⟩ := Option.ne_none_iff_exists'.1 (hp.registered hnil₀ i _ hi)
  have hplace : p ∈ st.builder.schema.decls := by
    rw [hp.decls, List.mem_filterMap]
    exact ⟨_, Array.mem_toList_iff.2 (Array.mem_of_getElem? hi), rfl⟩
  have hdone : (Compile.finish i d (some p) part st).2.infos[i]? = some ⟨.sequence d, some p, .done part.size⟩ := by
    rw [finish_infos, getElem?_setState, if_pos rfl, hi]
    rfl
  refine h.grow hb (fun q t ht => .inl ?_) fun r hr => ?_
  · have hlt := Nat.lt_of_lt_of_le (Schema.type?_lt ht) (refills_finish i d (some p) part st).adds.size
    exact ⟨_, Array.getElem?_eq_getElem hlt⟩
  · rcases hr with hr | hr
    · exact .root hr
    · exact .ref (.root (hdecls p hplace)) (hp'.settled_of_done hdone rfl rfl) (htype p rfl) hr

theorem Grows.decls (h : Grows st st') (hw : Walk ds st) (hw' : Walk ds st') (hp : Placed st) (hp' : Placed st') :
    st'.builder.schema.decls = st.builder.schema.decls := by
  have hids : st'.infos.toList.map DeclInfo.id = st.infos.toList.map DeclInfo.id := by
    apply List.ext_getElem?
    intro k
    rw [List.getElem?_map, List.getElem?_map, Array.getElem?_toList, Array.getElem?_toList]
    cases hk : st.infos[k]? with
    | none =>
      have hk' := hw'.getElem? k
      rw [hw.getElem? k, hk] at hk'
      rw [Option.map_eq_none_iff.1 hk'.symm]
    | some info =>
      obtain ⟨s, hs, -⟩ := h.infos k info hk
      rw [hs]
      rfl
  rw [hp'.decls, hp.decls]
  simpa [List.filterMap_map] using congrArg (List.filterMap id) hids

theorem Visits.joined {q : Bytes} {part part' : Partial} {fs : FieldList} (h : Visits ds q part fs st part' st')
    (hnil : st'.errors = []) (hdecls : ∀ p ∈ st.builder.schema.decls, root p)
    (hj : Joined st fun r => root r ∨ r ∈ part.types) : Joined st' fun r => root r ∨ r ∈ part'.types := by
  have hadd : ∀ {root : TypeId → Prop} {part : Partial} {name id n} r, root r ∨ r ∈ part.types →
      root r ∨ r ∈ (part.add name id n).types := by
    intro root part name id n r hr
    rw [Partial.types_add, List.mem_append]
    exact hr.imp_right .inl
  induction h generalizing root with
  | nil => exact hj
  | @own q part f gap rest st found st₁ part' st' hst _ hres hg hvisits ih =>
    have hj₁ : Joined st₁ fun r => root r ∨ r ∈ (part.add f.name.text (found.getD 0) (ownSize f.type)).types := by
      refine (hj.amend _).resolve (hst.placed.check q part f) hres fun r hr => ?_
      rcases hr with hr | rfl
      · exact hadd r hr
      · rw [Partial.types_add]
        exact .inr (List.mem_append_right _ List.mem_cons_self)
    have hst₁ := hvisits.stands
    exact ih hnil (hg.decls hst.walk hst₁.walk hst.placed hst₁.placed ▸ hdecls) hj₁
  | known _ _ _ _ _ ih => exact ih hnil hdecls ((hj.amend _).mono hadd)
  | cycle _ _ _ _ _ ih => exact ih hnil hdecls (((hj.amend _).amend _).mono hadd)
  | @inner q part f gap rest st i d id innerPart st₁ part' st' hst _ hinfo hinner hvisits ihInner ihRest =>
    obtain ⟨hw₁, hg₁⟩ := hinner.walk
    have hnil₂ := hvisits.walk.2.errors_eq_nil hnil
    have hnil₁ := (List.append_eq_nil_iff.1 ((finish_errors ..).symm.trans hnil₂)).1
    have hp₁ := hinner.placed.1
    have hst₂ := hvisits.stands
    have hdecls₁ : st₁.builder.schema.decls = st.builder.schema.decls :=
      hg₁.decls hinner.stands.walk hw₁ hinner.stands.placed hp₁
    have hdecls₂ := ((grows_check st q part f).trans (hw₁.finish hg₁ hinfo innerPart).2.1).decls hst.walk hst₂.walk
      hst.placed hst₂.placed
    -- the fields that are known of the outer sequence are roots for the inner one
    have hj₁ : Joined st₁ fun r => (root r ∨ r ∈ part.types) ∨ r ∈ innerPart.types :=
      ihInner hnil₁ (fun p hp => .inl (hdecls p hp)) ((hj.enter hinfo).mono fun r hr => .inl hr)
    have hj₂ := hj₁.finish hp₁ (hg₁.visiting hinfo) hnil₂ fun p hp => .inl (hdecls p (hdecls₁ ▸ hp))
    exact ihRest hnil (hdecls₂ ▸ hdecls) (hj₂.mono hadd)

theorem LaysOut.joined (h : LaysOut st st') (hw : Walk ds st) (hp : Placed st) (hnil : st'.errors = [])
    (hj : Joined st (· ∈ st.builder.schema.decls)) : Joined st' (· ∈ st'.builder.schema.decls) := by
  obtain ⟨hw', hg⟩ := h.walk hw
  obtain ⟨i, d, id, part, st₁, hi, hvisits, rfl⟩ := h.visits hw hp
  obtain ⟨hw₁, hg₁⟩ := hvisits.walk
  have hp₁ := hvisits.placed.1
  have hp' := (hp₁.finish (hg₁.visiting hi) (by simp) part).1
  have hdecls₁ : st₁.builder.schema.decls = st.builder.schema.decls :=
    hg₁.decls hvisits.stands.walk hw₁ hvisits.stands.placed hp₁
  have hnil₁ := (List.append_eq_nil_iff.1 ((finish_errors ..).symm.trans hnil)).1
  have hj₁ := hvisits.joined hnil₁ (fun p hp => hp) ((hj.enter hi).mono fun r hr => .inl hr)
  rw [hg.decls hw hw' hp hp']
  exact hj₁.finish hp₁ (hg₁.visiting hi) hnil fun p hp => hdecls₁ ▸ hp

/-! ### All declarations -/

/-- The arena holds declarations only. -/
def OnlyDecls (st : State) : Prop := ∀ id < st.builder.schema.types.size, id ∈ st.builder.schema.decls

theorem OnlyDecls.register (h : OnlyDecls st) (hp : Placed st) (d : Decl) : OnlyDecls (register d st).2 := by
  rcases hp.register_cases d with ⟨-, heq⟩ | ⟨-, heq⟩
  · rw [heq]
    intro id hid
    change id < (st.builder.schema.types.push d.blank).size at hid
    change id ∈ st.builder.schema.decls ++ [st.builder.schema.types.size]
    rw [Array.size_push] at hid
    rcases Nat.lt_succ_iff_lt_or_eq.1 hid with hlt | rfl
    · exact List.mem_append_left _ (h id hlt)
    · exact List.mem_append_right _ List.mem_cons_self
  · rw [heq]
    exact h

theorem OnlyDecls.registerAll (h : OnlyDecls st) (hp : Placed st) (ds : List Decl) :
    OnlyDecls (registerAll ds st).2 := by
  induction ds generalizing st with
  | nil => exact h
  | cons d ds ih => exact ih (h.register hp d) (hp.register d).1

theorem OnlyDecls.compileEnums {k : Nat} {rest : List Decl} (h : OnlyDecls st) (hp : Prepared ds k st)
    (hrest : ds.drop k = rest) : OnlyDecls (compileEnums k rest st).2 := by
  refine (hp.run hrest h fun k st e id hp hk h p hlt => ?_).2
  have hdecls : (compileEnum k ⟨.enum e, id, .pending⟩ e st).2.builder.schema.decls = st.builder.schema.decls := by
    rw [(hp.enum hk).decls, hp.decls, compileEnum_infos, ids_setState]
  rw [hdecls]
  exact h p (Nat.lt_of_lt_of_le hlt refills_compileEnum.adds.size)

theorem joined_compileDecls {name : Bytes} (hnil : (compileDecls ds (start name)).2.errors = []) :
    Joined (compileDecls ds (start name)).2 (· ∈ (compileDecls ds (start name)).2.builder.schema.decls) := by
  obtain ⟨st', hrun, -, hsteps, -⟩ := compileDecls_spec ds name
  have hprepared := prepared_spec name ds
  have hstart : OnlyDecls (prepared name ds) := by
    have hempty : OnlyDecls (start name) := fun id hid => absurd hid (Nat.not_lt_zero id)
    exact (hempty.registerAll (placed_start name) ds).compileEnums ((registered_start name).registerAll ds).prepared rfl
  obtain ⟨-, -, -, hjoined⟩ := hprepared.walk.runPlaced
    (P := fun st => st.errors = [] → Joined st (· ∈ st.builder.schema.decls)) hprepared.toPlaced hsteps
    (fun _ id t ht => .root (hstart id (Schema.type?_lt ht))) fun st st' hw hp hlays ih hnil =>
      hlays.joined hw hp hnil (ih ((hlays.walk hw).2.errors_eq_nil hnil))
  rw [hrun] at hnil ⊢
  exact hjoined hnil

end Compile

theorem Schema.reach_of_compile {tree : SchemaTree} {name : Bytes} {s : Schema}
    (h : (compile tree name).schema = some s) {id : TypeId} (hid : id < s.types.size) :
    s.Reach (fun _ => True) (· ∈ s.decls) id := by
  have herrors := Compile.errors_of_schema h
  have hnil : (Compile.compileDecls tree.decls (Compile.start name)).2.errors = [] := by
    rw [Compile.compile_errors, ← List.length_eq_zero_iff, List.length_mergeSort] at herrors
    exact List.length_eq_zero_iff.1 herrors
  cases h.symm.trans (Compile.compile_accepted herrors).2
  refine (Compile.joined_compileDecls hnil id _ (Array.getElem?_eq_getElem hid)).transport ?_ fun r hr => .root hr
  exact fun i t _ ht => ⟨trivial, t, ht, fun _ href => href⟩

end Flatwire
