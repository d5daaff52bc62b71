import Mathlib.Data.List.Perm.Subperm
import Mathlib.Data.List.Chain
import Mathlib.Logic.Relation
import Flatwire.Proofs.Resolving

/-! Layout as a walk over declarations. What it does field by field is said once, as a relation between states; layout
follows it whatever is done below the depth that it is given, because the sequences in progress are nested in each other
and no sequence is entered twice. -/

namespace Flatwire

theorem FieldList.induction {Q : FieldList → Prop} (nil : Q .nil) (cons : ∀ f gap rest, Q rest → Q (.cons f gap rest))
    (fs : FieldList) : Q fs :=
  (TypeExpr.induction (P := fun _ => True) (fun _ => trivial) (fun _ _ _ _ _ _ _ => trivial)
    (fun _ _ _ _ _ _ _ _ => trivial) nil fun f gap rest _ => cons f gap rest).2 fs

namespace Compile

variable {q : Bytes} {rest : FieldList}

/-! ### Declarations that hold each other -/

/-- The first declaration of a name. -/
def firstDecl (ds : List Decl) (name : Bytes) : Option Nat := ds.findIdx? fun d => d.name.text = name

/-- The type is the name of the declaration. -/
def Names (ds : List Decl) (type : TypeExpr) (j : Nat) : Prop :=
  ∃ ident, type = .name ident ∧ isBuiltin ident.text = false ∧ firstDecl ds ident.text = some j

/-- A field of the first sequence holds a value of the second in place. -/
def Embeds (ds : List Decl) (i j : Nat) : Prop :=
  ∃ d e f, ds[i]? = some (.sequence d) ∧ ds[j]? = some (.sequence e) ∧ f ∈ d.fields ∧ Names ds f.type j

instance (ds : List Decl) (type : TypeExpr) (j : Nat) : Decidable (Names ds type j) :=
  match type with
  | .name ident => decidable_of_iff (isBuiltin ident.text = false ∧ firstDecl ds ident.text = some j) (by simp [Names])
  | .list .. => isFalse (by simp [Names])
  | .oneOf .. => isFalse (by simp [Names])

instance (ds : List Decl) (i j : Nat) : Decidable (Embeds ds i j) :=
  match hi : ds[i]?, hj : ds[j]? with
  | some (.sequence d), some (.sequence _) =>
    decidable_of_iff (∃ f ∈ d.fields, Names ds f.type j) (by simp [Embeds, hi, hj])
  | some (.enum _), _ => isFalse (by simp [Embeds, hi])
  | _, some (.enum _) => isFalse (by simp [Embeds, hj])
  | none, _ => isFalse (by simp [Embeds, hi])
  | _, none => isFalse (by simp [Embeds, hj])

variable {ds : List Decl} {infos : Array DeclInfo} {st st' st₁ : State} {i j : Nat} {d : SequenceDecl}
  {id : Option TypeId}

theorem getElem?_decls (h : infos.toList.map DeclInfo.decl = ds) (i : Nat) : ds[i]? = (infos[i]?).map DeclInfo.decl := by
  rw [← h, List.getElem?_map, Array.getElem?_toList]

theorem findDecl_eq (h : infos.toList.map DeclInfo.decl = ds) (name : Bytes) :
    findDecl infos name = firstDecl ds name := by
  obtain ⟨infos⟩ := infos
  rw [findDecl, firstDecl, ← h, List.findIdx?_map, List.findIdx?_toArray]
  rfl

theorem target?_eq_some_iff (h : infos.toList.map DeclInfo.decl = ds) {type : TypeExpr} :
    target? infos type = some j ↔ Names ds type j := by
  cases type with
  | name ident =>
    rw [target?, findDecl_eq h]
    cases hb : isBuiltin ident.text <;> simp [Names, hb]
  | list => simp [target?, Names]
  | oneOf => simp [target?, Names]

theorem target?_spec {type : TypeExpr} (h : target? infos type = some i) : ∃ info, infos[i]? = some info := by
  cases type with
  | name ident =>
    rw [target?] at h
    split_ifs at h
    obtain ⟨info, hinfo, -⟩ := findDecl_spec h
    exact ⟨info, hinfo⟩
  | list => cases h
  | oneOf => cases h

/-! ### What layout does, field by field -/

/-- The state after the check of a field's name. -/
def State.check (st : State) (sequence : Bytes) (part : Partial) (f : FieldExpr) : State :=
  st.amend st.builder (errorIf (part.names.contains f.name.text) (.fieldConflict f.name.text sequence) f.name.span)

/-- The state after the report that a field closes a cycle at a sequence in progress. -/
def State.cyclic (st : State) (f : FieldExpr) (i : Nat) : State :=
  st.amend st.builder [⟨.cyclicLayout (cyclePath st.infos st.stack i), f.type.span⟩]

/-- Laying out fields of a sequence takes what is known of it and the state to others. -/
inductive Lays : Bytes → Partial → FieldList → State → Partial → State → Prop where
  | nil {q part st} : Lays q part .nil st part st
  | own {q part f gap rest st found st₁ part' st'} : target? st.infos f.type = none →
      resolve [q, f.name.text] f.type (st.check q part f) = (found, st₁) →
      Lays q (part.add f.name.text (found.getD 0) (ownSize f.type)) rest st₁ part' st' →
      Lays q part (.cons f gap rest) st part' st'
  | known {q part f gap rest st i info n part' st'} : target? st.infos f.type = some i →
      st.infos[i]? = some info → info.state = .done n →
      Lays q (part.add f.name.text (info.id.getD 0) n) rest (st.check q part f) part' st' →
      Lays q part (.cons f gap rest) st part' st'
  | cycle {q part f gap rest st i info part' st'} : target? st.infos f.type = some i →
      st.infos[i]? = some info → info.state = .visiting →
      Lays q (part.add f.name.text (info.id.getD 0) 0) rest
        ((st.check q part f).cyclic f i) part' st' →
      Lays q part (.cons f gap rest) st part' st'
  | inner {q part f gap rest st i d id innerPart st₁ part' st'} : target? st.infos f.type = some i →
      st.infos[i]? = some ⟨.sequence d, id, .pending⟩ →
      Lays d.name.text .empty d.fieldList ((st.check q part f).enter i) innerPart st₁ →
      Lays q (part.add f.name.text (id.getD 0) innerPart.size) rest (finish i d id innerPart st₁).2 part' st' →
      Lays q part (.cons f gap rest) st part' st'

/-! ### States of the walk -/

/-- Enums are done, and each layout in progress was asked for by a field of the one around it. -/
structure Walk (ds : List Decl) (st : State) : Prop where
  decls : st.infos.toList.map DeclInfo.decl = ds
  enums : ∀ (i : Nat) (info : DeclInfo) (e : EnumDecl), st.infos[i]? = some info → info.decl = .enum e →
    ∃ n, info.state = .done n
  visiting : ∀ i, i ∈ st.stack ↔ ∃ info : DeclInfo, st.infos[i]? = some info ∧ info.state = .visiting
  nodup : st.stack.Nodup
  nested : st.stack.IsChain fun i j => Embeds ds j i
  ready : st.builder.Ready

/-- What layout leaves as it was: the layouts in progress, and those that are done. -/
structure Grows (st st' : State) : Prop where
  errors : st.errors <+: st'.errors
  stack : st'.stack = st.stack
  infos : ∀ (i : Nat) (info : DeclInfo), st.infos[i]? = some info → ∃ s, st'.infos[i]? = some { info with state := s } ∧
    (info.state ≠ .pending → s = info.state)

theorem Grows.refl (st : State) : Grows st st :=
  ⟨List.prefix_refl _, rfl, fun _ info h => ⟨info.state, h, fun _ => rfl⟩⟩

theorem Grows.trans (h : Grows st st₁) (h' : Grows st₁ st') : Grows st st' where
  errors := h.errors.trans h'.errors
  stack := h'.stack.trans h.stack
  infos i info hi := by
    obtain ⟨s, hs, hkeep⟩ := h.infos i info hi
    obtain ⟨s', hs', hkeep'⟩ := h'.infos i _ hs
    refine ⟨s', hs', fun hne => ?_⟩
    rw [← hkeep hne]
    exact hkeep' (by rw [hkeep hne]; exact hne)

/-- The declaration is laid out. -/
def Done (st : State) (i : Nat) : Prop := ∃ info n, st.infos[i]? = some info ∧ info.state = .done n

theorem Done.grow (h : Done st i) (hg : Grows st st') : Done st' i := by
  obtain ⟨info, n, hi, hn⟩ := h
  obtain ⟨s, hs, hkeep⟩ := hg.infos i info hi
  exact ⟨_, n, hs, (hkeep (by simp [hn])).trans hn⟩

theorem grows_amend (st : State) (b : Builder) (es : List CompileError) : Grows st (st.amend b es) :=
  ⟨List.prefix_append _ _, rfl, fun _ info h => ⟨info.state, h, fun _ => rfl⟩⟩

theorem Walk.amend (h : Walk ds st) {b : Builder} (hb : b.Ready) (es : List CompileError) :
    Walk ds (st.amend b es) :=
  ⟨h.decls, h.enums, h.visiting, h.nodup, h.nested, hb⟩

theorem Walk.getElem? (h : Walk ds st) (i : Nat) : ds[i]? = (st.infos[i]?).map DeclInfo.decl :=
  getElem?_decls h.decls i

theorem getElem?_setState (st : State) (i j : Nat) (s : LayoutState) : (st.setState i s).infos[j]? =
    if i = j then (st.infos[j]?).map fun info => { info with state := s } else st.infos[j]? := by
  rw [State.setState, Array.getElem?_modify]

theorem map_setState {α : Type} (f : DeclInfo → α) (hf : ∀ info s, f { info with state := s } = f info) (st : State)
    (i : Nat) (s : LayoutState) : (st.setState i s).infos.toList.map f = st.infos.toList.map f := by
  apply List.ext_getElem?
  intro j
  rw [List.getElem?_map, List.getElem?_map, Array.getElem?_toList, Array.getElem?_toList, getElem?_setState]
  split_ifs
  · rw [Option.map_map]
    exact congrArg (Option.map · _) (funext fun info => hf info s)
  · rfl

theorem decls_setState (st : State) (i : Nat) (s : LayoutState) :
    (st.setState i s).infos.toList.map DeclInfo.decl = st.infos.toList.map DeclInfo.decl :=
  map_setState DeclInfo.decl (fun _ _ => rfl) st i s

theorem Walk.lt (h : Walk ds st) (hi : i ∈ st.stack) : i < ds.length := by
  obtain ⟨info, hinfo, -⟩ := (h.visiting i).1 hi
  rw [← h.decls, List.length_map, Array.length_toList]
  exact (Array.getElem?_eq_some_iff.1 hinfo).1

theorem Walk.length_stack (h : Walk ds st) : st.stack.length ≤ ds.length := by
  have hsub : st.stack ⊆ List.range ds.length := fun i hi => List.mem_range.2 (h.lt hi)
  simpa using (List.subperm_of_subset h.nodup hsub).length_le

theorem Walk.sequence_of_open {info : DeclInfo} (h : Walk ds st) (hi : st.infos[i]? = some info)
    (hs : ∀ n, info.state ≠ .done n) : ∃ d id, info = ⟨.sequence d, id, info.state⟩ := by
  obtain ⟨decl, id, state⟩ := info
  cases decl with
  | sequence d => exact ⟨d, id, rfl⟩
  | enum e =>
    obtain ⟨n, hn⟩ := h.enums i _ e hi rfl
    exact absurd hn (hs n)

theorem Walk.enter (h : Walk ds st)
    (hi : st.infos[i]? = some ⟨.sequence d, id, .pending⟩) (hasked : ∀ j ∈ st.stack.head?, Embeds ds j i) :
    Walk ds (st.enter i) := by
  have hnew : i ∉ st.stack := by
    intro hmem
    obtain ⟨info, hinfo, hstate⟩ := (h.visiting i).1 hmem
    cases hi.symm.trans hinfo
    cases hstate
  refine ⟨(decls_setState st i _).trans h.decls, fun j info e hj he => ?_, fun j => ?_,
    List.nodup_cons.2 ⟨hnew, h.nodup⟩, List.isChain_cons.2 ⟨hasked, h.nested⟩, h.ready⟩
  · change (st.setState i .visiting).infos[j]? = some info at hj
    rw [getElem?_setState] at hj
    split_ifs at hj with hij
    · subst hij
      rw [hi] at hj
      cases hj
      cases he
    · exact h.enums j info e hj he
  · change j ∈ i :: st.stack ↔ ∃ info, (st.setState i .visiting).infos[j]? = some info ∧ info.state = .visiting
    rw [List.mem_cons, getElem?_setState]
    split_ifs with hij
    · subst hij
      simp [hi]
    · rw [h.visiting j]
      simp [Ne.symm hij]

theorem refills_fillAt {op : TypeId → Builder → Builder.Reply Unit} (hop : ∀ id b, Builder.Refills b (op id b).2)
    (id : Option TypeId) (st : State) : st.builder.Refills (fillAt id op st).2.builder := by
  cases id with
  | none => exact .inl rfl
  | some id =>
    have hst := hop id st.builder
    simp only [fillAt, fill]
    split
    · rename_i hok
      rwa [hok] at hst
    · rename_i herr
      rwa [herr] at hst

theorem fillAt_frame (id : Option TypeId) (op : TypeId → Builder → Builder.Reply Unit) (st : State) :
    (fillAt id op st).2.infos = st.infos ∧ (fillAt id op st).2.stack = st.stack ∧
      (fillAt id op st).2.errors = st.errors := by
  cases id with
  | none => exact ⟨rfl, rfl, rfl⟩
  | some id =>
    simp only [fillAt, fill]
    split <;> exact ⟨rfl, rfl, rfl⟩

section Finish

variable (i : Nat) (d : SequenceDecl) (id : Option TypeId) (part : Partial) (st : State)

@[simp] theorem finish_infos : (finish i d id part st).2.infos = (st.setState i (.done part.size)).infos :=
  (fillAt_frame id _ _).1

@[simp] theorem finish_stack : (finish i d id part st).2.stack = st.stack.tail := (fillAt_frame id _ _).2.1

@[simp] theorem finish_errors : (finish i d id part st).2.errors =
    st.errors ++ errorIf (maxStaticSize < part.offset) (.tooLarge d.name.text part.offset) d.name.span :=
  (fillAt_frame id _ _).2.2

theorem refills_finish : st.builder.Refills (finish i d id part st).2.builder :=
  refills_fillAt (fun id b => b.refills_setSequence id _ _) id _

end Finish

theorem Grows.visiting (hg : Grows (st.enter i) st₁)
    (hi : st.infos[i]? = some ⟨.sequence d, id, .pending⟩) : st₁.infos[i]? = some ⟨.sequence d, id, .visiting⟩ := by
  obtain ⟨s, hs, hkeep⟩ := hg.infos i ⟨.sequence d, id, .visiting⟩ (by
    change (st.setState i .visiting).infos[i]? = _
    rw [getElem?_setState, if_pos rfl, hi]
    rfl)
  rw [hs, hkeep (by simp)]

/-- A sequence is left with its size, and nothing else about the walk has changed. -/
theorem Walk.finish (hw : Walk ds st₁)
    (hg : Grows (st.enter i) st₁) (hi : st.infos[i]? = some ⟨.sequence d, id, .pending⟩) (part : Partial) :
    Walk ds (finish i d id part st₁).2 ∧ Grows st (finish i d id part st₁).2 ∧ Done (finish i d id part st₁).2 i := by
  have hstack : st₁.stack = i :: st.stack := hg.stack
  have hvisiting := hg.visiting hi
  have hnodup := hw.nodup
  have hnested := hw.nested
  rw [hstack] at hnodup hnested
  refine ⟨?_, ?_, ?_⟩
  · refine ⟨?_, fun j info e hj he => ?_, fun j => ?_, ?_, ?_, (refills_finish ..).ready hw.ready⟩
    · rw [finish_infos, decls_setState, hw.decls]
    · rw [finish_infos, getElem?_setState] at hj
      split_ifs at hj with hij
      · subst hij
        rw [hvisiting] at hj
        cases hj
        cases he
      · exact hw.enums j info e hj he
    · rw [finish_stack, finish_infos, hstack, List.tail_cons, getElem?_setState]
      split_ifs with hij
      · subst hij
        rw [hvisiting]
        simpa using (List.nodup_cons.1 hnodup).1
      · rw [← hw.visiting j, hstack, List.mem_cons]
        exact (or_iff_right (Ne.symm hij)).symm
    · rw [finish_stack, hstack]
      exact (List.nodup_cons.1 hnodup).2
    · rw [finish_stack, hstack]
      exact (List.isChain_cons.1 hnested).2
  · refine ⟨?_, by rw [finish_stack, hstack, List.tail_cons], fun j info hj => ?_⟩
    · rw [finish_errors]
      exact hg.errors.trans (List.prefix_append _ _)
    · rw [finish_infos, getElem?_setState]
      split_ifs with hij
      · subst hij
        rw [hi] at hj
        cases hj
        rw [hvisiting]
        exact ⟨_, rfl, by simp⟩
      · refine hg.infos j info ?_
        change (st.setState i .visiting).infos[j]? = _
        rw [getElem?_setState, if_neg hij, hj]
  · refine ⟨⟨.sequence d, id, .done part.size⟩, part.size, ?_, rfl⟩
    rw [finish_infos, getElem?_setState, if_pos rfl, hvisiting]
    rfl

/-- The innermost sequence in progress has the given name and the given fields. -/
def Owner (ds : List Decl) (st : State) (q : Bytes) (fs : FieldList) : Prop :=
  ∃ i d, st.stack.head? = some i ∧ ds[i]? = some (.sequence d) ∧ d.name.text = q ∧ ∀ f ∈ fs.toList, f ∈ d.fields

theorem Owner.tail {f : FieldExpr} {gap : Gap} (h : Owner ds st q (.cons f gap rest)) (hg : Grows st st') :
    Owner ds st' q rest := by
  obtain ⟨i, d, hi, hd, hq, hfs⟩ := h
  exact ⟨i, d, by rw [hg.stack, hi], hd, hq, fun f hf => hfs f (List.mem_cons_of_mem _ hf)⟩

theorem Owner.embeds {f : FieldExpr} {gap : Gap} {e : SequenceDecl} {s : LayoutState}
    (h : Owner ds st q (.cons f gap rest)) (hw : Walk ds st) (htarget : target? st.infos f.type = some j)
    (hj : st.infos[j]? = some ⟨.sequence e, id, s⟩) : ∀ i ∈ st.stack.head?, Embeds ds i j := by
  obtain ⟨i, d, hi, hd, -, hfs⟩ := h
  intro k hk
  cases hi.symm.trans hk
  exact ⟨d, e, f, hd, by rw [hw.getElem?, hj]; rfl, hfs f List.mem_cons_self, (target?_eq_some_iff hw.decls).1 htarget⟩

theorem owner_enter {s : LayoutState} (hw : Walk ds st)
    (hi : st.infos[i]? = some ⟨.sequence d, id, s⟩) : Owner ds (st.enter i) d.name.text d.fieldList :=
  ⟨i, d, rfl, by rw [hw.getElem?, hi]; rfl, rfl, fun _ hf => hf⟩

theorem Walk.check (h : Walk ds st) (q : Bytes) (part : Partial) (f : FieldExpr) : Walk ds (st.check q part f) :=
  h.amend h.ready _

theorem grows_check (st : State) (q : Bytes) (part : Partial) (f : FieldExpr) : Grows st (st.check q part f) :=
  grows_amend st _ _

theorem Walk.cyclic {f : FieldExpr} (h : Walk ds st) : Walk ds (st.cyclic f i) := h.amend h.ready _

theorem grows_cyclic (st : State) (f : FieldExpr) (i : Nat) : Grows st (st.cyclic f i) := grows_amend st _ _

theorem Walk.resolve {path : List Bytes} {type : TypeExpr} {found : Option TypeId} (h : Walk ds st)
    (hres : resolve path type st = (found, st₁)) : Walk ds st₁ ∧ Grows st st₁ := by
  obtain ⟨_, b, heq, hab, -⟩ := resolve_spec st path type h.ready
  cases hres.symm.trans heq
  exact ⟨h.amend (hab.ready h.ready) _, grows_amend st b _⟩

theorem Lays.walk {part part' : Partial} {fs : FieldList} (h : Lays q part fs st part' st') (hw : Walk ds st)
    (ho : Owner ds st q fs) : Walk ds st' ∧ Grows st st' := by
  induction h with
  | nil => exact ⟨hw, .refl _⟩
  | @own q part f gap rest st found st₁ part' st' htarget hres _ ih =>
    obtain ⟨hw₁, hg₁⟩ := (hw.check q part f).resolve hres
    have hg := (grows_check st q part f).trans hg₁
    obtain ⟨hw', hg'⟩ := ih hw₁ (ho.tail hg)
    exact ⟨hw', hg.trans hg'⟩
  | @known q part f gap rest st i info n part' st' htarget hinfo hdone _ ih =>
    have hg := grows_check st q part f
    obtain ⟨hw', hg'⟩ := ih (hw.check q part f) (ho.tail hg)
    exact ⟨hw', hg.trans hg'⟩
  | @cycle q part f gap rest st i info part' st' htarget hinfo hvisiting _ ih =>
    have hg := (grows_check st q part f).trans (grows_cyclic _ f i)
    obtain ⟨hw', hg'⟩ := ih (hw.check q part f).cyclic (ho.tail hg)
    exact ⟨hw', hg.trans hg'⟩
  | @inner q part f gap rest st i d id innerPart st₁ part' st' htarget hinfo _ _ ihInner ihRest =>
    have hchecked := hw.check q part f
    obtain ⟨hw₁, hg₁⟩ := ihInner (hchecked.enter hinfo (ho.embeds hw htarget hinfo)) (owner_enter hchecked hinfo)
    obtain ⟨hw₂, hg₂, -⟩ := hw₁.finish hg₁ hinfo innerPart
    have hg := (grows_check st q part f).trans hg₂
    obtain ⟨hw', hg'⟩ := ihRest hw₂ (ho.tail hg)
    exact ⟨hw', hg.trans hg'⟩

/-! ### Layout follows the walk -/

/-- Both functions lay out a pending sequence alike, as long as no more than `n` layouts are still to be nested. -/
def Agree (ds : List Decl) (n : Nat) (f g : Nat → CompileM Nat) : Prop :=
  ∀ (st : State) (i : Nat) d id, Walk ds st → st.infos[i]? = some ⟨.sequence d, id, .pending⟩ →
    (∀ j ∈ st.stack.head?, Embeds ds j i) → ds.length ≤ st.stack.length + n →
    ∃ part st₁, Lays d.name.text .empty d.fieldList (st.enter i) part st₁ ∧
      f i st = finish i d id part st₁ ∧ g i st = finish i d id part st₁

section Agree

variable {n : Nat} {f g : Nat → CompileM Nat} {path : List Bytes} {type : TypeExpr} {info : DeclInfo} {size : Nat}

theorem embed_own (h : target? st.infos type = none) : embed f path type st =
    (((resolve path type st).1.getD 0, ownSize type), (resolve path type st).2) := by
  rw [embed, get_bind, h]
  rfl

section Target

variable (h : target? st.infos type = some i) (hi : st.infos[i]? = some info)

include h hi

theorem embed_done (hs : info.state = .done size) : embed f path type st = ((info.id.getD 0, size), st) := by
  simp only [embed, get_bind, h, Option.bind_some, hi, Option.map_some, hs]
  rfl

theorem embed_visiting (hs : info.state = .visiting) : embed f path type st =
    ((info.id.getD 0, 0), st.amend st.builder [⟨.cyclicLayout (cyclePath st.infos st.stack i), type.span⟩]) := by
  simp only [embed, get_bind, h, Option.bind_some, hi, Option.map_some, hs]
  rfl

theorem embed_pending (hs : info.state = .pending) (hf : f i st = (size, st₁)) :
    embed f path type st = ((info.id.getD 0, size), st₁) := by
  simp only [embed, get_bind, h, Option.bind_some, hi, Option.map_some, hs]
  exact bind_of_eq hf

end Target

theorem layoutFields_cons {part : Partial} {e : FieldExpr} {gap : Gap} {id : TypeId}
    (h : embed f [q, e.name.text] e.type (st.check q part e) = ((id, size), st₁)) :
    layoutFields f q part (.cons e gap rest) st = layoutFields f q (part.add e.name.text id size) rest st₁ := by
  obtain ⟨⟩ := e
  rw [layoutFields, bind_of_eq (report_eq _)]
  exact bind_of_eq h

theorem layoutFields_agree {part : Partial} {fs : FieldList} (h : Agree ds n f g) (hw : Walk ds st)
    (ho : Owner ds st q fs) (hn : ds.length ≤ st.stack.length + n) :
    ∃ part' st', Lays q part fs st part' st' ∧ layoutFields f q part fs st = (part', st') ∧
      layoutFields g q part fs st = (part', st') := by
  induction fs using FieldList.induction generalizing st part with
  | nil => exact ⟨part, st, .nil, rfl, rfl⟩
  | cons e gap rest ih =>
    have hchecked := hw.check q part e
    have hgrows := grows_check st q part e
    cases htarget : target? st.infos e.type with
    | none =>
      obtain ⟨hw₁, hg₁⟩ := hchecked.resolve (Eq.refl _)
      have hgrows := hgrows.trans hg₁
      obtain ⟨part', st', hlays, hf, hg⟩ := ih hw₁ (ho.tail hgrows) (by rw [hgrows.stack]; exact hn)
      have htarget' : target? (st.check q part e).infos e.type = none := htarget
      exact ⟨part', st', .own htarget rfl hlays, (layoutFields_cons (embed_own htarget')).trans hf,
        (layoutFields_cons (embed_own htarget')).trans hg⟩
    | some i =>
      obtain ⟨info, hinfo⟩ := target?_spec htarget
      have htarget' : target? (st.check q part e).infos e.type = some i := htarget
      have hinfo' : (st.check q part e).infos[i]? = some info := hinfo
      cases hstate : info.state with
      | done size =>
        obtain ⟨part', st', hlays, hf, hg⟩ := ih hchecked (ho.tail hgrows) (by rw [hgrows.stack]; exact hn)
        exact ⟨part', st', .known htarget hinfo hstate hlays,
          (layoutFields_cons (embed_done htarget' hinfo' hstate)).trans hf,
          (layoutFields_cons (embed_done htarget' hinfo' hstate)).trans hg⟩
      | visiting =>
        have hgrows := hgrows.trans (grows_cyclic _ e i)
        obtain ⟨part', st', hlays, hf, hg⟩ := ih hchecked.cyclic (ho.tail hgrows) (by rw [hgrows.stack]; exact hn)
        exact ⟨part', st', .cycle htarget hinfo hstate hlays,
          (layoutFields_cons (embed_visiting htarget' hinfo' hstate)).trans hf,
          (layoutFields_cons (embed_visiting htarget' hinfo' hstate)).trans hg⟩
      | pending =>
        obtain ⟨d, id, heq⟩ := hw.sequence_of_open hinfo (by simp [hstate])
        rw [hstate] at heq
        subst heq
        have hasked := ho.embeds hw htarget hinfo
        obtain ⟨innerPart, st₁, hinner, hf₁, hg₁⟩ := h (st.check q part e) i d id hchecked hinfo hasked hn
        obtain ⟨hw₁, hgrows₁⟩ := hinner.walk (hchecked.enter hinfo hasked) (owner_enter hchecked hinfo)
        obtain ⟨hw₂, hgrows₂, -⟩ := hw₁.finish hgrows₁ hinfo innerPart
        have hgrows := hgrows.trans hgrows₂
        obtain ⟨part', st', hlays, hf, hg⟩ := ih hw₂ (ho.tail hgrows) (by rw [hgrows.stack]; exact hn)
        exact ⟨part', st', .inner htarget hinfo hinner hlays,
          (layoutFields_cons (embed_pending htarget' hinfo' rfl hf₁)).trans hf,
          (layoutFields_cons (embed_pending htarget' hinfo' rfl hg₁)).trans hg⟩

theorem layoutStep_pending
    (hi : st.infos[i]? = some ⟨.sequence d, id, .pending⟩) :
    layoutStep f i st = (layoutFields f d.name.text .empty d.fieldList >>= finish i d id) (st.enter i) := by
  simp only [layoutStep, get_bind, hi]
  rfl

theorem Agree.step (h : Agree ds n f g) : Agree ds (n + 1) (layoutStep f) (layoutStep g) := by
  intro st i d id hw hi hasked hn
  have hstack : ds.length ≤ (st.enter i).stack.length + n := by
    change _ ≤ (i :: st.stack).length + n
    rw [List.length_cons]
    omega
  obtain ⟨part, st₁, hlays, hf, hg⟩ := layoutFields_agree h (hw.enter hi hasked) (owner_enter hw hi) hstack
  exact ⟨part, st₁, hlays, (layoutStep_pending hi).trans (bind_of_eq hf), (layoutStep_pending hi).trans (bind_of_eq hg)⟩

/-- Layout never comes to the end of its depth: there is no pending sequence left to enter. -/
theorem agree_layoutWithin {stop stop' : Nat → CompileM Nat} {m m' : Nat} (hm : n ≤ m) (hm' : n ≤ m') :
    Agree ds n (layoutWithin stop m) (layoutWithin stop' m') := by
  induction n generalizing m m' with
  | zero =>
    intro st i d id hw hi hasked hn
    have hle := (hw.enter hi hasked).length_stack
    change (i :: st.stack).length ≤ ds.length at hle
    rw [List.length_cons] at hle
    omega
  | succ n ih =>
    obtain ⟨m, rfl⟩ := Nat.exists_eq_add_of_le' hm
    obtain ⟨m', rfl⟩ := Nat.exists_eq_add_of_le' hm'
    exact (ih (Nat.le_add_left n m) (Nat.le_add_left n m')).step

end Agree

/-! ### All declarations -/

/-- A sequence is laid out that is not inside another layout. -/
def LaysOut (st st' : State) : Prop :=
  ∃ i d id part st₁, st.stack = [] ∧ st.infos[i]? = some ⟨.sequence d, id, .pending⟩ ∧
    Lays d.name.text .empty d.fieldList (st.enter i) part st₁ ∧ st' = (finish i d id part st₁).2

theorem LaysOut.walk (h : LaysOut st st') (hw : Walk ds st) : Walk ds st' ∧ Grows st st' := by
  obtain ⟨i, d, id, part, st₁, hstack, hi, hlays, rfl⟩ := h
  obtain ⟨hw₁, hg₁⟩ := hlays.walk (hw.enter hi (by simp [hstack])) (owner_enter hw hi)
  obtain ⟨hw₂, hg₂, -⟩ := hw₁.finish hg₁ hi part
  exact ⟨hw₂, hg₂⟩

theorem Walk.run {P : State → Prop} (hw : Walk ds st) (hrun : Relation.ReflTransGen LaysOut st st') (hst : P st)
    (hstep : ∀ st st', Walk ds st → LaysOut st st' → P st → P st') : Walk ds st' ∧ Grows st st' ∧ P st' := by
  induction hrun with
  | refl => exact ⟨hw, .refl st, hst⟩
  | tail _ hlast ih =>
    obtain ⟨hw₁, hg₁, hst₁⟩ := ih
    obtain ⟨hw₂, hg₂⟩ := hlast.walk hw₁
    exact ⟨hw₂, hg₁.trans hg₂, hstep _ _ hw₁ hlast hst₁⟩

theorem Walk.pending_or_done (h : Walk ds st) (hstack : st.stack = [])
    (hd : ds[i]? = some (.sequence d)) : (∃ id, st.infos[i]? = some ⟨.sequence d, id, .pending⟩) ∨ Done st i := by
  rw [h.getElem?, Option.map_eq_some_iff] at hd
  obtain ⟨⟨decl, id, state⟩, hi, rfl⟩ := hd
  cases state with
  | pending => exact .inl ⟨id, hi⟩
  | visiting =>
    have hmem := (h.visiting i).2 ⟨_, hi, rfl⟩
    rw [hstack] at hmem
    cases hmem
  | done n => exact .inr ⟨_, n, hi, rfl⟩

theorem Walk.done_enum (h : Walk ds st) {e : EnumDecl} (he : ds[i]? = some (.enum e)) : Done st i := by
  rw [h.getElem?, Option.map_eq_some_iff] at he
  obtain ⟨info, hi, hdecl⟩ := he
  obtain ⟨n, hn⟩ := h.enums i info e hi hdecl
  exact ⟨info, n, hi, hn⟩

theorem layoutSequences_sequence (f : Nat → CompileM Nat) (d : SequenceDecl) (rest : List Decl) :
    layoutSequences f i (.sequence d :: rest) st = layoutSequences f (i + 1) rest (f i st).2 := rfl

theorem of_drop_eq_cons {d : Decl} {rest : List Decl} (h : ds.drop i = d :: rest) :
    ds[i]? = some d ∧ ds.drop (i + 1) = rest := by
  rw [← List.head?_drop, ← List.tail_drop, h]
  exact ⟨rfl, rfl⟩

theorem layoutSequences_agree {f g : Nat → CompileM Nat} {rest : List Decl} (h : Agree ds ds.length f g)
    (hdone : ∀ st i, Done st i → (f i st).2 = st ∧ (g i st).2 = st) (hw : Walk ds st) (hstack : st.stack = [])
    (hrest : ds.drop i = rest) (hbefore : ∀ k < i, Done st k) :
    ∃ st', layoutSequences f i rest st = ((), st') ∧ layoutSequences g i rest st = ((), st') ∧
      Relation.ReflTransGen LaysOut st st' ∧ Walk ds st' ∧ ∀ k < ds.length, Done st' k := by
  induction rest generalizing i st with
  | nil =>
    refine ⟨st, rfl, rfl, .refl, hw, fun k hk => hbefore k ?_⟩
    have := List.drop_eq_nil_iff.1 hrest
    omega
  | cons d rest ih =>
    obtain ⟨hd, hrest'⟩ := of_drop_eq_cons hrest
    -- one more declaration is done, and the others stay so
    have hnext : ∀ st₁ : State, Grows st st₁ → Done st₁ i → ∀ k < i + 1, Done st₁ k := by
      intro st₁ hg hi k hk
      rcases Nat.lt_succ_iff_lt_or_eq.1 hk with hk | rfl
      · exact (hbefore k hk).grow hg
      · exact hi
    cases d with
    | enum e => exact ih hw hstack hrest' (hnext st (.refl st) (hw.done_enum hd))
    | sequence d =>
      rcases hw.pending_or_done hstack hd with ⟨id, hi⟩ | hi
      · obtain ⟨part, st₁, hlays, hf, hg⟩ := h st i d id hw hi (by simp [hstack]) (Nat.le_add_left _ _)
        obtain ⟨hw₁, hg₁⟩ := hlays.walk (hw.enter hi (by simp [hstack])) (owner_enter hw hi)
        obtain ⟨hw₂, hg₂, hi₂⟩ := hw₁.finish hg₁ hi part
        obtain ⟨st', hf', hg', hsteps, hrest⟩ := ih hw₂ (hg₂.stack.trans hstack) hrest' (hnext _ hg₂ hi₂)
        refine ⟨st', ?_, ?_, .head ⟨i, d, id, part, st₁, hstack, hi, hlays, rfl⟩ hsteps, hrest⟩
        · rw [layoutSequences_sequence, hf, hf']
        · rw [layoutSequences_sequence, hg, hg']
      · obtain ⟨st', hf, hg, hrest⟩ := ih hw hstack hrest' (hnext st (.refl st) hi)
        refine ⟨st', ?_, ?_, hrest⟩
        · rw [layoutSequences_sequence, (hdone st i hi).1, hf]
        · rw [layoutSequences_sequence, (hdone st i hi).2, hg]

end Compile

end Flatwire
