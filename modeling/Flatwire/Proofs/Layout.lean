import Flatwire.Proofs.Cycles

/-! What layout makes of the declarations. As long as nothing is reported, each declaration that is done has its type at
its place, with every field behind the one before it, and no union stands in the arena that is not written in a field. -/

namespace Flatwire

theorem Schema.Denotes.staticSize_eq {s : Schema} {path : List Bytes} {type : TypeExpr} {id : TypeId}
    (h : s.Denotes path type id) :
    (∃ ident, type = .name ident ∧ isBuiltin ident.text = false ∧ s.lookup ident.text = some id) ∨
      ∃ t, s.type? id = some t ∧ t.declName? = none ∧ t.staticSize = Compile.ownSize type := by
  cases h with
  | @primitive _ ident _ k hk ht => exact .inr ⟨_, ht, rfl, by simp only [Compile.ownSize, hk]; rfl⟩
  | @string _ ident _ hname ht =>
    refine .inr ⟨_, ht, rfl, ?_⟩
    have hnone : PrimitiveKind.ofName? stringTypeName = none := by decide +kernel
    simp only [Compile.ownSize, hname, hnone]
    rfl
  | declared hbuiltin hlookup => exact .inl ⟨_, rfl, hbuiltin, hlookup⟩
  | list _ ht => exact .inr ⟨_, ht, rfl, rfl⟩
  | oneOf ht _ => exact .inr ⟨_, ht, rfl, rfl⟩

namespace Compile

variable {ds : List Decl} {st st' st₁ : State} {i j n : Nat} {q : Bytes} {path : List Bytes} {type : TypeExpr}
  {id : TypeId} {info : DeclInfo}

/-! ### Fields -/

/-- The place denotes the type of the expression, and the type at it has the given size and stays as it is. -/
structure Holds (st : State) (path : List Bytes) (type : TypeExpr) (id : TypeId) (n : Nat) : Prop where
  denotes : st.builder.schema.Denotes path type id
  settled : Settled st id
  size : ∃ t, st.builder.schema.type? id = some t ∧ t.staticSize = n

theorem Holds.keep (h : Holds st path type id n) (hb : Builds st st') (hp : Placed st) : Holds st' path type id n := by
  obtain ⟨hdenotes, hsettled, t, ht, hn⟩ := h
  exact ⟨hdenotes.keep (hb.keeps hp _), hb.settled id hsettled, t, hb.types id t hsettled ht, hn⟩

/-- Fields side by side between two offsets. Offsets are counted in 32 bits, and cut off where they are stored. -/
inductive FieldsLaid (st : State) (q : Bytes) : Nat → List FieldExpr → List Field → Nat → Prop where
  | nil {off} : FieldsLaid st q off [] [] off
  | cons {off f fs g gs n off'} : g.name = f.name.text → g.offset.toNat = min off maxStaticSize →
      Holds st [q, f.name.text] f.type g.type n → FieldsLaid st q ((off + n) % 0x100000000) fs gs off' →
      FieldsLaid st q off (f :: fs) (g :: gs) off'

theorem FieldsLaid.keep {off off' : Nat} {fs : List FieldExpr} {gs : List Field} (h : FieldsLaid st q off fs gs off')
    (hb : Builds st st') (hp : Placed st) : FieldsLaid st' q off fs gs off' := by
  induction h with
  | nil => exact .nil
  | cons hname hoffset hholds _ ih => exact .cons hname hoffset (hholds.keep hb hp) ih

/-! ### Types of declarations -/

/-- The type is the one of the compiled declaration. -/
def Compiled (st : State) : Decl → TypeDef → Prop
  | .enum e, t => t = enumType e
  | .sequence d, t => ∃ gs off, t = .sequence ⟨d.name.text, UInt16.ofNat off, gs⟩ ∧ off ≤ maxStaticSize ∧
      FieldsLaid st d.name.text 0 d.fields gs off

theorem Compiled.keep {d : Decl} {t : TypeDef} (h : Compiled st d t) (hb : Builds st st') (hp : Placed st) :
    Compiled st' d t := by
  cases d with
  | enum e => exact h
  | sequence d =>
    obtain ⟨gs, off, ht, hoff, hlaid⟩ := h
    exact ⟨gs, off, ht, hoff, hlaid.keep hb hp⟩

/-- The union is written in a field of a sequence, with the path that leads to it. -/
def Written (ds : List Decl) (s : Schema) (o : OneOfType) : Prop :=
  ∃ (i : Nat) (d : SequenceDecl) (f : FieldExpr) (vs : FieldList), ds[i]? = some (.sequence d) ∧ f ∈ d.fields ∧
    Schema.OneOfIn [d.name.text, f.name.text] f.type o.path vs ∧ s.AreVariants o.path 0 vs o.variants

/-- Everything that is done is laid out, and every union is written in the source. -/
structure Laid (ds : List Decl) (st : State) : Prop where
  types : ∀ (i : Nat) (info : DeclInfo) n p, st.infos[i]? = some info → info.state = .done n → info.id = some p →
    ∃ t, st.builder.schema.type? p = some t ∧ t.staticSize = n ∧ Compiled st info.decl t
  unions : ∀ p o, st.builder.schema.type? p = some (.oneOf o) → Written ds st.builder.schema o

theorem Laid.grow (h : Laid ds st) (hp : Placed st) (hb : Builds st st')
    (htypes : ∀ (i : Nat) (info : DeclInfo) n p, st'.infos[i]? = some info → info.state = .done n → info.id = some p →
      st.infos[i]? = some info ∨ ∃ t, st'.builder.schema.type? p = some t ∧ t.staticSize = n ∧ Compiled st' info.decl t)
    (hunions : ∀ p o, st'.builder.schema.type? p = some (.oneOf o) →
      st.builder.schema.type? p = some (.oneOf o) ∨ Written ds st'.builder.schema o) : Laid ds st' := by
  refine ⟨fun i info n p hi hn hid => ?_, fun p o ho => ?_⟩
  · rcases htypes i info n p hi hn hid with hold | hnew
    · obtain ⟨t, ht, hsize, hcompiled⟩ := h.types i info n p hold hn hid
      exact ⟨t, hb.types p t (hp.settled_of_done hold hid hn) ht, hsize, hcompiled.keep hb hp⟩
    · exact hnew
  · rcases hunions p o ho with hold | hnew
    · obtain ⟨i, d, f, vs, hd, hf, hin, hvs⟩ := h.unions p o hold
      exact ⟨i, d, f, vs, hd, hf, hin, hvs.keep (hb.keeps hp _)⟩
    · exact hnew

theorem Laid.check (h : Laid ds st) (hp : Placed st) (q : Bytes) (part : Partial) (f : FieldExpr) :
    Laid ds (st.check q part f) :=
  h.grow hp (builds_check st q part f) (fun _ _ _ _ hi _ _ => .inl hi) fun _ _ hunion => .inl hunion

theorem Laid.holds_declared (h : Laid ds st) (hp : Placed st) (htarget : target? st.infos type = some i)
    (hi : st.infos[i]? = some info) (hn : info.state = .done n) (path : List Bytes) :
    Holds st path type (info.id.getD 0) n := by
  cases type with
  | list => cases htarget
  | oneOf => cases htarget
  | name ident =>
    rw [target?] at htarget
    split_ifs at htarget with hbuiltin
    obtain ⟨info', id, hi', hid, hlookup⟩ := hp.indexed _ _ htarget
    cases hi.symm.trans hi'
    obtain ⟨t, ht, hsize, -⟩ := h.types i info n id hi hn hid
    rw [hid]
    exact ⟨.declared (by simpa using hbuiltin) hlookup, hp.settled_of_done hi hid hn, t, ht, hsize⟩

theorem Laid.resolve {q : Bytes} {f : FieldExpr} {gap : Gap} {rest : FieldList} {found : Option TypeId}
    (h : Laid ds st) (hp : Placed st) (ho : Owner ds st q (.cons f gap rest)) (htarget : target? st.infos f.type = none)
    (hres : resolve [q, f.name.text] f.type st = (found, st₁)) (hnil : st₁.errors = []) :
    Laid ds st₁ ∧ Holds st₁ [q, f.name.text] f.type (found.getD 0) (ownSize f.type) := by
  obtain ⟨_, b, heq, hab, hgood⟩ := resolve_spec st [q, f.name.text] f.type hp.ready
  cases hres.symm.trans heq
  obtain ⟨id, rfl, hdenotes, hown⟩ := (hgood hp.indexed).1 (List.append_eq_nil_iff.1 hnil).2
  have hp₁ := hp.amend hab (typeErrors (declared st.infos) [q, f.name.text] f.type)
  refine ⟨h.grow hp (builds_amend hab _) (fun i info n p hi _ _ => .inl hi) fun p o hunion => ?_, ?_⟩
  · rcases hown p o hunion with hold | ⟨vs, hin, hvs⟩
    · exact .inl hold
    · obtain ⟨i, d, -, hd, rfl, hfs⟩ := ho
      exact .inr ⟨i, d, f, vs, hd, hfs f List.mem_cons_self, hin, hvs⟩
  · rcases hdenotes.staticSize_eq with ⟨ident, htype, hbuiltin, hlookup⟩ | ⟨t, ht, hname, hsize⟩
    · -- the name is not declared, so it is not looked up either
      rw [htype, target?, hbuiltin] at htarget
      have hnone := hp₁.lookup_eq_none htarget
      cases hnone.symm.trans hlookup
    · exact ⟨hdenotes, hp₁.settled ht hname, t, ht, hsize⟩

theorem Laid.enter (h : Laid ds st) (hp : Placed st) {d : SequenceDecl} {id : Option TypeId}
    (hi : st.infos[i]? = some ⟨.sequence d, id, .pending⟩) : Laid ds (st.enter i) := by
  refine h.grow hp (builds_enter hi) (fun j info n p hj hn hid => .inl ?_) fun p o hunion => .inl hunion
  obtain ⟨s', hj', hnew, hkeep⟩ := of_setState (s := .visiting) hj
  by_cases hij : i = j
  · cases (hnew hij).symm.trans hn
  · rw [hj', hkeep hij]

theorem Laid.finish (h : Laid ds st) (hp : Placed st) {d : SequenceDecl} {id : Option TypeId} {part : Partial}
    (hi : st.infos[i]? = some ⟨.sequence d, id, .visiting⟩)
    (hfields : FieldsLaid st d.name.text 0 d.fields part.fields.toList part.offset)
    (hnil : (finish i d id part st).2.errors = []) : Laid ds (finish i d id part st).2 := by
  obtain ⟨-, hb, htype, hunions⟩ := hp.finish hi (by simp) part
  rw [finish_errors, List.append_eq_nil_iff] at hnil
  have hoff : part.offset ≤ maxStaticSize := by
    have hsize := hnil.2
    unfold errorIf at hsize
    split_ifs at hsize with hlarge
    simpa using hlarge
  refine h.grow hp hb (fun j info n p hj hn hid => ?_) fun p o hunion => .inl (hunions p o hunion)
  rw [finish_infos] at hj
  obtain ⟨s', hj', hnew, hkeep⟩ := of_setState hj
  by_cases hij : i = j
  · subst hij
    obtain ⟨decl, id, s⟩ := info
    cases hi.symm.trans hj'
    cases (hnew rfl).symm.trans hn
    have hsize : part.size = part.offset := Nat.min_eq_left hoff
    refine .inr ⟨_, htype p hid, ?_, part.fields.toList, part.offset, by rw [laidType, hsize], hoff, hfields.keep hb hp⟩
    exact UInt16.toNat_ofNat_of_lt' (Nat.lt_succ_of_le (Nat.min_le_right _ _))
  · rw [hj', hkeep hij]
    exact .inl rfl

theorem Grows.errors_eq_nil (h : Grows st st') (hnil : st'.errors = []) : st.errors = [] :=
  List.prefix_nil.1 (hnil ▸ h.errors)

theorem Holds.fieldsLaid {part part' : Partial} {f : FieldExpr} {fs : List FieldExpr}
    (hholds : Holds st [q, f.name.text] f.type id n)
    (hrest : ∃ gs, part'.fields.toList = (part.add f.name.text id n).fields.toList ++ gs ∧
      FieldsLaid st q (part.add f.name.text id n).offset fs gs part'.offset) :
    ∃ gs, part'.fields.toList = part.fields.toList ++ gs ∧ FieldsLaid st q part.offset (f :: fs) gs part'.offset := by
  obtain ⟨gs, heq, hlaid⟩ := hrest
  refine ⟨⟨f.name.text, UInt16.ofNat (min part.offset maxStaticSize), id⟩ :: gs, ?_, .cons rfl ?_ hholds hlaid⟩
  · rw [heq, Partial.add, Array.toList_push, List.append_assoc]
    rfl
  · exact UInt16.toNat_ofNat_of_lt' (Nat.lt_succ_of_le (Nat.min_le_right _ _))

theorem Visits.laid {part part' : Partial} {fs : FieldList} (h : Visits ds q part fs st part' st') (hl : Laid ds st)
    (hnil : st'.errors = []) : Laid ds st' ∧ ∃ gs, part'.fields.toList = part.fields.toList ++ gs ∧
      FieldsLaid st' q part.offset fs.toList gs part'.offset := by
  induction h with
  | nil => exact ⟨hl, [], (List.append_nil _).symm, .nil⟩
  | @own q part f gap rest st found st₁ part' st' hst htarget hres _ hvisits ih =>
    have hp := hst.placed.check q part f
    obtain ⟨hl₁, hholds⟩ := (hl.check hst.placed q part f).resolve hp hst.owner htarget hres
      (hvisits.walk.2.errors_eq_nil hnil)
    obtain ⟨hl', hrest⟩ := ih hl₁ hnil
    exact ⟨hl', (hholds.keep hvisits.placed.2 hvisits.stands.placed).fieldsLaid hrest⟩
  | @known q part f gap rest st i info n part' st' hst htarget hinfo hdone hvisits ih =>
    have hp := hst.placed.check q part f
    have hl₁ := hl.check hst.placed q part f
    obtain ⟨hl', hrest⟩ := ih hl₁ hnil
    have hholds := hl₁.holds_declared hp htarget hinfo hdone [q, f.name.text]
    exact ⟨hl', (hholds.keep hvisits.placed.2 hp).fieldsLaid hrest⟩
  | @cycle q part f gap rest st i info part' st' _ _ _ _ hvisits ih =>
    -- the cycle is among the errors, and errors stay
    cases (List.append_eq_nil_iff.1 (hvisits.walk.2.errors_eq_nil hnil)).2
  | @inner q part f gap rest st i d id innerPart st₁ part' st' hst htarget hinfo hinner hvisits ihInner ihRest =>
    have hg₁ := hinner.walk.2
    have hnil₂ := hvisits.walk.2.errors_eq_nil hnil
    have hp₂ := hvisits.stands.placed
    have hl₀ := (hl.check hst.placed q part f).enter (hst.placed.check q part f) hinfo
    obtain ⟨hl₁, gs, hgs, hfields⟩ := ihInner hl₀ (List.append_eq_nil_iff.1 ((finish_errors ..).symm.trans hnil₂)).1
    have hl₂ := hl₁.finish hinner.placed.1 (hg₁.visiting hinfo) (by rw [hgs]; exact hfields) hnil₂
    obtain ⟨hl', hrest⟩ := ihRest hl₂ hnil
    -- the sequence is done now, so the field holds it like one that was done before
    have hinfo₂ : (finish i d id innerPart st₁).2.infos[i]? = some ⟨.sequence d, id, .done innerPart.size⟩ := by
      rw [finish_infos, getElem?_setState, if_pos rfl, hg₁.visiting hinfo]
      rfl
    have htarget₂ := (target?_eq_some_iff hvisits.stands.walk.decls).2 ((target?_eq_some_iff hst.walk.decls).1 htarget)
    have hholds := hl₂.holds_declared hp₂ htarget₂ hinfo₂ rfl [q, f.name.text]
    exact ⟨hl', (hholds.keep hvisits.placed.2 hp₂).fieldsLaid hrest⟩

theorem LaysOut.laid (h : LaysOut st st') (hw : Walk ds st) (hp : Placed st) (hl : st.errors = [] → Laid ds st)
    (hnil : st'.errors = []) : Laid ds st' := by
  have hgrows := (h.walk hw).2
  obtain ⟨i, d, id, part, st₁, hi, hvisits, rfl⟩ := h.visits hw hp
  obtain ⟨hl₁, gs, hgs, hfields⟩ := hvisits.laid ((hl (hgrows.errors_eq_nil hnil)).enter hp hi)
    (List.append_eq_nil_iff.1 ((finish_errors ..).symm.trans hnil)).1
  exact hl₁.finish hvisits.placed.1 (hvisits.walk.2.visiting hi) (by rw [hgs]; exact hfields) hnil

theorem Prepared.laid (h : Prepared ds ds.length st) : Laid ds st := by
  refine ⟨fun i info n p hi hn hid => ?_, fun p o hunion => absurd hunion (h.unions p o)⟩
  obtain ⟨decl, id, s⟩ := info
  cases decl with
  | sequence d => cases (h.sequences i d id s hi).symm.trans hn
  | enum e =>
    obtain ⟨hdone, htype⟩ := h.enums i e id s hi (h.lt hi)
    cases hdone.symm.trans hn
    exact ⟨enumType e, htype p hid, rfl, rfl⟩

/-! ### Compilation without errors -/

/-- With everything done, and nothing reported. -/
structure Accepted (ds : List Decl) (st : State) : Prop extends Placed st, Laid ds st where
  infos : st.infos.toList.map DeclInfo.decl = ds
  places : ∀ (i : Nat) (info : DeclInfo), st.infos[i]? = some info → ∃ p n, info = ⟨info.decl, some p, .done n⟩
  grounded : ∀ i, Grounded ds i

theorem compile_accepted {tree : SchemaTree} {name : Bytes} (h : (compile tree name).errors = []) :
    Accepted tree.decls (compileDecls tree.decls (start name)).2 ∧
      (compile tree name).schema = some (compileDecls tree.decls (start name)).2.builder.schema := by
  obtain ⟨st', hrun, -, hsteps, hw, hdone⟩ := compileDecls_spec tree.decls name
  have hprepared := prepared_spec name tree.decls
  have hnil : st'.errors = [] := by
    rw [compile_errors, hrun, ← List.length_eq_zero_iff, List.length_mergeSort] at h
    exact List.length_eq_zero_iff.1 h
  obtain ⟨-, -, hp, hl⟩ := hprepared.walk.runPlaced (P := fun st => st.errors = [] → Laid tree.decls st)
    hprepared.toPlaced hsteps (fun _ => hprepared.laid) fun st st' hw hp hlays => hlays.laid hw hp
  have hplaces : ∀ (i : Nat) (info : DeclInfo), st'.infos[i]? = some info →
      ∃ p n, info = ⟨info.decl, some p, .done n⟩ := by
    intro i info hi
    have hlt : i < tree.decls.length := by
      rw [← hw.decls, List.length_map, Array.length_toList]
      exact (Array.getElem?_eq_some_iff.1 hi).1
    obtain ⟨info', n, hi', hn⟩ := hdone i hlt
    cases hi.symm.trans hi'
    obtain ⟨p, hid⟩ := Option.ne_none_iff_exists'.1 (hp.registered hnil i info hi)
    exact ⟨p, n, by rw [← hid, ← hn]⟩
  have hset : ∀ id, ¬ st'.builder.Unset id := by
    intro id hunset
    obtain ⟨i, info, hi, -, hopen⟩ := hp.unset id hunset
    obtain ⟨p, n, heq⟩ := hplaces i info hi
    exact hopen n (congrArg DeclInfo.state heq)
  rw [compile, hrun]
  refine ⟨⟨hp, hl hnil, hw.decls, hplaces, grounded_of_quiet hsteps hdone (hnil ▸ quiet_nil)⟩, ?_⟩
  simp only [hnil, List.mergeSort_nil, List.isEmpty_nil, if_true, Builder.build_of_set hset]

end Compile

end Flatwire
