import Flatwire.Proofs.Cycles

/-! Trees that are compiled without errors. If no declaration has anything wrong in itself, no sequence holds itself, and
all sizes are within bounds when they are counted in 32 bits, then nothing is reported. -/

namespace Flatwire

namespace Compile

variable {ds : List Decl} {size : Nat → Nat} {st st' st₁ : State} {i j : Nat} {q : Bytes} {type : TypeExpr}
  {d : SequenceDecl} {id : Option TypeId}

/-- The size of a member, if those of the declarations are given. -/
def memberSize (ds : List Decl) (size : Nat → Nat) : TypeExpr → Nat
  | .name ident => if isBuiltin ident.text then ownSize (.name ident) else ((firstDecl ds ident.text).map size).getD 0
  | type => ownSize type

/-- The size of members side by side, counted in 32 bits. -/
def membersSize (ds : List Decl) (size : Nat → Nat) (fs : List FieldExpr) : Nat :=
  (fs.map fun f => memberSize ds size f.type).sum % 0x100000000

/-- Nothing is wrong with the declarations, if they have the given sizes. -/
structure Clean (ds : List Decl) (size : Nat → Nat) : Prop where
  distinct : (ds.map fun d => d.name.text).Nodup
  free : ∀ d ∈ ds, isBuiltin d.name.text = false ∧ d.name.text ≠ oneofKeyword
  items : ∀ e, Decl.enum e ∈ ds → itemErrors e.name.text [] e.items = []
  members : ∀ d, Decl.sequence d ∈ ds → (d.fields.map fun f => f.name.text).Nodup
  types : ∀ d, Decl.sequence d ∈ ds → ∀ f ∈ d.fields,
    typeErrors (fun n => (firstDecl ds n).isSome) [d.name.text, f.name.text] f.type = []
  acyclic : ∀ i, ¬ Relation.TransGen (Embeds ds) i i
  widths : ∀ (i : Nat) e, ds[i]? = some (.enum e) → size i = e.width
  sizes : ∀ (i : Nat) d, ds[i]? = some (.sequence d) → size i = membersSize ds size d.fields ∧ size i ≤ maxStaticSize

theorem declared_eq {infos : Array DeclInfo} (h : infos.toList.map DeclInfo.decl = ds) :
    declared infos = fun n => (firstDecl ds n).isSome := by
  funext n
  rw [declared, findDecl_eq h]

theorem memberSize_own (size : Nat → Nat) (h : st.infos.toList.map DeclInfo.decl = ds)
    (htarget : target? st.infos type = none) : memberSize ds size type = ownSize type := by
  cases type with
  | list | oneOf => rfl
  | name ident =>
    rw [target?, findDecl_eq h] at htarget
    rw [memberSize]
    split_ifs at htarget ⊢ with hbuiltin
    · rfl
    · have hnone : ident.text ≠ stringTypeName ∧ PrimitiveKind.ofName? ident.text = none := by
        simpa [isBuiltin] using hbuiltin
      simp [htarget, ownSize, hnone]

theorem memberSize_declared (size : Nat → Nat) (h : st.infos.toList.map DeclInfo.decl = ds)
    (htarget : target? st.infos type = some i) : memberSize ds size type = size i := by
  obtain ⟨ident, rfl, hbuiltin, hfirst⟩ := (target?_eq_some_iff h).1 htarget
  rw [memberSize, hbuiltin, hfirst]
  rfl

/-! ### Fields -/

/-- What is done has the given size. -/
def Sized (size : Nat → Nat) (st : State) : Prop :=
  ∀ (i : Nat) (info : DeclInfo) n, st.infos[i]? = some info → info.state = .done n → n = size i

/-- Fields can be laid out without errors behind those that are known. -/
structure Ready (ds : List Decl) (size : Nat → Nat) (q : Bytes) (part : Partial) (fs : FieldList) (st : State) :
    Prop where
  walk : Walk ds st
  owner : Owner ds st q fs
  sized : Sized size st
  names : (part.fields.toList.map Field.name ++ fs.toList.map fun f => f.name.text).Nodup
  offset : part.offset < 0x100000000
  errors : st.errors = []

section Ready

variable {part part' : Partial} {f : FieldExpr} {gap : Gap} {rest : FieldList}

theorem Ready.check_eq (h : Ready ds size q part (.cons f gap rest) st) : st.check q part f = st := by
  have hnew : part.names.contains f.name.text = false := by
    have hdisjoint := (List.nodup_append.1 h.names).2.2
    rw [part.names_eq, Array.any_eq_false']
    intro g hg hname
    exact hdisjoint g.name (List.mem_map_of_mem (Array.mem_toList_iff.2 hg)) f.name.text List.mem_cons_self
      (of_decide_eq_true hname)
  rw [State.check, hnew]
  exact amend_nil st

theorem Ready.next (h : Ready ds size q part (.cons f gap rest) st) (id : TypeId) (n : Nat) (hw : Walk ds st₁)
    (hg : Grows st st₁) (hsized : Sized size st₁) (hnil : st₁.errors = []) :
    Ready ds size q (part.add f.name.text id n) rest st₁ := by
  refine ⟨hw, h.owner.tail hg, hsized, ?_, Nat.mod_lt _ (by decide), hnil⟩
  have hnames := h.names
  rw [Partial.add, Array.toList_push, List.map_append, List.append_assoc]
  exact hnames

theorem add_offset_eq {fs : List FieldExpr} {id : TypeId}
    (h : part'.offset = ((part.add f.name.text id (memberSize ds size f.type)).offset +
      (fs.map fun f => memberSize ds size f.type).sum) % 0x100000000) :
    part'.offset = (part.offset + ((f :: fs).map fun f => memberSize ds size f.type).sum) % 0x100000000 := by
  rw [h, Partial.add, List.map_cons, List.sum_cons, Nat.mod_add_mod, Nat.add_assoc]

end Ready

theorem sized_enter (h : Sized size st) : Sized size (st.enter i) := by
  intro j info n hj hn
  obtain ⟨s', hj', hnew, hkeep⟩ := of_setState (s := .visiting) hj
  by_cases hij : i = j
  · cases (hnew hij).symm.trans hn
  · exact h j _ n hj' ((hkeep hij).trans hn)

theorem sized_finish {part : Partial} (h : Sized size st) (hi : part.size = size i) :
    Sized size (finish i d id part st).2 := by
  intro j info n hj hn
  rw [finish_infos] at hj
  obtain ⟨s', hj', hnew, hkeep⟩ := of_setState hj
  by_cases hij : i = j
  · subst hij
    cases (hnew rfl).symm.trans hn
    exact hi
  · exact h j _ n hj' ((hkeep hij).trans hn)

theorem Clean.ready_enter (hc : Clean ds size) (hw : Walk ds st)
    (hi : st.infos[i]? = some ⟨.sequence d, id, .pending⟩) (hasked : ∀ j ∈ st.stack.head?, Embeds ds j i)
    (hsized : Sized size st) (hnil : st.errors = []) : Ready ds size d.name.text .empty d.fieldList (st.enter i) := by
  have hd : ds[i]? = some (.sequence d) := by rw [hw.getElem?, hi]; rfl
  exact ⟨hw.enter hi hasked, owner_enter hw hi, sized_enter hsized, hc.members d (List.mem_of_getElem? hd), by decide,
    hnil⟩

theorem Clean.finish (hc : Clean ds size) {part : Partial} (hd : ds[i]? = some (.sequence d)) (hsized : Sized size st)
    (hnil : st.errors = []) (hoff : part.offset = membersSize ds size d.fields) :
    (finish i d id part st).2.errors = [] ∧ Sized size (finish i d id part st).2 ∧ part.size = size i := by
  obtain ⟨hsize, hle⟩ := hc.sizes i d hd
  have hpart : part.size = size i := by rw [Partial.size, hoff, ← hsize, Nat.min_eq_left hle]
  refine ⟨?_, sized_finish hsized hpart, hpart⟩
  rw [finish_errors, hnil, hoff, ← hsize, errorIf, if_neg]
  · rfl
  · simpa using hle

theorem Lays.clean (hc : Clean ds size) {part part' : Partial} {fs : FieldList} (h : Lays q part fs st part' st')
    (hr : Ready ds size q part fs st) : st'.errors = [] ∧ Sized size st' ∧
      part'.offset = (part.offset + (fs.toList.map fun f => memberSize ds size f.type).sum) % 0x100000000 := by
  induction h with
  | nil => exact ⟨hr.errors, hr.sized, (Nat.mod_eq_of_lt hr.offset).symm⟩
  | @own q part f gap rest st found st₁ part' st' htarget hres _ ih =>
    rw [hr.check_eq] at hres
    obtain ⟨hw₁, hg₁⟩ := hr.walk.resolve hres
    obtain ⟨_, b, heq, -, -⟩ := resolve_spec st [q, f.name.text] f.type hr.walk.ready
    cases hres.symm.trans heq
    have htypes : typeErrors (declared st.infos) [q, f.name.text] f.type = [] := by
      obtain ⟨i, d, -, hd, rfl, hfs⟩ := hr.owner
      rw [declared_eq hr.walk.decls]
      exact hc.types d (List.mem_of_getElem? hd) f (hfs f List.mem_cons_self)
    obtain ⟨hnil', hsized', hoff⟩ := ih (hr.next _ _ hw₁ hg₁ hr.sized (by simp [State.amend, hr.errors, htypes]))
    rw [← memberSize_own size hr.walk.decls htarget] at hoff
    exact ⟨hnil', hsized', add_offset_eq hoff⟩
  | @known q part f gap rest st i info n part' st' htarget hinfo hdone _ ih =>
    rw [hr.check_eq] at ih
    obtain ⟨hnil', hsized', hoff⟩ := ih (hr.next _ _ hr.walk (.refl st) hr.sized hr.errors)
    rw [hr.sized i info n hinfo hdone, ← memberSize_declared size hr.walk.decls htarget] at hoff
    exact ⟨hnil', hsized', add_offset_eq hoff⟩
  | @cycle q part f gap rest st i info part' st' htarget hinfo hvisiting _ ih =>
    -- a field that leads back to a layout in progress would close a cycle
    obtain ⟨j, path, -, -, hcycle, -⟩ :=
      hr.walk.sound_cycle hr.owner htarget hinfo hvisiting _ List.mem_cons_self rfl
    exact absurd hcycle.transGen (hc.acyclic j)
  | @inner q part f gap rest st i d id innerPart st₁ part' st' htarget hinfo hinner hlays ihInner ihRest =>
    -- the sequence inside is counted from zero, so it is done with its own size before that is added
    rw [hr.check_eq] at hinner ihInner
    have hd : ds[i]? = some (.sequence d) := by rw [hr.walk.getElem?, hinfo]; rfl
    have hr₀ := hc.ready_enter hr.walk hinfo (hr.owner.embeds hr.walk htarget hinfo) hr.sized hr.errors
    obtain ⟨hw₁, hg₁⟩ := hinner.walk hr₀.walk hr₀.owner
    obtain ⟨hw₂, hg₂, -⟩ := hw₁.finish hg₁ hinfo innerPart
    obtain ⟨hnil₁, hsized₁, hoff₁⟩ := ihInner hr₀
    obtain ⟨hnil₂, hsized₂, hsize⟩ := hc.finish hd hsized₁ hnil₁
      (hoff₁.trans (congrArg (· % 0x100000000) (Nat.zero_add _)))
    obtain ⟨hnil', hsized', hoff⟩ := ihRest (hr.next _ _ hw₂ hg₂ hsized₂ hnil₂)
    rw [hsize, ← memberSize_declared size hr.walk.decls htarget] at hoff
    exact ⟨hnil', hsized', add_offset_eq hoff⟩

theorem LaysOut.clean (hc : Clean ds size) (h : LaysOut st st') (hw : Walk ds st)
    (hst : st.errors = [] ∧ Sized size st) : st'.errors = [] ∧ Sized size st' := by
  obtain ⟨i, d, id, part, st₁, hstack, hi, hlays, rfl⟩ := h
  have hd : ds[i]? = some (.sequence d) := by rw [hw.getElem?, hi]; rfl
  obtain ⟨hnil, hsized, hoff⟩ := hlays.clean hc (hc.ready_enter hw hi (by simp [hstack]) hst.2 hst.1)
  obtain ⟨hnil', hsized', -⟩ := hc.finish hd hsized hnil
    (hoff.trans (congrArg (· % 0x100000000) (Nat.zero_add _)))
  exact ⟨hnil', hsized'⟩

/-! ### Declarations -/

theorem declErrors_eq_nil {before : List Decl} {infos : Array DeclInfo} {d : Decl}
    (h : infos.toList.map DeclInfo.decl = before) (hnew : ∀ p ∈ before, p.name.text ≠ d.name.text)
    (hfree : isBuiltin d.name.text = false ∧ d.name.text ≠ oneofKeyword) : declErrors infos d = [] := by
  have hnone : declInfo? infos d.name.text = none := by
    have hfirst : firstDecl before d.name.text = none := by
      rw [firstDecl, List.findIdx?_eq_none_iff]
      intro p hp
      exact decide_eq_false (hnew p hp)
    rw [declInfo?, findDecl_eq h, hfirst]
    rfl
  rw [declErrors, hnone, hfree.1, errorIf, if_neg]
  · rfl
  · simpa using hfree.2

theorem Registered.errors_registerAll {before : List Decl} (h : Registered before st) (hnil : st.errors = [])
    (hdistinct : ((before ++ ds).map fun d => d.name.text).Nodup)
    (hfree : ∀ d ∈ ds, isBuiltin d.name.text = false ∧ d.name.text ≠ oneofKeyword) :
    (Compile.registerAll ds st).2.errors = [] := by
  induction ds generalizing before st with
  | nil => exact hnil
  | cons d ds ih =>
    obtain ⟨-, id, b, heq, -⟩ := h.toPlaced.register d
    have hnew : ∀ p ∈ before, p.name.text ≠ d.name.text := by
      rw [List.map_append, List.nodup_append] at hdistinct
      exact fun p hp => hdistinct.2.2 _ (List.mem_map_of_mem hp) _ List.mem_cons_self
    have hnext : (register d st).2.errors = [] := by
      rw [heq]
      change st.errors ++ declErrors st.infos d = []
      rw [hnil, declErrors_eq_nil h.infos hnew (hfree d List.mem_cons_self), List.append_nil]
    refine ih (h.registerAll [d]) hnext ?_ fun e he => hfree e (List.mem_cons_of_mem d he)
    rw [List.append_assoc]
    exact hdistinct

theorem Prepared.errors_compileEnums {k : Nat} {rest : List Decl} (h : Prepared ds k st) (hnil : st.errors = [])
    (hitems : ∀ e, Decl.enum e ∈ ds → itemErrors e.name.text [] e.items = []) (hrest : ds.drop k = rest) :
    (Compile.compileEnums k rest st).2.errors = [] := by
  refine (h.run (P := fun st => st.errors = []) hrest hnil fun k st e id h hk hnil => ?_).2
  have hmem : Decl.enum e ∈ ds := by
    apply List.mem_of_getElem?
    rw [getElem?_decls h.infos, hk]
    rfl
  rw [compileEnum_errors, hnil, hitems e hmem]
  rfl

theorem Prepared.sized (hc : Clean ds size) (h : Prepared ds ds.length st) : Sized size st := by
  intro i info n hi hn
  obtain ⟨decl, id, s⟩ := info
  cases decl with
  | sequence d => cases (h.sequences i d id s hi).symm.trans hn
  | enum e =>
    cases (h.enums i e id s hi (h.lt hi)).1.symm.trans hn
    exact (hc.widths i e (by rw [getElem?_decls h.infos, hi]; rfl)).symm

theorem Clean.compileDecls (hc : Clean ds size) (name : Bytes) :
    (compileDecls ds (start name)).2.errors = [] ∧ Sized size (compileDecls ds (start name)).2 := by
  obtain ⟨st', hrun, -, hsteps, -⟩ := compileDecls_spec ds name
  have hprepared := prepared_spec name ds
  have hstart : (prepared name ds).errors = [] :=
    ((registered_start name).registerAll ds).prepared.errors_compileEnums
      ((registered_start name).errors_registerAll rfl hc.distinct hc.free) hc.items rfl
  rw [hrun]
  exact (hprepared.walk.run (P := fun st => st.errors = [] ∧ Sized size st) hsteps ⟨hstart, hprepared.sized hc⟩
    fun st st' hw hlays => hlays.clean hc hw).2.2

theorem Clean.compile_errors_eq_nil {tree : SchemaTree} (hc : Clean tree.decls size) (name : Bytes) :
    (compile tree name).errors = [] := by
  rw [compile_errors, (hc.compileDecls name).1, List.mergeSort_nil]

end Compile

end Flatwire
