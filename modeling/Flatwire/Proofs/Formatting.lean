import Mathlib.Data.Option.Basic
import Flatwire.Proofs.Cycles
import Flatwire.Proofs.Respacing

/-! Formatting does not change what a schema means. Two trees with the same words are compiled in lockstep: the builder
is asked the same things in the same order, and the same findings are reported, at places that correspond. As
corresponding places are in the same order, the findings also come out sorted alike. -/

namespace Flatwire

theorem Decl.Alike.name {R : Nat → Nat → Prop} {d d' : Decl} (h : d.Alike R d') : d.name.Alike R d'.name := by
  cases h with
  | enum hname _ => exact hname
  | sequence hname _ => exact hname

theorem Decl.Alike.kindName {R : Nat → Nat → Prop} {d d' : Decl} (h : d.Alike R d') : d.kindName = d'.kindName := by
  cases h <;> rfl

def CompileError.Alike (R : Nat → Nat → Prop) (e e' : CompileError) : Prop :=
  e.cause = e'.cause ∧ R e.span.start e'.span.start

def CompileWarning.Alike (R : Nat → Nat → Prop) (w w' : CompileWarning) : Prop :=
  w.cause = w'.cause ∧ R w.span.start w'.span.start

theorem CompileError.Alike.said {R : Nat → Nat → Prop} {e e' : CompileError} (h : e.Alike R e') :
    e.code = e'.code ∧ e.message = e'.message :=
  ⟨congrArg CompileError.Cause.code h.1, congrArg CompileError.Cause.message h.1⟩

theorem CompileWarning.Alike.said {R : Nat → Nat → Prop} {w w' : CompileWarning} (h : w.Alike R w') :
    w.code = w'.code ∧ w.message = w'.message := by
  unfold CompileWarning.code CompileWarning.message
  rw [h.1]
  exact ⟨rfl, rfl⟩

namespace Compile

structure DeclInfo.Alike (R : Nat → Nat → Prop) (i i' : DeclInfo) : Prop where
  decl : i.decl.Alike R i'.decl
  id : i.id = i'.id
  state : i.state = i'.state

/-- The same but for the places of what was reported and of what waits to be compiled. -/
structure State.Alike (R : Nat → Nat → Prop) (st st' : State) : Prop where
  builder : st.builder = st'.builder
  errors : List.Forall₂ (CompileError.Alike R) st.errors st'.errors
  warnings : List.Forall₂ (CompileWarning.Alike R) st.warnings st'.warnings
  steps : st.steps = st'.steps
  infos : List.Forall₂ (DeclInfo.Alike R) st.infos.toList st'.infos.toList
  stack : st.stack = st'.stack
  fault : st.fault = st'.fault

/-- From states that are alike the same result is computed, and states that are alike are reached. -/
def Sim {α : Type} (R : Nat → Nat → Prop) (x x' : CompileM α) : Prop :=
  ∀ st st' : State, st.Alike R st' → (x st).1 = (x' st').1 ∧ (x st).2.Alike R (x' st').2

variable {R : Nat → Nat → Prop} {α β : Type} {S : α → β → Prop} {xs : List α} {ys : List β} {type type' : TypeExpr}
  {ds ds' : List Decl} {st st' : State} {s s' : Span}

/-! ### Steps -/

theorem State.Alike.withFault (h : st.Alike R st') (e : Builder.Failure) :
    (st.withFault e).Alike R (st'.withFault e) :=
  { h with fault := by rw [State.withFault, State.withFault, h.fault] }

theorem sim_pure (a : α) : Sim R (pure a) (pure a) := fun _ _ h => ⟨rfl, h⟩

theorem Sim.bind {x x' : CompileM α} {f f' : α → CompileM β} (hx : Sim R x x') (hf : ∀ a, Sim R (f a) (f' a)) :
    Sim R (x >>= f) (x' >>= f') := by
  intro st st' h
  obtain ⟨heq, hst⟩ := hx st st' h
  change (f (x st).1 (x st).2).1 = (f' (x' st').1 (x' st').2).1 ∧
    State.Alike R (f (x st).1 (x st).2).2 (f' (x' st').1 (x' st').2).2
  rw [← heq]
  exact hf _ _ _ hst

theorem sim_get_bind {f f' : State → CompileM β} (hf : ∀ s s' : State, s.Alike R s' → Sim R (f s) (f' s')) :
    Sim R (get >>= f) (get >>= f') :=
  fun st st' h => hf st st' h st st' h

theorem sim_modify {f f' : State → State} (hf : ∀ st st' : State, st.Alike R st' → (f st).Alike R (f' st')) :
    Sim R (modify f) (modify f') :=
  fun st st' h => ⟨rfl, hf st st' h⟩

theorem sim_report {es es' : List CompileError} (h : List.Forall₂ (CompileError.Alike R) es es') :
    Sim R (report es) (report es') :=
  sim_modify fun _ _ hst => { hst with errors := List.rel_append hst.errors h }

theorem errorIf_alike (found : Bool) (cause : CompileError.Cause) (h : R s.start s'.start) :
    List.Forall₂ (CompileError.Alike R) (errorIf found cause s) (errorIf found cause s') := by
  unfold errorIf
  split_ifs
  · exact .cons ⟨rfl, h⟩ .nil
  · exact .nil

theorem sim_warnIf (found : Bool) (cause : CompileWarning.Cause) (h : R s.start s'.start) :
    Sim R (warnIf found cause s) (warnIf found cause s') := by
  refine sim_modify fun _ _ hst => { hst with warnings := List.rel_append hst.warnings ?_ }
  split_ifs
  · exact .cons ⟨rfl, h⟩ .nil
  · exact .nil

theorem sim_note (step : Step) : Sim R (note step) (note step) :=
  sim_modify fun _ _ hst => { hst with steps := by rw [hst.steps] }

theorem sim_place (op : Builder → Builder.Reply TypeId) : Sim R (place op) (place op) := by
  intro st st' hst
  unfold place
  rw [← hst.builder]
  obtain ⟨out, b⟩ := op st.builder
  have hb : State.Alike R { st with builder := b } { st' with builder := b } := { hst with builder := rfl }
  cases out with
  | ok => exact ⟨rfl, hb⟩
  | error e => exact ⟨rfl, hb.withFault e⟩

theorem sim_fill (op : Builder → Builder.Reply Unit) : Sim R (fill op) (fill op) := by
  intro st st' hst
  unfold fill
  rw [← hst.builder]
  obtain ⟨out, b⟩ := op st.builder
  have hb : State.Alike R { st with builder := b } { st' with builder := b } := { hst with builder := rfl }
  cases out with
  | ok => exact ⟨rfl, hb⟩
  | error e => exact ⟨rfl, hb.withFault e⟩

theorem sim_fillAt (id : Option TypeId) (op : TypeId → Builder → Builder.Reply Unit) :
    Sim R (fillAt id op) (fillAt id op) := by
  cases id with
  | none => exact sim_pure ()
  | some id => exact sim_fill _

/-! ### Declarations -/

theorem getElem?_alike (h : List.Forall₂ S xs ys) (i : Nat) :
    Option.Rel S xs[i]? ys[i]? := by
  induction h generalizing i with
  | nil => exact .none
  | cons hxy _ ih =>
    cases i with
    | zero => exact .some hxy
    | succ i => exact ih i

theorem isEmpty_alike (h : List.Forall₂ S xs ys) :
    xs.isEmpty = ys.isEmpty := by
  cases h <;> rfl

theorem any_alike (h : List.Forall₂ S xs ys) {p : α → Bool} {q : β → Bool}
    (hpq : ∀ a b, S a b → p a = q b) : xs.any p = ys.any q := by
  induction h with
  | nil => rfl
  | cons hxy _ ih => rw [List.any_cons, List.any_cons, hpq _ _ hxy, ih]

theorem find?_alike (h : List.Forall₂ S xs ys) {p : α → Bool}
    {q : β → Bool} (hpq : ∀ a b, S a b → p a = q b) : Option.Rel S (xs.find? p) (ys.find? q) := by
  induction h with
  | nil => exact .none
  | @cons x y xs ys hxy _ ih =>
    rw [List.find?_cons, List.find?_cons, hpq _ _ hxy]
    cases q y with
    | true => exact .some hxy
    | false => exact ih

theorem modify_alike (h : List.Forall₂ S xs ys) {f : α → α} {g : β → β}
    (hfg : ∀ a b, S a b → S (f a) (g b)) (i : Nat) : List.Forall₂ S (xs.modify i f) (ys.modify i g) := by
  induction h generalizing i with
  | nil => simp
  | cons hxy hrest ih =>
    cases i with
    | zero => exact .cons (hfg _ _ hxy) hrest
    | succ i => exact .cons hxy (ih i)

section

variable {infos infos' : Array DeclInfo} (h : List.Forall₂ (DeclInfo.Alike R) infos.toList infos'.toList)
include h

theorem names_alike : (infos.toList.map fun i => i.decl.name.text) = infos'.toList.map fun i => i.decl.name.text := by
  rw [← List.forall₂_eq_eq_eq, List.forall₂_map_left_iff, List.forall₂_map_right_iff]
  exact h.imp fun _ _ hi => hi.decl.name.1

theorem findDecl_alike (name : Bytes) : findDecl infos name = findDecl infos' name := by
  have hlist : ∀ infos : Array DeclInfo,
      findDecl infos name = (infos.toList.map fun i => i.decl.name.text).findIdx? fun n => n = name := by
    intro infos
    obtain ⟨infos⟩ := infos
    rw [findDecl, List.findIdx?_map, List.findIdx?_toArray]
    rfl
  rw [hlist, hlist, names_alike h]

theorem info_alike (i : Nat) : Option.Rel (DeclInfo.Alike R) infos[i]? infos'[i]? := by
  rw [← Array.getElem?_toList, ← Array.getElem?_toList]
  exact getElem?_alike h i

theorem declInfo?_alike (name : Bytes) : Option.Rel (DeclInfo.Alike R) (declInfo? infos name) (declInfo? infos' name) := by
  rw [declInfo?, declInfo?, findDecl_alike h]
  cases findDecl infos' name with
  | none => exact .none
  | some i => exact info_alike h i

theorem cyclePath_alike (stack : List Nat) (target : Nat) :
    cyclePath infos stack target = cyclePath infos' stack target := by
  have hname : ∀ i : Nat, (infos[i]?.map (·.decl.name.text)).getD [] = (infos'[i]?.map (·.decl.name.text)).getD [] := by
    intro i
    have hi := info_alike h i
    generalize infos[i]? = x at hi ⊢
    generalize infos'[i]? = y at hi ⊢
    cases hi with
    | none => rfl
    | some hi => exact hi.decl.name.1
  simp only [cyclePath, hname]

end

theorem sim_register {d d' : Decl} (h : d.Alike R d') : Sim R (register d) (register d') := by
  unfold register
  simp only [h.name.1, h.kindName]
  refine (sim_report (errorIf_alike _ _ h.name.2)).bind fun _ => ?_
  refine sim_get_bind fun s s' hs => ?_
  have hprev := declInfo?_alike hs.infos d'.name.text
  generalize declInfo? s.infos d'.name.text = x at hprev ⊢
  generalize declInfo? s'.infos d'.name.text = y at hprev ⊢
  have hadd : ∀ id, Sim R (modify (·.addDecl d id)) (modify (·.addDecl d' id)) := by
    refine fun id => sim_modify fun st st' hst => { hst with infos := ?_ }
    rw [State.addDecl, State.addDecl, Array.toList_push, Array.toList_push]
    exact List.rel_append hst.infos (.cons ⟨h, rfl, rfl⟩ .nil)
  cases hprev with
  | none =>
    have hdeclare : declare d = declare d' := by
      funext b
      cases h with
      | enum hname _ => rw [declare, declare, hname.1]
      | sequence hname _ => rw [declare, declare, hname.1]
    dsimp only
    rw [hdeclare]
    exact (sim_place _).bind fun id => hadd (some id)
  | some hp =>
    dsimp only
    rw [hp.decl.kindName, hp.decl.name.1]
    exact Sim.bind (sim_report (.cons ⟨rfl, h.name.2⟩ .nil)) fun _ => hadd none

theorem sim_registerAll (h : List.Forall₂ (Decl.Alike R) ds ds') :
    Sim R (registerAll ds) (registerAll ds') := by
  induction h with
  | nil => exact sim_pure ()
  | cons hd _ ih => exact (sim_register hd).bind fun _ => ih

/-! ### Enums -/

theorem State.Alike.setState (h : st.Alike R st') (i : Nat) (s : LayoutState) :
    (st.setState i s).Alike R (st'.setState i s) := by
  refine { h with infos := ?_ }
  rw [State.setState, State.setState, Array.toList_modify, Array.toList_modify]
  refine modify_alike h.infos ?_ i
  exact fun info info' hinfo => ⟨hinfo.decl, hinfo.id, rfl⟩

theorem itemErrors_alike (enum : Bytes) {before before' items items' : List EnumItem}
    (hbefore : List.Forall₂ (EnumItem.Alike R) before before') (h : List.Forall₂ (EnumItem.Alike R) items items') :
    List.Forall₂ (CompileError.Alike R) (itemErrors enum before items) (itemErrors enum before' items') := by
  induction h generalizing before before' with
  | nil => exact .nil
  | @cons item item' items items' hitem _ ih =>
    have hany : (before.any fun b => b.name.text = item.name.text) =
        before'.any fun b => b.name.text = item'.name.text :=
      any_alike hbefore fun b b' hb => by rw [hb.name.1, hitem.name.1]
    have hprev : Option.Rel (EnumItem.Alike R) (before.find? fun b => b.value.value = item.value.value)
        (before'.find? fun b => b.value.value = item'.value.value) :=
      find?_alike hbefore fun b b' hb => by rw [hb.value, hitem.value]
    rw [itemErrors, itemErrors, hany, hitem.name.1, hitem.value]
    rw [hitem.value] at hprev
    refine List.rel_append (List.rel_append (errorIf_alike _ _ hitem.name.2) ?_)
      (ih (List.rel_append hbefore (.cons hitem .nil)))
    generalize (before.find? fun b => b.value.value = item'.value.value) = x at hprev ⊢
    generalize (before'.find? fun b => b.value.value = item'.value.value) = y at hprev ⊢
    cases hprev with
    | none => exact .nil
    | some hp =>
      dsimp only
      rw [hp.name.1]
      exact .cons ⟨rfl, hitem.lexeme.2⟩ .nil

theorem sim_compileEnum (i : Nat) {info info' : DeclInfo} (hid : info.id = info'.id) {d d' : EnumDecl}
    (hname : d.name.Alike R d'.name) (hitems : List.Forall₂ (EnumItem.Alike R) d.items d'.items) :
    Sim R (compileEnum i info d) (compileEnum i info' d') := by
  have hvariants : d.variants = d'.variants := by
    rw [EnumDecl.variants, EnumDecl.variants, ← List.forall₂_eq_eq_eq, List.forall₂_map_left_iff,
      List.forall₂_map_right_iff]
    exact hitems.imp fun item item' hitem => by rw [hitem.name.1, hitem.value]
  unfold compileEnum
  simp only [hname.1, isEmpty_alike hitems, EnumDecl.width, hvariants, hid]
  refine (sim_warnIf _ _ hname.2).bind fun _ => ?_
  refine (sim_report (itemErrors_alike _ .nil hitems)).bind fun _ => ?_
  refine (sim_modify fun st st' hst => hst.setState i _).bind fun _ => ?_
  exact (sim_fillAt _ _).bind fun _ => sim_note _

theorem sim_compileEnums (i : Nat) (h : List.Forall₂ (Decl.Alike R) ds ds') :
    Sim R (compileEnums i ds) (compileEnums i ds') := by
  induction h generalizing i with
  | nil => exact sim_pure ()
  | @cons d d' ds ds' hd _ ih =>
    rw [compileEnums, compileEnums]
    refine sim_get_bind fun s s' hs => ?_
    have hinfo := info_alike hs.infos i
    generalize s.infos[i]? = x at hinfo ⊢
    generalize s'.infos[i]? = y at hinfo ⊢
    cases hd with
    | sequence _ _ => exact ih (i + 1)
    | enum hname hitems =>
      cases hinfo with
      | none => exact ih (i + 1)
      | some hinfo => exact (sim_compileEnum i hinfo.id hname hitems).bind fun _ => ih (i + 1)

/-! ### Types -/

theorem length_alike {fs fs' : FieldList} (h : fs.Alike R fs') : fs.toList.length = fs'.toList.length := by
  induction fs using FieldList.induction generalizing fs' with
  | nil =>
    cases h
    rfl
  | cons f gap rest ih =>
    cases h with
    | cons _ _ hr => rw [FieldList.toList, FieldList.toList, List.length_cons, List.length_cons, ih hr]

theorem countErrors_alike (path : List Bytes) (h : R s.start s'.start) (count : Nat) :
    List.Forall₂ (CompileError.Alike R) (countErrors path s count) (countErrors path s' count) := by
  unfold countErrors
  split_ifs
  · exact .cons ⟨rfl, h⟩ .nil
  · exact .cons ⟨rfl, h⟩ .nil
  · exact .nil

theorem sim_resolve_name (path : List Bytes) {i i' : Lexeme} (h : i.Alike R i') :
    Sim R (resolve path (.name i)) (resolve path (.name i')) := by
  rw [resolve, resolve, h.1]
  cases PrimitiveKind.ofName? i'.text with
  | some k => exact (sim_place _).bind fun id => sim_pure _
  | none =>
    dsimp only
    split_ifs
    · exact (sim_place _).bind fun id => sim_pure _
    · refine sim_get_bind fun s s' hs => ?_
      have hinfo := declInfo?_alike hs.infos i'.text
      generalize declInfo? s.infos i'.text = x at hinfo ⊢
      generalize declInfo? s'.infos i'.text = y at hinfo ⊢
      cases hinfo with
      | none => exact Sim.bind (sim_report (.cons ⟨rfl, h.2⟩ .nil)) fun _ => sim_pure none
      | some hinfo =>
        dsimp only
        rw [hinfo.id]
        exact sim_pure _

theorem sim_resolve_resolveVariants :
    (∀ (type type' : TypeExpr) (path : List Bytes), type.Alike R type' → Sim R (resolve path type) (resolve path type')) ∧
      ∀ (fs fs' : FieldList) (path : List Bytes) (before : List Variant), fs.Alike R fs' →
        Sim R (resolveVariants path before fs) (resolveVariants path before fs') := by
  refine TypeExpr.induction ?name ?list ?oneOf ?nil ?cons
  case name =>
    intro ident type' path h
    cases h with
    | name hi => exact sim_resolve_name path hi
  case list =>
    intro _ _ _ elem _ _ ih type' path h
    cases h with
    | list he =>
      rw [resolve, resolve]
      refine (ih _ path he).bind fun id => ?_
      cases id with
      | none => exact sim_pure none
      | some id => exact (sim_place _).bind fun id => sim_pure _
  case oneOf =>
    intro _ _ _ _ _ variants _ ih type' path h
    cases h with
    | oneOf hk hvs =>
      rw [resolve, resolve, length_alike hvs]
      refine (sim_place _).bind fun id => ?_
      refine Sim.bind (sim_report (countErrors_alike path hk.2 _)) fun _ => ?_
      refine (ih _ path [] hvs).bind fun vs => ?_
      exact (sim_fill _).bind fun _ => sim_pure _
  case nil =>
    intro fs' path before h
    cases h
    exact sim_pure before
  case cons =>
    intro f gap rest ihType ihRest fs' path before h
    cases h with
    | cons hn ht hr =>
      rw [resolveVariants, resolveVariants, hn.1]
      refine Sim.bind (sim_report (errorIf_alike _ _ hn.2)) fun _ => ?_
      exact (ihType _ _ ht).bind fun id => ihRest _ path _ hr

theorem sim_resolve (path : List Bytes) (h : type.Alike R type') :
    Sim R (resolve path type) (resolve path type') := sim_resolve_resolveVariants.1 type type' path h

/-! ### Layout -/

theorem target?_alike {infos infos' : Array DeclInfo} (h : List.Forall₂ (DeclInfo.Alike R) infos.toList infos'.toList)
    (ht : type.Alike R type') : target? infos type = target? infos' type' := by
  cases ht with
  | name hi => rw [target?, target?, hi.1, findDecl_alike h]
  | list _ => rfl
  | oneOf _ _ => rfl

theorem ownSize_alike (h : type.Alike R type') : ownSize type = ownSize type' := by
  cases h with
  | name hi => rw [ownSize, ownSize, hi.1]
  | list _ => rfl
  | oneOf _ _ => rfl

theorem State.Alike.enter (h : st.Alike R st') (i : Nat) : (st.enter i).Alike R (st'.enter i) :=
  { h.setState i .visiting with stack := congrArg (i :: ·) h.stack }

theorem State.Alike.leave (h : st.Alike R st') (i size : Nat) :
    (st.leave i size).Alike R (st'.leave i size) :=
  { h.setState i (.done size) with stack := congrArg List.tail h.stack }

theorem sim_finish (i : Nat) {d d' : SequenceDecl} (hname : d.name.Alike R d'.name)
    (hfields : d.fieldList.Alike R d'.fieldList) (id : Option TypeId) (part : Partial) :
    Sim R (finish i d id part) (finish i d' id part) := by
  have hempty : d.fields.isEmpty = d'.fields.isEmpty := by
    rw [Bool.eq_iff_iff, List.isEmpty_iff_length_eq_zero, List.isEmpty_iff_length_eq_zero, SequenceDecl.fields,
      SequenceDecl.fields, length_alike hfields]
  unfold finish
  simp only [hname.1, hempty]
  refine Sim.bind (sim_warnIf _ _ hname.2) fun _ => ?_
  refine Sim.bind (sim_report (errorIf_alike _ _ hname.2)) fun _ => ?_
  refine (sim_modify fun st st' hst => hst.leave i _).bind fun _ => ?_
  exact (sim_fillAt _ _).bind fun _ => (sim_note _).bind fun _ => sim_pure _

section

variable {layoutOf layoutOf' : Nat → CompileM Nat} (hlayout : ∀ i, Sim R (layoutOf i) (layoutOf' i))
include hlayout

theorem sim_embed (path : List Bytes) (h : type.Alike R type') :
    Sim R (embed layoutOf path type) (embed layoutOf' path type') := by
  unfold embed
  refine sim_get_bind fun s s' hs => ?_
  have hresolve : Sim R (do return ((← resolve path type).getD 0, ownSize type))
      (do return ((← resolve path type').getD 0, ownSize type')) := by
    rw [ownSize_alike h]
    exact (sim_resolve path h).bind fun id => sim_pure _
  dsimp only
  rw [target?_alike hs.infos h]
  cases htarget : target? s'.infos type' with
  | none => exact hresolve
  | some i =>
    -- only a name leads to a declaration, and a name stands where its word does
    have hspan : R type.span.start type'.span.start := by
      cases h with
      | name hi => exact hi.2
      | list _ => cases htarget
      | oneOf _ _ => cases htarget
    have hinfo := info_alike hs.infos i
    dsimp only [Option.bind_some]
    generalize s.infos[i]? = x at hinfo ⊢
    generalize s'.infos[i]? = y at hinfo ⊢
    cases hinfo with
    | none => exact hresolve
    | @some info info' hinfo =>
      dsimp only [Option.map_some]
      rw [hinfo.id, hinfo.state]
      cases info'.state with
      | done size => exact sim_pure _
      | visiting =>
        refine sim_get_bind fun u u' hu => ?_
        rw [cyclePath_alike hs.infos, hu.stack]
        exact Sim.bind (sim_report (.cons ⟨rfl, hspan⟩ .nil)) fun _ => sim_pure _
      | pending => exact (hlayout i).bind fun n => sim_pure _

theorem sim_layoutFields (sequence : Bytes) (part : Partial) {fs fs' : FieldList} (h : fs.Alike R fs') :
    Sim R (layoutFields layoutOf sequence part fs) (layoutFields layoutOf' sequence part fs') := by
  induction fs using FieldList.induction generalizing fs' part with
  | nil =>
    cases h
    exact sim_pure part
  | cons f gap rest ih =>
    cases h with
    | cons hn ht hr =>
      rw [layoutFields, layoutFields, hn.1]
      refine Sim.bind (sim_report (errorIf_alike _ _ hn.2)) fun _ => ?_
      exact (sim_embed hlayout _ ht).bind fun x => ih _ hr

theorem sim_layoutStep (i : Nat) : Sim R (layoutStep layoutOf i) (layoutStep layoutOf' i) := by
  unfold layoutStep
  refine sim_get_bind fun s s' hs => ?_
  have hinfo := info_alike hs.infos i
  generalize s.infos[i]? = x at hinfo ⊢
  generalize s'.infos[i]? = y at hinfo ⊢
  cases hinfo with
  | none => exact sim_pure 0
  | @some info info' hinfo =>
    obtain ⟨decl, id, state⟩ := info
    obtain ⟨decl', id', state'⟩ := info'
    obtain ⟨hdecl, rfl, rfl⟩ := hinfo
    cases hdecl with
    | enum _ _ => cases state <;> exact sim_pure _
    | sequence hname hfields =>
      cases state with
      | visiting => exact sim_pure _
      | done size => exact sim_pure _
      | pending =>
        refine (sim_modify fun st st' hst => hst.enter i).bind fun _ => ?_
        rw [hname.1]
        exact (sim_layoutFields hlayout _ _ hfields).bind fun part => sim_finish i hname hfields id part

end

theorem sim_layoutWithin {stop stop' : Nat → CompileM Nat} (hstop : ∀ i, Sim R (stop i) (stop' i)) (depth : Nat) :
    ∀ i, Sim R (layoutWithin stop depth i) (layoutWithin stop' depth i) := by
  induction depth with
  | zero => exact hstop
  | succ depth ih => exact sim_layoutStep ih

theorem sim_layoutSequences {layoutOf layoutOf' : Nat → CompileM Nat} (hlayout : ∀ i, Sim R (layoutOf i) (layoutOf' i))
    (i : Nat) (h : List.Forall₂ (Decl.Alike R) ds ds') :
    Sim R (layoutSequences layoutOf i ds) (layoutSequences layoutOf' i ds') := by
  induction h generalizing i with
  | nil => exact sim_pure ()
  | @cons d d' ds ds' hd _ ih =>
    cases hd with
    | enum _ _ =>
      rw [layoutSequences, layoutSequences]
      exact ih (i + 1)
    | sequence _ _ =>
      rw [layoutSequences, layoutSequences]
      exact (hlayout i).bind fun _ => ih (i + 1)

theorem sim_compileDecls (h : List.Forall₂ (Decl.Alike R) ds ds') :
    Sim R (compileDecls ds) (compileDecls ds') := by
  rw [compileDecls, compileDecls, compileDeclsWith, compileDeclsWith, h.length_eq]
  refine (sim_registerAll h).bind fun _ => (sim_compileEnums 0 h).bind fun _ => ?_
  exact sim_layoutSequences (sim_layoutWithin (fun i => sim_pure 0) _) 0 h

/-! ### Sorting -/

theorem before_alike (hR : Parallel R) {s₁ s₂ s₁' s₂' : Span} (h₁ : R s₁.start s₁'.start) (h₂ : R s₂.start s₂'.start)
    (c₁ c₂ : Nat) : before s₁ c₁ s₂ c₂ = before s₁' c₁ s₂' c₂ := by
  have hlt := hR _ _ _ _ h₁ h₂
  have hgt := hR _ _ _ _ h₂ h₁
  have heq : s₁.start = s₂.start ↔ s₁'.start = s₂'.start := by omega
  simp only [before, hlt, Bool.beq_eq_decide_eq, heq]

theorem mergeSort_alike {le : α → α → Bool} {le' : β → β → Bool}
    (hle : ∀ a a' b b', S a a' → S b b' → le a b = le' a' b') (h : List.Forall₂ S xs ys) :
    List.Forall₂ S (xs.mergeSort le) (ys.mergeSort le') := by
  obtain ⟨hlen, hzip⟩ := List.forall₂_iff_zip.1 h
  -- both are sorted like the list of pairs
  have hfst : ((xs.zip ys).mergeSort fun p q => le p.1 q.1).map Prod.fst = xs.mergeSort le := by
    rw [List.map_mergeSort (s := le) fun _ _ _ _ => rfl, List.map_fst_zip (Nat.le_of_eq hlen)]
  have hsnd : ((xs.zip ys).mergeSort fun p q => le p.1 q.1).map Prod.snd = ys.mergeSort le' := by
    rw [List.map_mergeSort (s := le') fun p hp q hq => hle _ _ _ _ (hzip hp) (hzip hq),
      List.map_snd_zip (Nat.le_of_eq hlen.symm)]
  rw [← hfst, ← hsnd, List.forall₂_map_left_iff, List.forall₂_map_right_iff, List.forall₂_same]
  intro p hp
  exact hzip (List.mem_mergeSort.1 hp)

theorem sorted_alike (hR : Parallel R) {S : α → α → Prop} {span : α → Span} {code : α → Nat}
    (hspan : ∀ a a', S a a' → R (span a).start (span a').start) (hcode : ∀ a a', S a a' → code a = code a')
    {xs ys : List α} (h : List.Forall₂ S xs ys) :
    List.Forall₂ S (xs.mergeSort fun a b => before (span a) (code a) (span b) (code b))
      (ys.mergeSort fun a b => before (span a) (code a) (span b) (code b)) := by
  refine mergeSort_alike (fun a a' b b' ha hb => ?_) h
  rw [before_alike hR (hspan _ _ ha) (hspan _ _ hb), hcode _ _ ha, hcode _ _ hb]

theorem compile_alike (hR : Parallel R) {tree tree' : SchemaTree} (h : tree.Alike R tree') (name : Bytes) :
    (compile tree name).schema = (compile tree' name).schema ∧
      List.Forall₂ (CompileError.Alike R) (compile tree name).errors (compile tree' name).errors ∧
      List.Forall₂ (CompileWarning.Alike R) (compile tree name).warnings (compile tree' name).warnings ∧
      (compile tree name).steps = (compile tree' name).steps ∧
      (compile tree name).fault = (compile tree' name).fault := by
  have hstart : (start name).Alike R (start name) := ⟨rfl, .nil, .nil, rfl, .nil, rfl, rfl⟩
  have hst := (sim_compileDecls h (start name) (start name) hstart).2
  unfold compile
  generalize compileDecls tree.decls (start name) = x at hst ⊢
  generalize compileDecls tree'.decls (start name) = x' at hst ⊢
  obtain ⟨_, st⟩ := x
  obtain ⟨_, st'⟩ := x'
  dsimp only at hst ⊢
  have herrors := sorted_alike hR (fun _ _ he => he.2) (fun _ _ he => he.said.1) hst.errors
  have hwarnings := sorted_alike hR (fun _ _ hw => hw.2) (fun _ _ hw => hw.said.1) hst.warnings
  rw [isEmpty_alike herrors, hst.builder, hst.steps, hst.fault, herrors.length_eq]
  split_ifs
  · obtain ⟨out, b⟩ := st'.builder.build
    cases out <;> exact ⟨rfl, .nil, hwarnings, rfl, rfl⟩
  · exact ⟨rfl, herrors, hwarnings, rfl, rfl⟩

/-- Sources that can be tokenized to their end and differ only in what stands between significant tokens are both
refused, with one code and message, or both parsed. Then they are compiled to one and the same schema, with the same
codes and messages in the same order, and the same steps. -/
theorem formatting_keeps_meaning {src src' : Bytes} {ts ts' : TokenStream} (h : TokenStream.ofSource src = .ok ts)
    (h' : TokenStream.ofSource src' = .ok ts') (hend : ts.failure = none) (hend' : ts'.failure = none)
    (hsame : Token.significant ts.tokens = Token.significant ts'.tokens) (keep keep' : Bool) (name : Bytes) :
    (∃ tree tree', SchemaTree.parse src keep = .ok tree ∧ SchemaTree.parse src' keep' = .ok tree' ∧
      (compile tree name).schema = (compile tree' name).schema ∧
      List.Forall₂ (fun e e' : CompileError => e.code = e'.code ∧ e.message = e'.message)
        (compile tree name).errors (compile tree' name).errors ∧
      List.Forall₂ (fun w w' : CompileWarning => w.code = w'.code ∧ w.message = w'.message)
        (compile tree name).warnings (compile tree' name).warnings ∧
      (compile tree name).steps = (compile tree' name).steps ∧
      (compile tree name).fault = (compile tree' name).fault) ∨
    ∃ e e', SchemaTree.parse src keep = .error e ∧ SchemaTree.parse src' keep' = .error e' ∧
      e.code = e'.code ∧ e.message = e'.message := by
  obtain ⟨-, -, htokens, -⟩ := TokenStream.ofSource_eq_ok_iff.1 ⟨h, hend⟩
  obtain ⟨-, -, htokens', -⟩ := TokenStream.ofSource_eq_ok_iff.1 ⟨h', hend'⟩
  have hR := TokenStream.parallel_corresponds htokens htokens'
  have htwin := TokenStream.twin_of_core hsame hend hend'
  rcases SchemaTree.parse_alike h h' htwin keep keep' with ⟨tree, tree', htree, htree', halike⟩ | ⟨e, e', he, he', hcause⟩
  · obtain ⟨hschema, herrors, hwarnings, hsteps, hfault⟩ := compile_alike hR halike name
    exact .inl ⟨tree, tree', htree, htree', hschema, herrors.imp fun _ _ he => he.said,
      hwarnings.imp fun _ _ hw => hw.said, hsteps, hfault⟩
  · exact .inr ⟨e, e', he, he', congrArg SyntaxError.Cause.code hcause, congrArg SyntaxError.Cause.message hcause⟩

/-- An enum that repeats itself, and a sequence that holds itself and a type that nobody declared. -/
theorem formatting_keeps_meaning_sample :
    let src := Bytes.ofString "enum E{a=1;a=1;}sequence S{x:T;y:S;}"
    let src' := Bytes.ofString
      "// twice\nenum E\t\x7b a = 1 ;\r\n a = 1;\n\x7d\n\nsequence S \x7b /// lost\n x : T; y : S ;\x7d"
    ∃ tree tree', SchemaTree.parse src true = .ok tree ∧ SchemaTree.parse src' false = .ok tree' ∧
      (compile tree "s").errors.length = 4 ∧
      List.Forall₂ (fun e e' : CompileError => e.code = e'.code ∧ e.message = e'.message)
        (compile tree "s").errors (compile tree' "s").errors := by
  intro src src'
  obtain ⟨tree, htree, hlen⟩ : ∃ tree, SchemaTree.parse src true = .ok tree ∧
      (compileDecls tree.decls (start "s")).2.errors.length = 4 := SchemaTree.exists_parse (by decide +kernel)
  have hts : TokenStream.ofSource src = .ok ⟨(Token.scanAll src.length 0 src).1, none, 0⟩ := by decide +kernel
  have hts' : TokenStream.ofSource src' = .ok ⟨(Token.scanAll src'.length 0 src').1, none, 0⟩ := by decide +kernel
  have hsame : Token.significant (Token.scanAll src.length 0 src).1 =
      Token.significant (Token.scanAll src'.length 0 src').1 := by decide +kernel
  rcases formatting_keeps_meaning hts hts' rfl rfl hsame true false "s" with
    ⟨tree₁, tree', htree₁, htree', -, herrors, -⟩ | ⟨e, e', he, -⟩
  · cases htree.symm.trans htree₁
    refine ⟨tree, tree', htree, htree', ?_, herrors⟩
    rw [compile_errors, List.length_mergeSort, hlen]
  · cases htree.symm.trans he

end Compile

end Flatwire
