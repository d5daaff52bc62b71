import Mathlib.Algebra.Group.Prod
import Mathlib.Tactic.Abel
import Flatwire.Proofs.Acceptance
import Flatwire.Proofs.Census

/-! What compilation finds wrong. Apart from cycles and sizes, it is what a plain scan of the declarations finds: one
error for each repeated, reserved or unknown name and for each union with too few or too many variants, whatever else is
wrong and in whatever order layout comes to it. -/

namespace Flatwire

/-- The code of an error or a warning and where it stands. -/
abbrev Finding := Nat × Span

/-! ### The scan -/

/-- A finding for each element whose key an earlier one has, or one of those seen before. -/
def conflicts {α β : Type} [DecidableEq β] (code : Nat) (key : α → β) (place : α → Span) :
    List β → List α → List Finding
  | _, [] => []
  | seen, x :: xs => (if key x ∈ seen then [(code, place x)] else []) ++ conflicts code key place (seen ++ [key x]) xs

/-- The fields or variants whose name an earlier one has. -/
def FieldList.conflicts (code : Nat) (seen : List Bytes) (fs : FieldList) : List Finding :=
  Flatwire.conflicts code (fun f => f.name.text) (fun f => f.name.span) seen fs.toList

mutual

/-- A name that is neither built in nor known is an error. So is a union without variants or with more than 255, and a
variant whose name an earlier one has. -/
def TypeExpr.findings (known : Bytes → Bool) : TypeExpr → List Finding
  | .name ident => if isBuiltin ident.text || known ident.text then [] else [(3001, ident.span)]
  | .list _ _ _ elem _ _ => elem.findings known
  | .oneOf _ keyword _ _ _ variants _ =>
    (if variants.toList.length = 0 then [(3010, keyword.span)] else []) ++
      (if 255 < variants.toList.length then [(3006, keyword.span)] else []) ++
      variants.conflicts 3005 [] ++ variants.findings known

/-- What is found in the types of fields or variants. -/
def FieldList.findings (known : Bytes → Bool) : FieldList → List Finding
  | .nil => []
  | .cons (.mk _ _ _ _ _ type _ _) _ rest => type.findings known ++ rest.findings known

end

namespace Decl

/-- The name is that of a builtin type, or the keyword of unions. -/
def isReserved (d : Decl) : Bool := isBuiltin d.name.text || d.name.text = Compile.oneofKeyword

def findings (known : Bytes → Bool) : Decl → List Finding
  | enum d =>
    conflicts 3003 (fun i => i.name.text) (fun i => i.name.span) [] d.items ++
      conflicts 3002 (fun i => i.value.value) (fun i => i.value.lexeme.span) [] d.items
  | sequence d => d.fieldList.conflicts 3004 [] ++ d.fieldList.findings known

/-- An enum without items and a sequence without fields are warned of. -/
def cautions : Decl → List Finding
  | enum d => if d.items.isEmpty then [(4001, d.name.span)] else []
  | sequence d => if d.fields.isEmpty then [(4000, d.name.span)] else []

end Decl

def declares (ds : List Decl) (name : Bytes) : Bool := ds.any fun d => d.name.text = name

/-- The errors that a scan of the declarations finds. -/
def findings (ds : List Decl) : List Finding :=
  conflicts 3000 (fun d => d.name.text) (fun d => d.name.span) [] ds ++
    (ds.filter Decl.isReserved).map (fun d => (3009, d.name.span)) ++
    ds.flatMap (Decl.findings (declares ds))

/-- The warnings that a scan of the declarations finds. -/
def cautions (ds : List Decl) : List Finding := ds.flatMap Decl.cautions

theorem coe_conflicts_cons {α β : Type} [DecidableEq β] (code : Nat) (key : α → β) (place : α → Span) (seen : List β)
    (x : α) (xs : List α) [Decidable (key x ∈ seen)] :
    (conflicts code key place seen (x :: xs) : Multiset Finding) =
      (if key x ∈ seen then {(code, place x)} else 0) + conflicts code key place (seen ++ [key x]) xs := by
  rw [conflicts, ← Multiset.coe_add]
  by_cases h : key x ∈ seen <;> simp [h]

theorem FieldList.coe_conflicts_cons (code : Nat) (seen : List Bytes) (f : FieldExpr) (gap : Gap) (rest : FieldList) :
    ((FieldList.cons f gap rest).conflicts code seen : Multiset Finding) =
      (if f.name.text ∈ seen then {(code, f.name.span)} else 0) + rest.conflicts code (seen ++ [f.name.text]) :=
  Flatwire.coe_conflicts_cons code (fun f : FieldExpr => f.name.text) (fun f => f.name.span) seen f rest.toList

theorem FieldList.coe_findings_cons (known : Bytes → Bool) (f : FieldExpr) (gap : Gap) (rest : FieldList) :
    ((FieldList.cons f gap rest).findings known : Multiset Finding) = f.type.findings known + rest.findings known := by
  obtain ⟨⟩ := f
  rw [FieldList.findings, ← Multiset.coe_add]
  rfl

namespace Compile

/-! ### What is told -/

/-- The errors that a scan can find, by code and place. -/
def tell (es : List CompileError) : Multiset Finding :=
  ((es.filter fun e => e.code ≠ 3007 ∧ e.code ≠ 3008).map fun e => (e.code, e.span) : List Finding)

theorem tell_append (es fs : List CompileError) : tell (es ++ fs) = tell es + tell fs := by
  simp [tell]

theorem tell_errorIf {found : Bool} {cause : CompileError.Cause} {span : Span}
    (h : cause.code ≠ 3007 ∧ cause.code ≠ 3008) :
    tell (errorIf found cause span) = if found then {(cause.code, span)} else 0 := by
  cases found <;> simp [tell, errorIf, CompileError.code, h]

theorem tell_countErrors (path : List Bytes) (span : Span) (count : Nat) :
    tell (countErrors path span count) =
      ((if count = 0 then [(3010, span)] else []) ++ (if 255 < count then [(3006, span)] else []) : List Finding) := by
  unfold countErrors maxVariants
  split_ifs
  · omega
  all_goals simp [tell, CompileError.code, CompileError.Cause.code]

theorem tell_typeErrors (known : Bytes → Bool) :
    (∀ type path, tell (typeErrors known path type) = type.findings known) ∧
    ∀ variants path seen, tell (variantErrors known path seen variants) =
      (variants.conflicts 3005 seen : Multiset Finding) + variants.findings known := by
  apply TypeExpr.induction
  case name =>
    intro ident path
    rw [typeErrors, TypeExpr.findings, tell_errorIf (by simp [CompileError.Cause.code])]
    cases isBuiltin ident.text <;> cases known ident.text <;> rfl
  case list =>
    intro _ _ _ elem _ _ ih path
    rw [typeErrors, TypeExpr.findings, ih]
  case oneOf =>
    intro _ keyword _ _ _ variants _ ih path
    rw [typeErrors, TypeExpr.findings, tell_append, ih, tell_countErrors]
    simp only [← Multiset.coe_add, add_assoc]
  case nil => exact fun path seen => rfl
  case cons =>
    intro f gap rest ihType ihRest path seen
    obtain ⟨span, name, g₁, colon, g₂, type, g₃, semi⟩ := f
    have htype : tell (typeErrors known (path ++ [name.text]) type) = type.findings known := ihType _
    rw [variantErrors, tell_append, tell_append, htype, ihRest, tell_errorIf (by simp [CompileError.Cause.code]),
      FieldList.coe_findings_cons, FieldList.coe_conflicts_cons]
    simp only [decide_eq_true_eq]
    exact add_add_add_comm _ _ _ _

theorem tell_itemErrors (enum : Bytes) (seen items : List EnumItem) :
    tell (itemErrors enum seen items) =
      (conflicts 3003 (fun i => i.name.text) (fun i => i.name.span) (seen.map fun i => i.name.text) items :
        Multiset Finding) +
      conflicts 3002 (fun i => i.value.value) (fun i => i.value.lexeme.span) (seen.map fun i => i.value.value)
        items := by
  induction items generalizing seen with
  | nil => rfl
  | cons item items ih =>
    have hname : tell (errorIf (seen.any fun b => b.name.text = item.name.text) (.itemConflict item.name.text enum)
        item.name.span) = if item.name.text ∈ seen.map (fun i => i.name.text) then {(3003, item.name.span)} else 0 := by
      rw [tell_errorIf (by simp [CompileError.Cause.code])]
      simp [CompileError.Cause.code]
    rw [itemErrors, tell_append, tell_append, hname, ih, coe_conflicts_cons, coe_conflicts_cons, List.map_append,
      List.map_append]
    refine Eq.trans ?_ (add_add_add_comm _ _ _ _)
    congr 2
    cases hfind : seen.find? fun b => b.value.value = item.value.value with
    | none =>
      have hnew : item.value.value ∉ seen.map fun i => i.value.value := by
        simpa using hfind
      rw [if_neg hnew]
      rfl
    | some prev =>
      have htaken : item.value.value ∈ seen.map fun i => i.value.value := by
        have heq : prev.value.value = item.value.value := by simpa using List.find?_some hfind
        exact heq ▸ List.mem_map_of_mem (List.mem_of_find?_eq_some hfind)
      rw [if_pos htaken]
      rfl

/-! ### What is still owed -/

/-- Errors and warnings. -/
abbrev Ledger := Multiset Finding × Multiset Finding

/-- Errors without a warning. -/
def wrong (m : Multiset Finding) : Ledger := (m, 0)

theorem wrong_add (m n : Multiset Finding) : wrong (m + n) = wrong m + wrong n := rfl

def State.told (st : State) : Ledger := (tell st.errors, (st.warnings.map fun w => (w.code, w.span) : List Finding))

/-- What the scan finds inside a declaration. -/
def ledger (known : Bytes → Bool) (d : Decl) : Ledger := (d.findings known, d.cautions)

/-- What is not yet told of a declaration. -/
def DeclInfo.owed (known : Bytes → Bool) (info : DeclInfo) : Ledger :=
  match info.state with
  | .pending => ledger known info.decl
  | _ => 0

/-- What is told, and what will be of the declarations that are pending. -/
def State.account (known : Bytes → Bool) (st : State) : Ledger :=
  st.told + (st.infos.toList.map (DeclInfo.owed known)).sum

section Account

variable {ds : List Decl} {st st' st₁ : State} {i : Nat} {known : Bytes → Bool}

theorem account_amend (st : State) (b : Builder) (es : List CompileError) :
    (st.amend b es).account known = st.account known + wrong (tell es) := by
  have htold : (st.amend b es).told = st.told + wrong (tell es) :=
    Prod.ext (tell_append st.errors es) (add_zero _).symm
  rw [State.account, htold, State.account, amend_infos]
  abel

/-- A declaration that is no longer pending has told what it owed, and something else maybe. -/
theorem account_settle {info : DeclInfo} {s : LayoutState} {t : Ledger} (hi : st.infos[i]? = some info)
    (hs : s ≠ .pending) (htold : st'.told = st.told + t) (hinfos : st'.infos = (st.setState i s).infos) :
    st'.account known + info.owed known = st.account known + t := by
  have hzero : DeclInfo.owed known { info with state := s } = 0 := by
    cases s with
    | pending => exact absurd rfl hs
    | visiting | done => rfl
  rw [State.account, State.account, htold, add_right_comm, ← sum_settle hi hzero hinfos]
  abel

theorem fillAt_warnings (id : Option TypeId) (op : TypeId → Builder → Builder.Reply Unit) (st : State) :
    (fillAt id op st).2.warnings = st.warnings := by
  cases id with
  | none => rfl
  | some id =>
    simp only [fillAt, fill]
    split <;> rfl

theorem told_finish (i : Nat) (d : SequenceDecl) (id : Option TypeId) (part : Partial) (st : State) :
    (finish i d id part st).2.told = st.told + (0, ((Decl.sequence d).cautions : Multiset Finding)) := by
  have hwarnings : (finish i d id part st).2.warnings =
      st.warnings ++ if d.fields.isEmpty then [⟨.emptySequence d.name.text, d.name.span⟩] else [] :=
    fillAt_warnings id _ _
  have hlarge : tell (errorIf (maxStaticSize < part.offset) (.tooLarge d.name.text part.offset) d.name.span) = 0 := by
    by_cases h : maxStaticSize < part.offset <;> simp [tell, errorIf, h, CompileError.code, CompileError.Cause.code]
  rw [State.told, State.told, finish_errors, tell_append, hlarge, hwarnings, Decl.cautions]
  split_ifs <;> simp [CompileWarning.code, ← Multiset.coe_add]

theorem told_compileEnum (i : Nat) (info : DeclInfo) (d : EnumDecl) (st : State) :
    (compileEnum i info d st).2.told = st.told + ledger known (.enum d) := by
  have hwarnings : (compileEnum i info d st).2.warnings =
      st.warnings ++ if d.items.isEmpty then [⟨.emptyEnum d.name.text, d.name.span⟩] else [] :=
    fillAt_warnings info.id _ _
  rw [State.told, State.told, compileEnum_errors, tell_append, tell_itemErrors, hwarnings, ledger, Decl.cautions,
    Decl.findings]
  split_ifs <;> simp [CompileWarning.code, ← Multiset.coe_add]

theorem account_compileEnum {d : EnumDecl} {id : Option TypeId} (hi : st.infos[i]? = some ⟨.enum d, id, .pending⟩) :
    (compileEnum i ⟨.enum d, id, .pending⟩ d st).2.account known = st.account known :=
  add_right_cancel (account_settle hi (by simp) (told_compileEnum i _ d st) compileEnum_infos)

theorem account_sequence {d : SequenceDecl} {id : Option TypeId}
    (hi : st.infos[i]? = some ⟨.sequence d, id, .pending⟩) (hg : Grows (st.enter i) st₁)
    (h : st₁.account known = (st.enter i).account known + wrong ((Decl.sequence d).findings known)) (part : Partial) :
    (finish i d id part st₁).2.account known = st.account known := by
  have henter : (st.enter i).account known + ledger known (.sequence d) = st.account known + 0 :=
    account_settle hi (s := .visiting) (by simp) (add_zero _).symm rfl
  have hfinish : (finish i d id part st₁).2.account known + 0 =
      st₁.account known + (0, ((Decl.sequence d).cautions : Multiset Finding)) :=
    account_settle (hg.visiting hi) (by simp) (told_finish i d id part st₁) (finish_infos ..)
  have hledger : ledger known (.sequence d) =
      wrong ((Decl.sequence d).findings known) + (0, ((Decl.sequence d).cautions : Multiset Finding)) :=
    Prod.ext (add_zero _).symm (zero_add _).symm
  calc (finish i d id part st₁).2.account known
    _ = st₁.account known + (0, ((Decl.sequence d).cautions : Multiset Finding)) := by rw [← hfinish, add_zero]
    _ = (st.enter i).account known + ledger known (.sequence d) := by rw [h, hledger, add_assoc]
    _ = st.account known := by rw [henter, add_zero]

/-! ### Fields -/

/-- The names of the fields that layout knows. -/
def Partial.Has (part : Partial) (seen : List Bytes) : Prop := ∀ name, part.names.contains name = true ↔ name ∈ seen

theorem has_empty : Partial.empty.Has [] := by
  intro name
  simp [Partial.empty, NameSet.contains_empty]

theorem Partial.Has.add {part : Partial} {seen : List Bytes} (h : part.Has seen) (name : Bytes) (id : TypeId)
    (size : Nat) : (part.add name id size).Has (seen ++ [name]) := by
  intro other
  rw [Partial.add, NameSet.contains_insert, Bool.or_eq_true, h other, List.mem_append, List.mem_singleton,
    decide_eq_true_eq, or_comm]

theorem account_cons (q : Bytes) {part : Partial} {seen : List Bytes} {f : FieldExpr} {gap : Gap} {rest : FieldList}
    (hseen : part.Has seen) (hf : st₁.account known = (st.check q part f).account known + wrong (f.type.findings known))
    (hrest : st'.account known =
      st₁.account known + wrong (rest.conflicts 3004 (seen ++ [f.name.text]) + rest.findings known)) :
    st'.account known = st.account known +
      wrong ((FieldList.cons f gap rest).conflicts 3004 seen + (FieldList.cons f gap rest).findings known) := by
  have hcheck : (st.check q part f).account known =
      st.account known + wrong (if f.name.text ∈ seen then {(3004, f.name.span)} else 0) := by
    rw [State.check, account_amend, tell_errorIf (by simp [CompileError.Cause.code])]
    simp [CompileError.Cause.code, hseen f.name.text]
  rw [hrest, hf, hcheck, FieldList.coe_conflicts_cons, FieldList.coe_findings_cons]
  simp only [wrong_add]
  abel

theorem declared_eq_declares {infos : Array DeclInfo} (h : infos.toList.map DeclInfo.decl = ds) :
    declared infos = declares ds := by
  funext name
  rw [declared, findDecl_eq h, firstDecl, List.findIdx?_isSome, declares]

theorem findings_of_target {type : TypeExpr} (h : st.infos.toList.map DeclInfo.decl = ds)
    (htarget : target? st.infos type = some i) : type.findings (declares ds) = [] := by
  obtain ⟨ident, rfl, -, hfirst⟩ := (target?_eq_some_iff h).1 htarget
  rw [TypeExpr.findings, ← declared_eq_declares h, declared, findDecl_eq h, hfirst]
  simp

/-- Laying out fields tells what the scan finds in them. What the scan finds in a sequence that is laid out on the way
was owed before and is told now. -/
theorem Visits.account {q : Bytes} {part part' : Partial} {fs : FieldList} {seen : List Bytes}
    (h : Visits ds q part fs st part' st') (hseen : part.Has seen) : st'.account (declares ds) =
      st.account (declares ds) + wrong (fs.conflicts 3004 seen + fs.findings (declares ds)) := by
  induction h generalizing seen with
  | nil =>
    rw [FieldList.findings]
    exact (add_zero _).symm
  | @own q part f gap rest st found st₁ part' st' hst _ hres _ _ ih =>
    refine account_cons q hseen ?_ (ih (hseen.add _ _ _))
    obtain ⟨_, b, heq, -, -⟩ := resolve_spec (st.check q part f) [q, f.name.text] f.type hst.walk.ready
    cases hres.symm.trans heq
    rw [account_amend, (tell_typeErrors _).1, declared_eq_declares (hst.walk.check q part f).decls]
  | @known q part f gap rest st i info n part' st' hst htarget _ _ _ ih =>
    refine account_cons q hseen ?_ (ih (hseen.add _ _ _))
    rw [findings_of_target hst.walk.decls htarget]
    exact (add_zero _).symm
  | @cycle q part f gap rest st i info part' st' hst htarget _ _ _ ih =>
    refine account_cons q hseen ?_ (ih (hseen.add _ _ _))
    rw [findings_of_target hst.walk.decls htarget]
    exact account_amend _ _ _
  | @inner q part f gap rest st i d id innerPart st₁ part' st' hst htarget hinfo hinner _ ihInner ihRest =>
    have hpending : (st.check q part f).infos[i]? = some ⟨.sequence d, id, .pending⟩ := hinfo
    -- the inner sequence tells what it owed itself, and its name tells nothing
    refine account_cons q hseen ?_ (ihRest (hseen.add _ _ _))
    rw [findings_of_target hst.walk.decls htarget]
    exact (account_sequence hpending hinner.walk.2 (ihInner has_empty) innerPart).trans (add_zero _).symm

theorem LaysOut.account (h : LaysOut st st') (hw : Walk ds st) (hp : Placed st) :
    st'.account (declares ds) = st.account (declares ds) := by
  obtain ⟨i, d, id, part, st₁, hi, hvisits, rfl⟩ := h.visits hw hp
  exact account_sequence hi hvisits.walk.2 (hvisits.account has_empty) part

/-! ### All declarations -/

theorem tell_declErrors {infos : Array DeclInfo} (h : infos.toList.map DeclInfo.decl = ds) (d : Decl) :
    tell (declErrors infos d) = (if d.name.text ∈ ds.map (fun d => d.name.text) then {(3000, d.name.span)} else 0) +
      if d.isReserved then {(3009, d.name.span)} else 0 := by
  have hmem : d.name.text ∈ ds.map (fun d => d.name.text) ↔ (declInfo? infos d.name.text).isSome := by
    have hsome : (declInfo? infos d.name.text).isSome = declared infos d.name.text := by
      rw [declInfo?, declared]
      cases hfind : findDecl infos d.name.text with
      | none => rfl
      | some i =>
        obtain ⟨info, hinfo, -⟩ := findDecl_spec hfind
        rw [Option.bind_some, hinfo]
        rfl
    rw [hsome, declared_eq_declares h, declares]
    simp
  rw [declErrors, tell_append, tell_errorIf (by simp [CompileError.Cause.code]), add_comm]
  congr 1
  cases hprev : declInfo? infos d.name.text with
  | none => rw [if_neg (by simp [hmem, hprev])]; rfl
  | some prev => rw [if_pos (by simp [hmem, hprev])]; rfl

theorem account_addDecl (st : State) (d : Decl) (id : Option TypeId) :
    (st.addDecl d id).account known = st.account known + ledger known d := by
  have howed : DeclInfo.owed known ⟨d, id, .pending⟩ = ledger known d := rfl
  rw [State.account, State.account, State.addDecl, Array.toList_push, List.map_append, List.sum_append,
    List.map_singleton, List.sum_singleton, howed, ← add_assoc]
  rfl

theorem Registered.account_registerAll {before : List Decl} (h : Registered before st) (ds : List Decl)
    (known : Bytes → Bool) :
    (Compile.registerAll ds st).2.account known = st.account known +
      wrong (conflicts 3000 (fun d => d.name.text) (fun d => d.name.span) (before.map fun d => d.name.text) ds +
        ((ds.filter Decl.isReserved).map fun d => (3009, d.name.span) : List Finding)) +
      (ds.map (ledger known)).sum := by
  induction ds generalizing before st with
  | nil => exact ((add_zero _).trans (add_zero _)).symm
  | cons d ds ih =>
    obtain ⟨-, id, b, heq, -⟩ := h.toPlaced.register d
    have hrest := ih (h.registerAll [d])
    have hreserved : (((d :: ds).filter Decl.isReserved).map fun d => (3009, d.name.span) : List Finding) =
        (if d.isReserved then {(3009, d.name.span)} else 0) +
          (((ds.filter Decl.isReserved).map fun d => (3009, d.name.span) : List Finding) : Multiset Finding) := by
      cases hd : d.isReserved <;> simp [hd]
    have hfirst : (Compile.registerAll [d] st).2 = (st.amend b (declErrors st.infos d)).addDecl d id := heq
    change (Compile.registerAll ds (Compile.registerAll [d] st).2).2.account known = _
    rw [hrest, hfirst, account_addDecl, account_amend, tell_declErrors h.infos, coe_conflicts_cons, hreserved]
    simp only [wrong_add, List.map_append, List.map_cons, List.map_nil, List.sum_cons]
    abel

theorem Prepared.account_compileEnums {k : Nat} {rest : List Decl} (h : Prepared ds k st) (hrest : ds.drop k = rest)
    (known : Bytes → Bool) : (Compile.compileEnums k rest st).2.account known = st.account known :=
  (h.run (P := fun st' => st'.account known = st.account known) hrest rfl
    fun _ _ _ _ _ hk ih => (account_compileEnum hk).trans ih).2

theorem account_of_done (hw : Walk ds st) (hdone : ∀ k < ds.length, Done st k) : st.account known = st.told := by
  have hzero : ∀ info n, info.state = .done n → DeclInfo.owed known info = 0 := fun info n hn => by
    rw [DeclInfo.owed, hn]
  rw [State.account, hw.sum_eq_zero hdone hzero, add_zero]

theorem sum_ledger (known : Bytes → Bool) (ds : List Decl) :
    (ds.map (ledger known)).sum = (↑(ds.flatMap (Decl.findings known)), ↑(cautions ds)) := by
  induction ds with
  | nil => rfl
  | cons d ds ih =>
    rw [List.map_cons, List.sum_cons, ih]
    rfl

theorem told_compileDecls (ds : List Decl) (name : Bytes) :
    (compileDecls ds (start name)).2.told = (↑(findings ds), ↑(cautions ds)) := by
  obtain ⟨st', hrun, -, hsteps, hw, hdone⟩ := compileDecls_spec ds name
  have hprepared := prepared_spec name ds
  obtain ⟨-, -, -, hlaid⟩ := hprepared.walk.runPlaced
    (P := fun st => st.account (declares ds) = (prepared name ds).account (declares ds)) hprepared.toPlaced hsteps rfl
    fun _ _ hw hp hlays ih => (hlays.account hw hp).trans ih
  have henums : (prepared name ds).account (declares ds) = (registerAll ds (start name)).2.account (declares ds) :=
    ((registered_start name).registerAll ds).prepared.account_compileEnums rfl (declares ds)
  have hstart : (start name).account (declares ds) = 0 := rfl
  rw [hrun, ← account_of_done hw hdone, hlaid, henums, (registered_start name).account_registerAll, hstart, zero_add,
    sum_ledger, findings, ← Multiset.coe_add, ← Multiset.coe_add]
  exact Prod.ext rfl (zero_add _)

end Account

theorem compile_warnings (tree : SchemaTree) (name : Bytes) : (compile tree name).warnings =
    (compileDecls tree.decls (start name)).2.warnings.mergeSort fun a b => before a.span a.code b.span b.code := by
  unfold compile
  generalize compileDecls tree.decls (start name) = run
  obtain ⟨-, st⟩ := run
  dsimp only
  split_ifs
  · split <;> rfl
  · rfl

/-- Apart from cycles and sizes, the errors of a compilation are those that a scan of the tree finds, each as often. So
are its warnings. -/
theorem compile_findings (tree : SchemaTree) (name : Bytes) :
    (((compile tree name).errors.filter fun e => e.code ≠ 3007 ∧ e.code ≠ 3008).map fun e => (e.code, e.span)).Perm
      (findings tree.decls) ∧
    ((compile tree name).warnings.map fun w => (w.code, w.span)).Perm (cautions tree.decls) := by
  have htold := told_compileDecls tree.decls name
  rw [compile_errors, compile_warnings]
  constructor
  · refine (((List.mergeSort_perm _ _).filter _).map _).trans (Multiset.coe_eq_coe.1 ?_)
    exact congrArg Prod.fst htold
  · refine ((List.mergeSort_perm _ _).map _).trans (Multiset.coe_eq_coe.1 ?_)
    exact congrArg Prod.snd htold

end Compile

end Flatwire
