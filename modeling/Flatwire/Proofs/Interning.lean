import Flatwire.Proofs.Census

/-! What compilation puts into an arena only once. A type that no declaration and no union gives is looked for before it
is added, so it has one place, and a list comes behind its elements. A union is added where the source has it: in the
end the paths of the unions are those that the source writes, each as often. -/

namespace Flatwire

def TypeDef.path? : TypeDef → Option (List Bytes)
  | oneOf o => some o.path
  | _ => none

theorem TypeDef.path?_blank (t : TypeDef) : t.blank.path? = t.path? := by
  cases t <;> rfl

mutual

/-- The paths of the unions in a type, outer ones before those inside them. -/
def TypeExpr.unionPaths (path : List Bytes) : TypeExpr → List (List Bytes)
  | .name _ => []
  | .list _ _ _ elem _ _ => elem.unionPaths path
  | .oneOf _ _ _ _ _ variants _ => path :: variants.unionPaths path

/-- The paths of the unions in the types of fields or variants. -/
def FieldList.unionPaths (path : List Bytes) : FieldList → List (List Bytes)
  | .nil => []
  | .cons (.mk _ name _ _ _ type _ _) _ rest => type.unionPaths (path ++ [name.text]) ++ rest.unionPaths path

end

def Decl.unionPaths : Decl → List (List Bytes)
  | enum _ => []
  | sequence d => d.fieldList.unionPaths [d.name.text]

theorem FieldList.unionPaths_cons (path : List Bytes) (f : FieldExpr) (gap : Gap) (rest : FieldList) :
    (FieldList.cons f gap rest).unionPaths path =
      f.type.unionPaths (path ++ [f.name.text]) ++ rest.unionPaths path := by
  cases f
  rfl

namespace Schema

/-- Each type that is complete by itself has one place, and the elements of a list have theirs before it. -/
structure Interned (s : Schema) : Prop where
  once : ∀ i j t, Builder.needsFilling t = false → s.type? i = some t → s.type? j = some t → i = j
  below : ∀ i e, s.type? i = some (.list e) → e < i

/-- The paths of the unions, by place. -/
def unionPaths (s : Schema) : List (List Bytes) := s.types.toList.filterMap TypeDef.path?

end Schema

namespace Builder

variable {a b c : Builder} {t : TypeDef} {id : TypeId} {ps qs : List (List Bytes)}

/-- Unions with the given paths are added, and what has one place keeps it. -/
structure Enlists (a : Builder) (ps : List (List Bytes)) (b : Builder) : Prop where
  interned : a.schema.Interned → b.schema.Interned
  paths : b.schema.unionPaths = a.schema.unionPaths ++ ps

theorem Enlists.refl (b : Builder) : b.Enlists [] b := ⟨fun h => h, (List.append_nil _).symm⟩

theorem Enlists.trans (h : a.Enlists ps b) (h' : b.Enlists qs c) : a.Enlists (ps ++ qs) c :=
  ⟨fun hi => h'.interned (h.interned hi), by rw [h'.paths, h.paths, List.append_assoc]⟩

theorem enlists_push (htypes : b.schema.types = a.schema.types.push t)
    (hnew : needsFilling t = false → ∀ i, a.schema.type? i ≠ some t)
    (hlist : ∀ e, t = .list e → e < a.schema.types.size) : a.Enlists t.path?.toList b := by
  have htype : ∀ i u, b.schema.type? i = some u → i = a.schema.types.size ∧ u = t ∨ a.schema.type? i = some u := by
    intro i u hu
    rw [Schema.type?, htypes, Array.getElem?_push] at hu
    split_ifs at hu with hi
    · exact .inl ⟨hi, (Option.some.inj hu).symm⟩
    · exact .inr hu
  refine ⟨fun h => ⟨fun i j u hfill hi hj => ?_, fun i e hi => ?_⟩, ?_⟩
  · rcases htype i u hi with ⟨rfl, rfl⟩ | hi <;> rcases htype j u hj with ⟨rfl, heq⟩ | hj
    · rfl
    · exact absurd hj (hnew hfill j)
    · exact absurd (heq ▸ hi) (hnew (heq ▸ hfill) i)
    · exact h.once i j u hfill hi hj
  · rcases htype i _ hi with ⟨rfl, heq⟩ | hi
    · exact hlist e heq.symm
    · exact h.below i e hi
  · rw [Schema.unionPaths, htypes, Array.toList_push, List.filterMap_append, Schema.unionPaths]
    cases ht : t.path? <;> simp [ht]

theorem Interns.enlists (h : b.Interns t id c) (ht : needsFilling t = false)
    (hlist : ∀ e, t = .list e → e < b.schema.types.size) : b.Enlists [] c := by
  have hpath : t.path?.toList = [] := by
    cases t with
    | primitive | string | list => rfl
    | enum | sequence | oneOf => cases ht
  rcases kept_cases h.consistent ht h.run with ⟨rfl, -⟩ | ⟨rfl, -, hnew⟩
  · exact .refl _
  · exact hpath ▸ enlists_push (by rw [schema_entered]; rfl) (fun _ => hnew) hlist

theorem enlists_withUnion (b : Builder) (path : List Bytes) : b.Enlists [path] (b.withUnion path) :=
  enlists_push (t := .oneOf ⟨path, []⟩) rfl (fun h => by cases h) (by simp)

theorem enlists_withDecl (b : Builder) (d : Decl) : b.Enlists [] (b.withDecl d.blank) := by
  have hpath : d.blank.path?.toList = [] := by cases d <;> rfl
  refine hpath ▸ enlists_push rfl (fun h => ?_) fun e he => ?_
  · cases d <;> cases h
  · cases d <;> cases he

theorem enlists_fill {t₀ : TypeDef} (h₀ : b.schema.type? id = some t₀) (hpath : t.path? = t₀.path?)
    (hfill : needsFilling t = true) : b.Enlists [] (b.fill id t) := by
  have hold : ∀ i u, needsFilling u = false → (b.fill id t).schema.type? i = some u → b.schema.type? i = some u := by
    intro i u hu hi
    rw [type?_fill h₀] at hi
    split_ifs at hi
    · cases hi
      cases hu.symm.trans hfill
    · exact hi
  refine ⟨fun h => ⟨fun i j u hu hi hj => h.once i j u hu (hold i u hu hi) (hold j u hu hj),
    fun i e hi => h.below i e (hold i _ rfl hi)⟩, ?_⟩
  have hmap : (b.fill id t).schema.types.toList.map TypeDef.path? = b.schema.types.toList.map TypeDef.path? := by
    apply List.ext_getElem?
    intro i
    have hi := type?_fill h₀ t i
    rw [Schema.type?, ← Array.getElem?_toList] at hi
    rw [List.getElem?_map, List.getElem?_map, hi]
    split_ifs with heq
    · subst heq
      rw [Schema.type?, ← Array.getElem?_toList] at h₀
      rw [h₀, Option.map_some, Option.map_some, hpath]
    · rw [Schema.type?, Array.getElem?_toList]
  have hids : ∀ s : Schema, s.unionPaths = (s.types.toList.map TypeDef.path?).filterMap fun p => p := by
    intro s
    rw [List.filterMap_map]
    rfl
  rw [hids, hids, hmap, List.append_nil]

theorem Refills.enlists (h : b.Refills c) : b.Enlists [] c := by
  rcases h with rfl | ⟨place, t₀, t, rfl, h₀, hblank, hneeds⟩
  · exact .refl _
  · exact enlists_fill h₀ (by rw [← t.path?_blank, hblank, t₀.path?_blank]) hneeds

end Builder

namespace Compile

variable {ds : List Decl} {st st' st₁ : State} {i : Nat} {path : List Bytes} {ps : List (List Bytes)}

/-! ### Expressions -/

theorem stepwise_enlists (known : Bytes → Bool) : Stepwise known
    (fun b path type _ c => b.Enlists (type.unionPaths path) c) fun b path _ fs _ c => b.Enlists (fs.unionPaths path) c where
  builtin ht h := by cases ht <;> exact h.enlists rfl (by simp)
  named _ _ := .refl _
  unknown _ _ := .refl _
  unlisted h := h
  list h hlt hintern := by
    refine List.append_nil (TypeExpr.unionPaths _ _) ▸ h.trans (hintern.enlists rfl ?_)
    rintro _ ⟨⟩
    exact hlt
  oneOf h _ hset _ _ := by
    have hall := ((Builder.enlists_withUnion _ _).trans h).trans (Builder.refills_of_setOneOf hset).enlists
    rw [List.append_nil] at hall
    exact hall
  nil := .refl _
  cons h _ _ hrest := FieldList.unionPaths_cons .. ▸ h.trans hrest

/-! ### Declarations -/

/-- The unions that a declaration has still to add. -/
def DeclInfo.unions (info : DeclInfo) : Multiset (List Bytes) :=
  match info.state with
  | .pending => info.decl.unionPaths
  | _ => 0

/-- The paths of the unions that there are, and of those that pending declarations will add. -/
def State.roster (st : State) : Multiset (List Bytes) :=
  st.builder.schema.unionPaths + (st.infos.toList.map DeclInfo.unions).sum

/-- The roster grows by the given paths, and what has one place keeps it. -/
structure Recruits (st : State) (ps : Multiset (List Bytes)) (st' : State) : Prop where
  interned : st.builder.schema.Interned → st'.builder.schema.Interned
  roster : st'.roster = st.roster + ps

theorem Recruits.refl (st : State) : Recruits st 0 st := ⟨fun h => h, (add_zero _).symm⟩

theorem Recruits.trans {ps qs : Multiset (List Bytes)} (h : Recruits st ps st₁) (h' : Recruits st₁ qs st') :
    Recruits st (ps + qs) st' :=
  ⟨fun hi => h'.interned (h.interned hi), by rw [h'.roster, h.roster, add_assoc]⟩

theorem recruits_of_enlists (h : st.builder.Enlists ps st'.builder) (hinfos : st'.infos = st.infos) :
    Recruits st ps st' := by
  refine ⟨h.interned, ?_⟩
  rw [State.roster, State.roster, hinfos, h.paths, ← Multiset.coe_add, add_right_comm]

theorem recruits_settle {info : DeclInfo} {s : LayoutState} (hi : st.infos[i]? = some info) (hs : s ≠ .pending)
    (hb : st.builder.Enlists [] st'.builder) (hinfos : st'.infos = (st.setState i s).infos) :
    st'.roster + info.unions = st.roster := by
  have hzero : DeclInfo.unions { info with state := s } = 0 := by
    cases s with
    | pending => exact absurd rfl hs
    | visiting | done => rfl
  rw [State.roster, State.roster, hb.paths, List.append_nil, add_assoc, sum_settle hi hzero hinfos]

theorem recruits_sequence {d : SequenceDecl} {id : Option TypeId} (hi : st.infos[i]? = some ⟨.sequence d, id, .pending⟩)
    (h : Recruits (st.enter i) (d.fieldList.unionPaths [d.name.text]) st₁) (hg : Grows (st.enter i) st₁)
    (part : Partial) : Recruits st 0 (finish i d id part st₁).2 := by
  have henter : (st.enter i).roster + ((Decl.sequence d).unionPaths : Multiset (List Bytes)) = st.roster :=
    recruits_settle (s := .visiting) hi (by simp) (.refl _) rfl
  have hb := (refills_finish i d id part st₁).enlists
  have hfinish : (finish i d id part st₁).2.roster + 0 = st₁.roster :=
    recruits_settle (hg.visiting hi) (by simp) hb (finish_infos ..)
  refine ⟨fun hinterned => hb.interned (h.interned hinterned), ?_⟩
  calc (finish i d id part st₁).2.roster
    _ = (st.enter i).roster + ((Decl.sequence d).unionPaths : Multiset (List Bytes)) := by
      rw [← add_zero (finish i d id part st₁).2.roster, hfinish, h.roster]
      rfl
    _ = st.roster + 0 := by rw [henter, add_zero]

theorem recruits_named {q : Bytes} {f : FieldExpr} {gap : Gap} {rest : FieldList}
    (htarget : target? st.infos f.type = some i) (hfirst : Recruits st 0 st₁)
    (hrest : Recruits st₁ (rest.unionPaths [q]) st') :
    Recruits st ((FieldList.cons f gap rest).unionPaths [q]) st' := by
  have hnone : f.type.unionPaths ([q] ++ [f.name.text]) = [] := by
    cases htype : f.type with
    | name => rfl
    | list | oneOf =>
      rw [htype] at htarget
      cases htarget
  rw [FieldList.unionPaths_cons, hnone, List.nil_append]
  exact zero_add (rest.unionPaths [q] : Multiset (List Bytes)) ▸ hfirst.trans hrest

theorem recruits_check (st : State) (q : Bytes) (part : Partial) (f : FieldExpr) : Recruits st 0 (st.check q part f) :=
  recruits_of_enlists (.refl _) rfl

/-- Laying out fields adds their unions. What a sequence adds that is laid out on the way was expected of it. -/
theorem Visits.recruits {q : Bytes} {part part' : Partial} {fs : FieldList} (h : Visits ds q part fs st part' st') :
    Recruits st (fs.unionPaths [q]) st' := by
  induction h with
  | nil => exact .refl _
  | @own q part f gap rest st found st₁ part' st' hst _ hres _ _ ih =>
    have hp := hst.placed.check q part f
    obtain ⟨henlists, hinfos⟩ := (stepwise_enlists _).resolve hp.ready hp.indexed hres
    have hall := ((recruits_check st q part f).trans (recruits_of_enlists henlists hinfos)).trans ih
    rw [zero_add, Multiset.coe_add] at hall
    rw [FieldList.unionPaths_cons]
    exact hall
  | @known q part f gap rest st i info n part' st' _ htarget _ _ _ ih =>
    exact recruits_named htarget (recruits_check st q part f) ih
  | @cycle q part f gap rest st i info part' st' _ htarget _ _ _ ih =>
    have hcyclic : Recruits st 0 ((st.check q part f).cyclic f i) := recruits_of_enlists (.refl _) rfl
    exact recruits_named htarget hcyclic ih
  | @inner q part f gap rest st i d id innerPart st₁ part' st' _ htarget hinfo hinner _ ihInner ihRest =>
    have hpending : (st.check q part f).infos[i]? = some ⟨.sequence d, id, .pending⟩ := hinfo
    have hsequence := recruits_sequence hpending ihInner hinner.walk.2 innerPart
    have hfirst := (recruits_check st q part f).trans hsequence
    rw [add_zero] at hfirst
    exact recruits_named htarget hfirst ihRest

theorem LaysOut.recruits (h : LaysOut st st') (hw : Walk ds st) (hp : Placed st) : Recruits st 0 st' := by
  obtain ⟨i, d, id, part, st₁, hi, hvisits, rfl⟩ := h.visits hw hp
  exact recruits_sequence hi hvisits.recruits hvisits.walk.2 part

/-! ### All declarations -/

theorem Placed.recruits_register (h : Placed st) (d : Decl) : Recruits st d.unionPaths (Compile.register d st).2 := by
  have hadds : ∃ id b es, (Compile.register d st).2 = (st.amend b es).addDecl d id ∧ st.builder.Enlists [] b := by
    rcases h.register_cases d with ⟨-, heq⟩ | ⟨-, heq⟩
    · exact ⟨_, _, _, heq, Builder.enlists_withDecl _ d⟩
    · exact ⟨_, _, _, heq, .refl _⟩
  obtain ⟨id, b, es, heq, hb⟩ := hadds
  have hunions : DeclInfo.unions ⟨d, id, .pending⟩ = d.unionPaths := rfl
  rw [heq]
  refine ⟨hb.interned, ?_⟩
  rw [State.roster, State.roster, State.addDecl, Array.toList_push, List.map_append, List.sum_append,
    List.map_singleton, List.sum_singleton, hunions, ← add_assoc]
  simp only [amend_builder, amend_infos, hb.paths, List.append_nil]

theorem Placed.recruits_registerAll (h : Placed st) (ds : List Decl) :
    Recruits st (ds.flatMap Decl.unionPaths) (registerAll ds st).2 := by
  induction ds generalizing st with
  | nil => exact .refl st
  | cons d ds ih =>
    rw [List.flatMap_cons, ← Multiset.coe_add]
    exact (h.recruits_register d).trans (ih (h.register d).1)

theorem recruits_compileEnum {info : DeclInfo} {d : EnumDecl} (hi : st.infos[i]? = some info)
    (hd : info.decl = .enum d) : Recruits st 0 (compileEnum i info d st).2 := by
  have hb : st.builder.Enlists [] (compileEnum i info d st).2.builder := refills_compileEnum.enlists
  have hnone : info.unions = 0 := by
    unfold DeclInfo.unions
    rw [hd]
    split <;> rfl
  have hroster := recruits_settle hi (by simp) hb compileEnum_infos
  rw [hnone] at hroster
  exact ⟨hb.interned, hroster.symm ▸ (by rw [add_zero, add_zero])⟩

theorem Prepared.recruits_compileEnums {k : Nat} {rest : List Decl} (h : Prepared ds k st) (hrest : ds.drop k = rest) :
    Recruits st 0 (Compile.compileEnums k rest st).2 :=
  (h.run hrest (.refl st) fun _ _ _ _ _ hk ih => ih.trans (recruits_compileEnum hk rfl)).2

theorem roster_of_done (hw : Walk ds st) (hdone : ∀ k < ds.length, Done st k) :
    st.roster = st.builder.schema.unionPaths := by
  have hzero : ∀ info n, info.state = .done n → DeclInfo.unions info = 0 := fun info n hn => by
    rw [DeclInfo.unions, hn]
  rw [State.roster, hw.sum_eq_zero hdone hzero, add_zero]

theorem interned_compileDecls (ds : List Decl) (name : Bytes) :
    (compileDecls ds (start name)).2.builder.schema.Interned ∧
      (compileDecls ds (start name)).2.builder.schema.unionPaths.Perm (ds.flatMap Decl.unionPaths) := by
  obtain ⟨st', hrun, -, hsteps, hw, hdone⟩ := compileDecls_spec ds name
  have hprepared := prepared_spec name ds
  have hstart : Recruits (start name) (ds.flatMap Decl.unionPaths) (prepared name ds) := by
    have hall := ((placed_start name).recruits_registerAll ds).trans
      (((registered_start name).registerAll ds).prepared.recruits_compileEnums rfl)
    rw [add_zero] at hall
    exact hall
  obtain ⟨-, -, -, hinterned, hroster⟩ := hprepared.walk.runPlaced hprepared.toPlaced hsteps hstart
    fun st st' hw hp hlays ih => add_zero (ds.flatMap Decl.unionPaths : Multiset (List Bytes)) ▸
      ih.trans (hlays.recruits hw hp)
  rw [hrun]
  refine ⟨hinterned ⟨fun i j t _ hi => ?_, fun i e hi => ?_⟩, Multiset.coe_eq_coe.1 ?_⟩
  · cases hi
  · cases hi
  · rw [← roster_of_done hw hdone, hroster]
    exact zero_add _

end Compile

end Flatwire
