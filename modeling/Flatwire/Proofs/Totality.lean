import Flatwire.Proofs.Portability

/-! Compilation of any tree comes to an end. The builder is never given cause for a refusal, layout is asked only about
sequences that wait for it or are done, and a schema comes out exactly if nothing is reported. Such a schema refers to
types of its own arena only, and nothing in it was left as it was declared. -/

namespace Flatwire

theorem Schema.AreVariants.lt {s : Schema} {path : List Bytes} {tag : Nat} {variants : FieldList} {vs : List Variant}
    (h : s.AreVariants path tag variants vs) (hdecls : ∀ id ∈ s.decls, id < s.types.size) :
    ∀ v ∈ vs, v.type < s.types.size := by
  induction variants using FieldList.induction generalizing tag vs with
  | nil =>
    cases h
    simp
  | cons f gap rest ih =>
    cases h with
    | cons _ _ htype hrest => exact List.forall_mem_cons.2 ⟨htype.lt hdecls, ih hrest⟩

namespace Compile

variable {ds : List Decl} {st : State} {i n : Nat} {other : Nat → CompileM Nat}

/-! ### Layout is asked only what it can answer -/

/-- A step of layout that asks `other` about a declaration that is neither a sequence to be laid out nor done. -/
def layoutStepOr (other layoutOf : Nat → CompileM Nat) (i : Nat) : CompileM Nat := do
  match (← get).infos[i]? with
  | some ⟨.sequence _, _, .pending⟩ => layoutStep layoutOf i
  | some ⟨_, _, .done _⟩ => layoutStep layoutOf i
  | _ => other i

/-- Layout that asks `stop` below the depth and `other` about declarations that it should not be asked about. -/
def layoutOr (other stop : Nat → CompileM Nat) : Nat → Nat → CompileM Nat
  | 0 => stop
  | depth + 1 => layoutStepOr other (layoutOr other stop depth)

theorem layoutStepOr_pending {d : SequenceDecl} {id : Option TypeId} (f : Nat → CompileM Nat)
    (hi : st.infos[i]? = some ⟨.sequence d, id, .pending⟩) : layoutStepOr other f i st = layoutStep f i st := by
  simp only [layoutStepOr, get_bind, hi]

theorem layoutStepOr_done (f : Nat → CompileM Nat) (h : Done st i) : (layoutStepOr other f i st).2 = st := by
  obtain ⟨⟨decl, id, s⟩, n, hi, rfl⟩ := h
  have hstep : layoutStepOr other f i st = layoutStep f i st := by
    cases decl <;> simp only [layoutStepOr, get_bind, hi]
  rw [hstep]
  simp only [layoutStep, get_bind, hi]
  cases decl <;> rfl

theorem agree_layoutOr {stop stop' : Nat → CompileM Nat} {m m' : Nat} (hm : n ≤ m) (hm' : n ≤ m') :
    Agree ds n (layoutWithin stop m) (layoutOr other stop' m') := by
  induction n generalizing m m' with
  | zero =>
    intro st i d id hw hi hasked hn
    -- there is no pending sequence left to enter
    have hle := (hw.enter hi hasked).length_stack
    change (i :: st.stack).length ≤ ds.length at hle
    rw [List.length_cons] at hle
    omega
  | succ n ih =>
    obtain ⟨m, rfl⟩ := Nat.exists_eq_add_of_le' hm
    obtain ⟨m', rfl⟩ := Nat.exists_eq_add_of_le' hm'
    intro st i d id hw hi hasked hn
    obtain ⟨part, st₁, hlays, hf, hg⟩ :=
      (ih (Nat.le_add_left n m) (Nat.le_add_left n m')).step st i d id hw hi hasked hn
    exact ⟨part, st₁, hlays, hf, (layoutStepOr_pending _ hi).trans hg⟩

theorem compileDeclsWith_layoutOr (ds : List Decl) (name : Bytes) (other stop : Nat → CompileM Nat) {depth : Nat}
    (hdepth : ds.length ≤ depth) :
    compileDeclsWith (layoutOr other stop depth) ds (start name) = compileDecls ds (start name) := by
  have hprepared := prepared_spec name ds
  cases hds : ds with
  | nil => rfl
  | cons d rest =>
    rw [← hds]
    have hpos : 0 < ds.length := by
      rw [hds]
      exact Nat.succ_pos _
    obtain ⟨m, hm⟩ := Nat.exists_eq_add_one.2 hpos
    obtain ⟨m', hm'⟩ := Nat.exists_eq_add_one.2 (Nat.lt_of_lt_of_le hpos hdepth)
    have hdone : ∀ st i, Done st i →
        (layoutWithin (fun _ => return 0) ds.length i st).2 = st ∧ (layoutOr other stop depth i st).2 = st := by
      intro st i hi
      rw [hm, hm']
      exact ⟨layoutWithin_done hi, layoutStepOr_done _ hi⟩
    obtain ⟨st', hrun, hrun', -⟩ := layoutSequences_agree (agree_layoutOr (Nat.le_refl _) hdepth) hdone hprepared.walk
      hprepared.stack rfl fun k hk => absurd hk (Nat.not_lt_zero k)
    exact hrun'.trans hrun.symm

/-! ### The builder refuses nothing -/

theorem placed_compileDecls (ds : List Decl) (name : Bytes) : Placed (compileDecls ds (start name)).2 := by
  obtain ⟨st', hrun, -, hsteps, -, -⟩ := compileDecls_spec ds name
  have hprepared := prepared_spec name ds
  rw [hrun]
  exact (hprepared.walk.runPlaced (P := fun _ => True) hprepared.toPlaced hsteps trivial fun _ _ _ _ _ h => h).2.2.1

theorem not_unset_compileDecls (ds : List Decl) (name : Bytes) (id : TypeId) :
    ¬ (compileDecls ds (start name)).2.builder.Unset id := by
  intro hunset
  obtain ⟨i, info, hi, -, hopen⟩ := (placed_compileDecls ds name).unset id hunset
  obtain ⟨st', hrun, -, -, hw, hdone⟩ := compileDecls_spec ds name
  rw [hrun] at hi
  have hlt : i < ds.length := by
    rw [← hw.decls, List.length_map, Array.length_toList]
    exact (Array.getElem?_eq_some_iff.1 hi).1
  obtain ⟨info', n, hi', hn⟩ := hdone i hlt
  cases hi.symm.trans hi'
  exact hopen n hn

theorem compile_fault (tree : SchemaTree) (name : Bytes) : (compile tree name).fault = none := by
  have hfault := (placed_compileDecls tree.decls name).fault
  have hbuild := Builder.build_of_set (not_unset_compileDecls tree.decls name)
  unfold compile
  revert hfault hbuild
  generalize compileDecls tree.decls (start name) = run
  obtain ⟨-, st⟩ := run
  intro hfault hbuild
  dsimp only at hfault hbuild ⊢
  split_ifs
  · rw [hbuild]
    exact hfault
  · exact hfault

/-! ### What comes out -/

section Accepted

variable (h : Accepted ds st)

include h

theorem Accepted.exists_compiled (hclosed : st.builder.schema.Closed) {id : TypeId} {t : TypeDef}
    (ht : st.builder.schema.type? id = some t) (hname : t.declName? ≠ none) : ∃ d ∈ ds, Compiled st d t := by
  obtain ⟨i, hid⟩ := List.getElem?_of_mem ((hclosed id t ht).2 hname)
  obtain ⟨d, hd, -⟩ := h.exists_decl hid
  obtain ⟨p, t', -, hp, -, -, ht', hcompiled⟩ := h.type_of_decl hd
  cases hid.symm.trans hp
  cases ht.symm.trans ht'
  exact ⟨d, List.mem_of_getElem? hd, hcompiled⟩

theorem Accepted.compiled_refs {d : Decl} {t : TypeDef} (hcompiled : Compiled st d t) :
    ∀ ref ∈ t.refs, ref < st.builder.schema.types.size := by
  cases d with
  | enum e =>
    cases hcompiled
    simp [enumType, TypeDef.refs]
  | sequence d =>
    obtain ⟨gs, off, rfl, -, hlaid⟩ := hcompiled
    intro ref href
    obtain ⟨g, hg, rfl⟩ := List.mem_map.1 href
    obtain ⟨i, hi, rfl⟩ := List.getElem_of_mem hg
    have hfields := hlaid.areFields
    exact (hfields.get (hfields.length_eq.symm ▸ hi) hi).2.lt h.ready.consistent.declared

theorem Accepted.refs (hclosed : st.builder.schema.Closed) (id : TypeId) (t : TypeDef)
    (ht : st.builder.schema.type? id = some t) : ∀ ref ∈ t.refs, ref < st.builder.schema.types.size := by
  cases t with
  | primitive k => simp [TypeDef.refs]
  | string => simp [TypeDef.refs]
  | list e => simpa [TypeDef.refs] using (hclosed id _ ht).1 e rfl
  | enum e => simp [TypeDef.refs]
  | sequence q =>
    obtain ⟨d, -, hcompiled⟩ := h.exists_compiled hclosed ht (by simp [TypeDef.declName?])
    exact h.compiled_refs hcompiled
  | oneOf o =>
    obtain ⟨-, -, -, vs, -, -, -, hvs⟩ := h.unions id o ht
    intro ref href
    obtain ⟨v, hv, rfl⟩ := List.mem_map.1 href
    exact hvs.lt h.ready.consistent.declared v hv

end Accepted

/-- References lead to types of the arena, and every enum, sequence and union was filled in with what is written in the
source. -/
structure Complete (ds : List Decl) (st : State) : Prop where
  refs : ∀ id t, st.builder.schema.type? id = some t → ∀ ref ∈ t.refs, ref < st.builder.schema.types.size
  decls : ∀ id ∈ st.builder.schema.decls, id < st.builder.schema.types.size
  oneOfs : ∀ id ∈ st.builder.schema.oneOfs, id < st.builder.schema.types.size
  filled : ∀ id t, st.builder.schema.type? id = some t → Builder.needsFilling t = true → id ∈ st.builder.filled
  named : ∀ id t, st.builder.schema.type? id = some t → t.declName? ≠ none → ∃ d ∈ ds, Compiled st d t
  unions : ∀ id o, st.builder.schema.type? id = some (.oneOf o) → Written ds st.builder.schema o

theorem Accepted.complete (h : Accepted ds st) (hclosed : st.builder.schema.Closed)
    (hset : ∀ id, ¬ st.builder.Unset id) : Complete ds st where
  refs := h.refs hclosed
  decls := h.ready.consistent.declared
  oneOfs id hid := by
    obtain ⟨o, ho⟩ := (h.mem_oneOfs id).1 hid
    exact Schema.type?_lt ho
  filled id t ht hneeds := by
    by_contra hid
    exact hset id ⟨t, ht, hneeds, hid⟩
  named _ _ ht hname := h.exists_compiled hclosed ht hname
  unions := h.toLaid.unions

/-- Compilation of any tree ends without a refusal of the builder and without a question that layout cannot answer. A
schema comes out exactly if there are no errors, and then it is complete. -/
theorem compile_total (tree : SchemaTree) (name : Bytes) :
    (compile tree name).fault = none ∧
    (∀ other stop depth, tree.decls.length ≤ depth →
      compileDeclsWith (layoutOr other stop depth) tree.decls (start name) = compileDecls tree.decls (start name)) ∧
    ((compile tree name).schema.isSome = true ↔ (compile tree name).errors = []) ∧
    ∀ s, (compile tree name).schema = some s → s = (compileDecls tree.decls (start name)).2.builder.schema ∧
      Complete tree.decls (compileDecls tree.decls (start name)).2 := by
  refine ⟨compile_fault tree name, fun other stop depth => compileDeclsWith_layoutOr _ _ other stop, ⟨?_, ?_⟩, ?_⟩
  · intro hsome
    obtain ⟨s, hs⟩ := Option.isSome_iff_exists.1 hsome
    exact errors_of_schema hs
  · intro hnil
    rw [(compile_accepted hnil).2]
    rfl
  · intro s hs
    obtain ⟨haccepted, hschema⟩ := compile_accepted (errors_of_schema hs)
    refine ⟨Option.some.inj (hs.symm.trans hschema), ?_⟩
    exact haccepted.complete (closed_compileDecls tree.decls name) (not_unset_compileDecls tree.decls name)

/-- Sequences that refer to each other, an enum and a union: a schema comes out of it. In another tree a name is
declared twice, a type is missing and a sequence holds itself. -/
theorem compile_total_sample :
    (∃ tree s, SchemaTree.parse "sequence A{b:B;u:oneof{a:A;v:[E];};}enum E{x=300;}sequence B{as:[A];}sequence C{}" false =
        .ok tree ∧ (compile tree []).schema = some s ∧
      Complete tree.decls (compileDecls tree.decls (start [])).2 ∧
      compileDeclsWith (layoutOr (fun _ => return 7) (fun _ => return 9) 4) tree.decls (start []) =
        compileDecls tree.decls (start [])) ∧
    ∃ tree, SchemaTree.parse "sequence A{a:A;x:X;}enum A{}" true = .ok tree ∧ (compile tree []).errors.length = 3 ∧
      (compile tree []).fault = none ∧ ¬ (compile tree []).schema.isSome = true := by
  refine ⟨?_, ?_⟩
  · obtain ⟨tree, htree, hnil, hlength⟩ : ∃ tree, SchemaTree.parse
        "sequence A{b:B;u:oneof{a:A;v:[E];};}enum E{x=300;}sequence B{as:[A];}sequence C{}" false = .ok tree ∧
        (compile tree []).errors = [] ∧ tree.decls.length = 4 := SchemaTree.exists_parse (by decide +kernel)
    obtain ⟨-, hsame, hiff, hcomplete⟩ := compile_total tree []
    obtain ⟨s, hs⟩ := Option.isSome_iff_exists.1 (hiff.2 hnil)
    exact ⟨tree, s, htree, hs, (hcomplete s hs).2, hsame _ _ 4 (Nat.le_of_eq hlength)⟩
  · obtain ⟨tree, htree, hcount⟩ : ∃ tree, SchemaTree.parse "sequence A{a:A;x:X;}enum A{}" true = .ok tree ∧
        (compileDecls tree.decls (start [])).2.errors.length = 3 := SchemaTree.exists_parse (by decide +kernel)
    rw [← List.length_mergeSort, ← compile_errors] at hcount
    obtain ⟨hfault, -, hiff, -⟩ := compile_total tree []
    refine ⟨tree, htree, hcount, hfault, fun hsome => ?_⟩
    rw [hiff.1 hsome] at hcount
    cases hcount

end Compile

end Flatwire
