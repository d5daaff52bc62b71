import Mathlib.Data.List.Chain
import Mathlib.Data.List.Nodup
import Mathlib.Logic.Relation
import Flatwire.Proofs.Grammar
import Flatwire.Proofs.Placing

/-! Sequences that hold themselves in place. Layout reports a cycle exactly if there is one: a field that leads back to a
sequence in progress closes a cycle with the sequences on the stack, and without such a field every sequence is done
only after all that it holds are. -/

namespace Flatwire

namespace Compile

variable {ds : List Decl} {st st' st₁ : State} {i j : Nat} {part : Partial} {d : SequenceDecl} {id : Option TypeId}

/-! ### The whole of layout -/

theorem layoutWithin_done {stop : Nat → CompileM Nat} {depth : Nat} (h : Done st i) :
    (layoutWithin stop (depth + 1) i st).2 = st := by
  obtain ⟨⟨decl, id, s⟩, n, hi, rfl⟩ := h
  simp only [layoutWithin, layoutStep, get_bind, hi]
  cases decl <;> rfl

/-- Compilation ends in one state, whatever layout does below a depth of as many sequences as there are declarations. In
that state everything is done. -/
theorem compileDecls_spec (ds : List Decl) (name : Bytes) : ∃ st', compileDecls ds (start name) = ((), st') ∧
    (∀ stop depth, ds.length ≤ depth → compileDeclsWith (layoutWithin stop depth) ds (start name) = ((), st')) ∧
    Relation.ReflTransGen LaysOut (prepared name ds) st' ∧ Walk ds st' ∧ ∀ k < ds.length, Done st' k := by
  have hprepared := prepared_spec name ds
  -- two runs that are deep enough end alike
  have hruns : ∀ stop depth, ds.length ≤ depth → ∃ st', compileDecls ds (start name) = ((), st') ∧
      compileDeclsWith (layoutWithin stop depth) ds (start name) = ((), st') ∧
      Relation.ReflTransGen LaysOut (prepared name ds) st' ∧ Walk ds st' ∧ ∀ k < ds.length, Done st' k := by
    intro stop depth hdepth
    cases hds : ds with
    | nil =>
      refine ⟨prepared name [], rfl, rfl, .refl, ?_, fun k hk => absurd hk (Nat.not_lt_zero k)⟩
      exact (prepared_spec name []).walk
    | cons d rest =>
      rw [← hds]
      have hpos : 0 < ds.length := by rw [hds]; exact Nat.succ_pos _
      obtain ⟨m, hm⟩ := Nat.exists_eq_add_one.2 hpos
      obtain ⟨m', hm'⟩ := Nat.exists_eq_add_one.2 (Nat.lt_of_lt_of_le hpos hdepth)
      refine layoutSequences_agree (agree_layoutWithin (Nat.le_refl _) hdepth) (fun st i hi => ?_) hprepared.walk
        hprepared.stack rfl (fun k hk => absurd hk (Nat.not_lt_zero k))
      rw [hm, hm']
      exact ⟨layoutWithin_done hi, layoutWithin_done hi⟩
  obtain ⟨st', hrun, -, hrest⟩ := hruns (fun _ => return 0) ds.length (Nat.le_refl _)
  refine ⟨st', hrun, fun stop depth hdepth => ?_, hrest⟩
  obtain ⟨st'', hrun', heq, -⟩ := hruns stop depth hdepth
  rw [heq, ← hrun', hrun]

theorem compile_errors (tree : SchemaTree) (name : Bytes) : (compile tree name).errors =
    (compileDecls tree.decls (start name)).2.errors.mergeSort fun a b => before a.span a.code b.span b.code := by
  unfold compile
  generalize compileDecls tree.decls (start name) = run
  obtain ⟨-, st⟩ := run
  dsimp only
  split_ifs with hempty
  · rw [List.isEmpty_iff.1 hempty]
    split <;> rfl
  · rfl

theorem mem_compile_errors {tree : SchemaTree} {name : Bytes} {e : CompileError} :
    e ∈ (compile tree name).errors ↔ e ∈ (compileDecls tree.decls (start name)).2.errors := by
  rw [compile_errors, List.mem_mergeSort]

/-! ### Reported cycles -/

/-- The name of a declaration. -/
def declName (ds : List Decl) (i : Nat) : Bytes := (ds[i]?.map fun d => d.name.text).getD []

/-- The sequences hold each other in place, one the next and the last one the first, and none comes up twice. -/
def IsCycle (ds : List Decl) (i : Nat) (path : List Nat) : Prop :=
  (i :: path).Nodup ∧ (i :: path ++ [i]).IsChain (Embeds ds)

/-- A field of the first declaration has as its type the given name of the second. -/
def Refers (ds : List Decl) (ident : Lexeme) (i j : Nat) : Prop :=
  ∃ d f, ds[i]? = some (.sequence d) ∧ f ∈ d.fields ∧ f.type = .name ident ∧ Names ds (.name ident) j

/-- The error names the sequences along a cycle and stands at the field that closes it. -/
def TellsCycle (ds : List Decl) (e : CompileError) : Prop :=
  ∃ i path last ident, IsCycle ds i path ∧ (i :: path).getLast? = some last ∧ Refers ds ident last i ∧
    e.message = "Sequence '" ++ declName ds i ++ "' embeds itself: " ++
      Bytes.join " -> " ((i :: path ++ [i]).map (declName ds)) ∧
    e.span = ident.span

/-- All cycles among the errors are real. -/
def Sound (ds : List Decl) (es : List CompileError) : Prop := ∀ e ∈ es, e.code = 3007 → TellsCycle ds e

theorem Quiet.sound {es : List CompileError} (h : Quiet es) : Sound ds es := fun e he hcode => absurd hcode (h e he)

theorem sound_append {es fs : List CompileError} : Sound ds (es ++ fs) ↔ Sound ds es ∧ Sound ds fs :=
  List.forall_mem_append

theorem Walk.cyclePath_eq (hw : Walk ds st) {before after : List Nat} (hstack : st.stack = before ++ i :: after)
    (hi : i ∉ before) : cyclePath st.infos st.stack i = (i :: before.reverse ++ [i]).map (declName ds) := by
  have hname : (fun k => ((st.infos[k]?).map fun info => info.decl.name.text).getD []) = declName ds := by
    funext k
    rw [declName, hw.getElem?, Option.map_map]
    rfl
  have hne : ∀ k ∈ before, decide (k ≠ i) = true := by
    intro k hk
    exact decide_eq_true (ne_of_mem_of_not_mem hk hi)
  have hbefore : (before ++ i :: after).takeWhile (· ≠ i) = before := by
    rw [List.takeWhile_append_of_pos hne, List.takeWhile_cons_of_neg (by simp), List.append_nil]
  rw [cyclePath, hname, hstack, hbefore]
  simp

theorem Walk.exists_cycle {last : Nat} (hw : Walk ds st) (hi : i ∈ st.stack) (hlast : st.stack.head? = some last)
    (hcloses : Embeds ds last i) : ∃ path, IsCycle ds i path ∧ (i :: path).getLast? = some last ∧
      cyclePath st.infos st.stack i = (i :: path ++ [i]).map (declName ds) := by
  obtain ⟨before, after, hstack, hnew⟩ := List.eq_append_cons_of_mem hi
  have hreverse : i :: before.reverse = (before ++ [i]).reverse := by rw [List.reverse_append]; rfl
  have hsplit : st.stack = before ++ [i] ++ after := by rw [hstack, List.append_cons]
  have hgetLast : (i :: before.reverse).getLast? = some last := by
    rw [hreverse, List.getLast?_reverse, ← hlast, hstack]
    cases before <;> rfl
  have hchain : (i :: before.reverse).IsChain (Embeds ds) := by
    rw [hreverse, List.isChain_reverse]
    exact (hsplit ▸ hw.nested).left_of_append
  refine ⟨before.reverse, ⟨?_, ?_⟩, hgetLast, hw.cyclePath_eq hstack hnew⟩
  · rw [hreverse, List.nodup_reverse]
    exact (hsplit ▸ hw.nodup).of_append_left
  · refine hchain.append (.singleton i) fun k hk j hj => ?_
    cases hgetLast.symm.trans hk
    cases hj
    exact hcloses

theorem sound_check (h : Sound ds st.errors) (q : Bytes) (part : Partial) (f : FieldExpr) :
    Sound ds (st.check q part f).errors :=
  sound_append.2 ⟨h, (quiet_errorIf (by simp [CompileError.Cause.code])).sound⟩

theorem sound_finish (h : Sound ds st.errors) : Sound ds (finish i d id part st).2.errors := by
  rw [finish_errors, sound_append]
  exact ⟨h, (quiet_errorIf (by simp [CompileError.Cause.code])).sound⟩

theorem Walk.sound_cycle {q : Bytes} {f : FieldExpr} {gap : Gap} {rest : FieldList} {info : DeclInfo} (hw : Walk ds st)
    (ho : Owner ds st q (.cons f gap rest)) (htarget : target? st.infos f.type = some i) (hi : st.infos[i]? = some info)
    (hs : info.state = .visiting) : Sound ds [⟨.cyclicLayout (cyclePath st.infos st.stack i), f.type.span⟩] := by
  intro e he _
  obtain rfl := List.mem_singleton.1 he
  have hmem := (hw.visiting i).2 ⟨info, hi, hs⟩
  obtain ⟨d, id, hinfo⟩ := hw.sequence_of_open hi (by simp [hs])
  have hcloses := ho.embeds hw htarget (hi.trans (congrArg some hinfo))
  obtain ⟨last, d, hlast, hd, -, hfs⟩ := ho
  obtain ⟨path, hcycle, hgetLast, hpath⟩ := hw.exists_cycle hmem hlast (hcloses last hlast)
  obtain ⟨ident, htype, hname⟩ := (target?_eq_some_iff hw.decls).1 htarget
  refine ⟨i, path, last, ident, hcycle, hgetLast, ?_, ?_, ?_⟩
  · exact ⟨d, f, hd, hfs f List.mem_cons_self, htype, ident, rfl, hname⟩
  · rw [hpath]
    rfl
  · rw [htype]
    rfl

theorem Visits.sound {q : Bytes} {part' : Partial} {fs : FieldList} (h : Visits ds q part fs st part' st')
    (hs : Sound ds st.errors) : Sound ds st'.errors := by
  induction h with
  | nil => exact hs
  | @own q part f gap rest st found st₁ part' st' hst htarget hres _ _ ih =>
    obtain ⟨_, b, heq, -, -⟩ := resolve_spec (st.check q part f) [q, f.name.text] f.type hst.walk.ready
    cases hres.symm.trans heq
    exact ih (sound_append.2 ⟨sound_check hs q part f, ((quiet_typeErrors _).1 _ _).sound⟩)
  | @known q part f gap rest st i info n part' st' _ _ _ _ _ ih => exact ih (sound_check hs q part f)
  | @cycle q part f gap rest st i info part' st' hst htarget hinfo hvisiting _ ih =>
    exact ih (sound_append.2 ⟨sound_check hs q part f, hst.walk.sound_cycle hst.owner htarget hinfo hvisiting⟩)
  | @inner q part f gap rest st i d id innerPart st₁ part' st' _ _ _ _ _ ihInner ihRest =>
    exact ihRest (sound_finish (ihInner (sound_check hs q part f)))

/-! ### Sequences without cycles -/

/-- From the sequence on, the sequences that hold each other come to an end. -/
def Grounded (ds : List Decl) (i : Nat) : Prop := Acc (Function.swap (Embeds ds)) i

theorem Grounded.not_transGen (h : Grounded ds i) : ¬ Relation.TransGen (Embeds ds) i i := by
  have hacc := h.transGen
  clear h
  induction hacc with
  | intro k _ ih => exact fun hcycle => ih k (Relation.transGen_swap.2 hcycle) hcycle

theorem Quiet.of_prefix {es fs : List CompileError} (h : Quiet fs) (hp : es <+: fs) : Quiet es :=
  fun e he => h e (hp.subset he)

theorem done_enter (h : Done (st.enter i) j) : Done st j := by
  obtain ⟨info, n, hj, hn⟩ := h
  obtain ⟨s', hj', hnew, hkeep⟩ := of_setState (s := .visiting) hj
  by_cases hij : i = j
  · cases (hnew hij).symm.trans hn
  · exact ⟨_, n, hj', (hkeep hij).trans hn⟩

theorem done_finish (h : Done (finish i d id part st).2 j) : i = j ∨ Done st j := by
  obtain ⟨info, n, hj, hn⟩ := h
  rw [finish_infos, getElem?_setState] at hj
  split_ifs at hj with hij
  · exact .inl hij
  · exact .inr ⟨info, n, hj, hn⟩

theorem Walk.grounded_finish (hw : Walk ds st) (hi : st.infos[i]? = some ⟨.sequence d, id, .pending⟩)
    (hdone : ∀ k, Done st₁ k → Grounded ds k) (hnamed : ∀ f ∈ d.fields, ∀ j, Names ds f.type j → Done st₁ j) :
    ∀ k, Done (Compile.finish i d id part st₁).2 k → Grounded ds k := by
  intro k hk
  rcases done_finish hk with rfl | hk
  · refine Acc.intro i fun j hj => ?_
    obtain ⟨d', e, f, hd', -, hf, hnames⟩ := hj
    rw [hw.getElem?, hi] at hd'
    cases hd'
    exact hdone j (hnamed f hf j hnames)
  · exact hdone k hk

theorem Visits.grounded {q : Bytes} {part' : Partial} {fs : FieldList} (h : Visits ds q part fs st part' st')
    (hquiet : Quiet st'.errors) (hdone : ∀ k, Done st k → Grounded ds k) :
    (∀ k, Done st' k → Grounded ds k) ∧ ∀ f ∈ fs.toList, ∀ j, Names ds f.type j → Done st' j := by
  induction h with
  | nil => exact ⟨hdone, fun f hf => absurd hf List.not_mem_nil⟩
  | @own q part f gap rest st found st₁ part' st' hst htarget hres _ _ ih =>
    obtain ⟨_, b, heq, -, -⟩ := resolve_spec (st.check q part f) [q, f.name.text] f.type hst.walk.ready
    cases hres.symm.trans heq
    obtain ⟨hdone', hrest⟩ := ih hquiet hdone
    refine ⟨hdone', List.forall_mem_cons.2 ⟨fun j hj => ?_, hrest⟩⟩
    cases htarget.symm.trans ((target?_eq_some_iff hst.walk.decls).2 hj)
  | @known q part f gap rest st i info n part' st' hst htarget hinfo hstate hvisits ih =>
    obtain ⟨hdone', hrest⟩ := ih hquiet hdone
    refine ⟨hdone', List.forall_mem_cons.2 ⟨fun j hj => ?_, hrest⟩⟩
    cases htarget.symm.trans ((target?_eq_some_iff hst.walk.decls).2 hj)
    have hi : Done (st.check q part f) i := ⟨info, n, hinfo, hstate⟩
    exact hi.grow hvisits.walk.2
  | @cycle q part f gap rest st i info part' st' _ htarget hinfo _ hvisits ih =>
    -- the report of the cycle is still among the errors at the end
    have hreported := hquiet.of_prefix hvisits.walk.2.errors
    exact absurd rfl ((quiet_append.1 hreported).2 _ List.mem_cons_self)
  | @inner q part f gap rest st i d id innerPart st₁ part' st' hst htarget hinfo hinner hvisits ihInner ihRest =>
    obtain ⟨hw₁, hg₁⟩ := hinner.walk
    have hi := (hw₁.finish hg₁ hinfo innerPart).2.2
    have hgrows := hvisits.walk.2
    have hquiet₂ := hquiet.of_prefix hgrows.errors
    rw [finish_errors] at hquiet₂
    obtain ⟨hdone₁, hnamed⟩ := ihInner (quiet_append.1 hquiet₂).1 fun k hk => hdone k (done_enter hk)
    obtain ⟨hdone', hrest⟩ := ihRest hquiet (hst.walk.grounded_finish hinfo hdone₁ hnamed)
    refine ⟨hdone', List.forall_mem_cons.2 ⟨fun j hj => ?_, hrest⟩⟩
    cases htarget.symm.trans ((target?_eq_some_iff hst.walk.decls).2 hj)
    exact hi.grow hgrows

theorem LaysOut.sound (h : LaysOut st st') (hw : Walk ds st) (hp : Placed st) (hs : Sound ds st.errors) :
    Sound ds st'.errors := by
  obtain ⟨i, d, id, part, st₁, -, hvisits, rfl⟩ := h.visits hw hp
  exact sound_finish (hvisits.sound hs)

theorem LaysOut.grounded (h : LaysOut st st') (hw : Walk ds st) (hp : Placed st) (hquiet : Quiet st'.errors)
    (hdone : ∀ k, Done st k → Grounded ds k) : ∀ k, Done st' k → Grounded ds k := by
  obtain ⟨i, d, id, part, st₁, hi, hvisits, rfl⟩ := h.visits hw hp
  rw [finish_errors] at hquiet
  obtain ⟨hdone₁, hnamed⟩ := hvisits.grounded (quiet_append.1 hquiet).1 fun k hk => hdone k (done_enter hk)
  exact hw.grounded_finish hi hdone₁ hnamed

theorem Prepared.grounded {k : Nat} (h : Prepared ds k st) (hi : Done st i) : Grounded ds i := by
  obtain ⟨⟨decl, id, s⟩, n, hi, rfl⟩ := hi
  cases decl with
  | sequence d => cases h.sequences i d id _ hi
  | enum e =>
    refine Acc.intro i fun j hj => ?_
    obtain ⟨d, -, -, hd, -⟩ := hj
    rw [getElem?_decls h.infos, hi] at hd
    cases hd

theorem grounded_of_quiet {name : Bytes} (hsteps : Relation.ReflTransGen LaysOut (prepared name ds) st)
    (hdone : ∀ k < ds.length, Done st k) (hquiet : Quiet st.errors) (i : Nat) : Grounded ds i := by
  have hprepared := prepared_spec name ds
  have hrun : Quiet st.errors → ∀ k, Done st k → Grounded ds k := by
    refine (hprepared.walk.runPlaced (P := fun st => Quiet st.errors → ∀ k, Done st k → Grounded ds k)
      hprepared.toPlaced hsteps (fun _ k hk => hprepared.grounded hk) fun st st' hw hp hlays ih hquiet => ?_).2.2.2
    exact hlays.grounded hw hp hquiet (ih (hquiet.of_prefix (hlays.walk hw).2.errors))
  rcases Nat.lt_or_ge i ds.length with hlt | hge
  · exact hrun hquiet i (hdone i hlt)
  · refine Acc.intro i fun j hj => ?_
    obtain ⟨d, -, -, hd, -⟩ := hj
    exact absurd (List.getElem?_eq_some_iff.1 hd).1 (Nat.not_lt.2 hge)

theorem IsCycle.transGen {path : List Nat} (h : IsCycle ds i path) : Relation.TransGen (Embeds ds) i i := by
  have hpairwise := (h.2.imp fun _ _ => Relation.TransGen.single).pairwise
  exact (List.pairwise_cons.1 hpairwise).1 i (List.mem_append_right path List.mem_cons_self)

/-- Compilation reports a cycle if and only if sequences hold each other in a cycle. Every reported cycle is one, told by
its names and the type name that closes it. Layout comes to its end: what is done below a depth of as many sequences as
there are declarations does not matter. -/
theorem compile_cyclic_iff (tree : SchemaTree) (name : Bytes) :
    ((∃ e ∈ (compile tree name).errors, e.code = 3007) ↔ ∃ i, Relation.TransGen (Embeds tree.decls) i i) ∧
    (∀ e ∈ (compile tree name).errors, e.code = 3007 → TellsCycle tree.decls e) ∧
    ∀ stop depth, tree.decls.length ≤ depth →
      compileDeclsWith (layoutWithin stop depth) tree.decls (start name) = compileDecls tree.decls (start name) := by
  obtain ⟨st', hrun, hdeep, hsteps, hw, hdone⟩ := compileDecls_spec tree.decls name
  have hprepared := prepared_spec name tree.decls
  have hmem : ∀ e, e ∈ (compile tree name).errors ↔ e ∈ st'.errors := by
    intro e
    rw [mem_compile_errors, hrun]
  have hsound : Sound tree.decls st'.errors :=
    (hprepared.walk.runPlaced hprepared.toPlaced hsteps hprepared.quiet.sound
      fun st st' hw hp hlays => hlays.sound hw hp).2.2.2
  refine ⟨⟨?_, ?_⟩, fun e he => hsound e ((hmem e).1 he), fun stop depth hdepth => ?_⟩
  · rintro ⟨e, he, hcode⟩
    obtain ⟨i, path, -, -, hcycle, -⟩ := hsound e ((hmem e).1 he) hcode
    exact ⟨i, hcycle.transGen⟩
  · rintro ⟨i, hcycle⟩
    by_contra hnone
    push Not at hnone
    have hquiet : Quiet st'.errors := fun e he => hnone e ((hmem e).2 he)
    exact (grounded_of_quiet hsteps hdone hquiet i).not_transGen hcycle
  · rw [hdeep stop depth hdepth, hrun]

theorem compile_cyclic_iff_sample :
    ∃ tree, SchemaTree.parse "sequence A{as:[A];b:B;}sequence B{x:u8;a:A;}" false = .ok tree ∧
      (∃ e ∈ (compile tree []).errors, e.code = 3007 ∧ TellsCycle tree.decls e) ∧
      compileDeclsWith (layoutWithin (fun _ => return 9) 2) tree.decls (start []) = compileDecls tree.decls (start []) := by
  obtain ⟨tree, htree, hab, hba, hlength⟩ :
      ∃ tree, SchemaTree.parse "sequence A{as:[A];b:B;}sequence B{x:u8;a:A;}" false = .ok tree ∧
        Embeds tree.decls 0 1 ∧ Embeds tree.decls 1 0 ∧ tree.decls.length = 2 :=
    SchemaTree.exists_parse (by decide +kernel)
  obtain ⟨hiff, htells, hdeep⟩ := compile_cyclic_iff tree []
  obtain ⟨e, he, hcode⟩ := hiff.2 ⟨0, .head hab (.single hba)⟩
  exact ⟨tree, htree, ⟨e, he, hcode, htells e he hcode⟩, hdeep _ 2 (Nat.le_of_eq hlength)⟩

end Compile

end Flatwire
