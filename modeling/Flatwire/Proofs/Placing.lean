import Mathlib.Data.List.Basic
import Flatwire.Proofs.Traversal

/-! Declarations and their places. The first declaration of a name has a place, at which a type of its kind and name
stands from the beginning; it is filled in when the declaration is compiled, and then stays as it is. -/

namespace Flatwire

namespace Decl

/-- The type that stands at a declaration's place before it is filled in. -/
def blank : Decl → TypeDef
  | enum d => .enum ⟨d.name.text, 0, []⟩
  | sequence d => .sequence ⟨d.name.text, 0, []⟩

/-- The type has the kind and the name of the declaration. -/
def Heads (d : Decl) (t : TypeDef) : Prop := t.blank = d.blank

variable {d : Decl} {t : TypeDef}

theorem heads_blank (d : Decl) : d.Heads d.blank := by
  cases d <;> rfl

theorem Heads.declName? (h : d.Heads t) : t.declName? = some d.name.text := by
  rw [← t.declName?_blank, h]
  cases d <;> rfl

theorem Heads.isOneOf (h : d.Heads t) : t.isOneOf = false := by
  rw [← t.isOneOf_blank, h]
  cases d <;> rfl

theorem Heads.needsFilling (h : d.Heads t) : Builder.needsFilling t = true := by
  rw [← t.needsFilling_blank, h]
  cases d <;> rfl

theorem Heads.exists_enum {e : EnumDecl} (h : (enum e).Heads t) : ∃ u, t = .enum u ∧ u.name = e.name.text := by
  cases t with
  | enum u => exact ⟨u, rfl, congrArg EnumType.name (TypeDef.enum.inj h)⟩
  | _ => cases h

theorem Heads.exists_sequence {q : SequenceDecl} (h : (sequence q).Heads t) :
    ∃ u, t = .sequence u ∧ u.name = q.name.text := by
  cases t with
  | sequence u => exact ⟨u, rfl, congrArg SequenceType.name (TypeDef.sequence.inj h)⟩
  | _ => cases h

end Decl

namespace Compile

variable {ds : List Decl} {st st' st₁ : State} {i j : Nat} {info : DeclInfo} {b : Builder} {t : TypeDef}

structure Placed (st : State) : Prop where
  ready : st.builder.Ready
  fault : st.fault = none
  indexed : Indexed st.infos st.builder.schema
  /-- Only the first declaration of a name has a place. -/
  unique : ∀ (i : Nat) (info : DeclInfo) id, st.infos[i]? = some info → info.id = some id →
    findDecl st.infos info.decl.name.text = some i
  heads : ∀ (i : Nat) (info : DeclInfo) id, st.infos[i]? = some info → info.id = some id →
    ∃ t, st.builder.schema.type? id = some t ∧ info.decl.Heads t
  decls : st.builder.schema.decls = st.infos.toList.filterMap DeclInfo.id
  unset : ∀ id, st.builder.Unset id → ∃ (i : Nat) (info : DeclInfo), st.infos[i]? = some info ∧ info.id = some id ∧
    ∀ n, info.state ≠ .done n
  listed : st.builder.Listed
  registered : st.errors = [] → ∀ (i : Nat) (info : DeclInfo), st.infos[i]? = some info → info.id ≠ none

theorem Placed.lookup_eq_none (h : Placed st) {name : Bytes} (hname : findDecl st.infos name = none) :
    st.builder.schema.lookup name = none := by
  rw [Schema.lookup, List.find?_eq_none]
  intro id hid hfound
  rw [h.decls, List.mem_filterMap] at hid
  obtain ⟨info, hmem, hid⟩ := hid
  obtain ⟨i, hi⟩ := List.getElem?_of_mem hmem
  rw [Array.getElem?_toList] at hi
  obtain ⟨t, ht, hheads⟩ := h.heads i info id hi hid
  have hfirst := h.unique i info id hi hid
  simp only [ht, Option.bind_some, hheads.declName?, Option.some.injEq, decide_eq_true_eq] at hfound
  rw [hfound, hname] at hfirst
  cases hfirst

/-! ### Registering -/

/-- The errors of a declaration behind others: a name that is reserved, and one that an earlier declaration has. -/
def declErrors (infos : Array DeclInfo) (d : Decl) : List CompileError :=
  errorIf (isBuiltin d.name.text || d.name.text = oneofKeyword) (.reservedName d.name.text d.kindName) d.name.span ++
    match declInfo? infos d.name.text with
    | some prev => [⟨.declConflict d.kindName d.name.text prev.decl.kindName prev.decl.name.text, d.name.span⟩]
    | none => []

theorem quiet_declErrors (infos : Array DeclInfo) (d : Decl) : Quiet (declErrors infos d) := by
  rw [declErrors, quiet_append]
  refine ⟨quiet_errorIf (by simp [CompileError.Cause.code]), ?_⟩
  split
  · exact quiet_singleton (by simp [CompileError.code, CompileError.Cause.code])
  · exact quiet_nil

theorem findDecl_push (infos : Array DeclInfo) (info : DeclInfo) (name : Bytes) : findDecl (infos.push info) name =
    (findDecl infos name).or (if info.decl.name.text = name then some infos.size else none) := by
  rw [findDecl, Array.findIdx?_push, findDecl]
  simp

theorem getElem?_push_of_some {infos : Array DeclInfo} (h : infos[i]? = some info) (new : DeclInfo) :
    (infos.push new)[i]? = some info := by
  rw [Array.getElem?_push, if_neg (Nat.ne_of_lt (Array.getElem?_eq_some_iff.1 h).1), h]

section Register

variable {d : Decl} (h : Placed st)

include h

theorem Placed.push_none (htaken : findDecl st.infos d.name.text ≠ none)
    (hinfos : st'.infos = st.infos.push ⟨d, none, .pending⟩) (hbuilder : st'.builder = st.builder)
    (hfault : st'.fault = st.fault) (herrors : st'.errors ≠ []) : Placed st' := by
  have hfind : ∀ name, findDecl st'.infos name = findDecl st.infos name := by
    intro name
    rw [hinfos, findDecl_push]
    split_ifs with hname
    · subst hname
      obtain ⟨i, hi⟩ := Option.ne_none_iff_exists'.1 htaken
      rw [hi, Option.some_or]
    · rw [Option.or_none]
  have hplaced : ∀ (i : Nat) (info : DeclInfo) id, st'.infos[i]? = some info → info.id = some id →
      st.infos[i]? = some info := by
    intro i info id hi hid
    rw [hinfos, Array.getElem?_push] at hi
    split_ifs at hi
    · cases hi
      cases hid
    · exact hi
  refine ⟨hbuilder ▸ h.ready, hfault.trans h.fault, fun name i hi => ?_, fun i info id hi hid => ?_,
    fun i info id hi hid => ?_, ?_, fun id hid => ?_, hbuilder ▸ h.listed, fun hnil => absurd hnil herrors⟩
  · rw [hfind] at hi
    obtain ⟨info, id, hinfo, hrest⟩ := h.indexed name i hi
    rw [hinfos, hbuilder]
    exact ⟨info, id, getElem?_push_of_some hinfo _, hrest⟩
  · rw [hfind]
    exact h.unique i info id (hplaced i info id hi hid) hid
  · rw [hbuilder]
    exact h.heads i info id (hplaced i info id hi hid) hid
  · rw [hinfos, hbuilder, Array.toList_push, List.filterMap_append, h.decls]
    exact (List.append_nil _).symm
  · rw [hbuilder] at hid
    obtain ⟨i, info, hinfo, hrest⟩ := h.unset id hid
    rw [hinfos]
    exact ⟨i, info, getElem?_push_of_some hinfo _, hrest⟩

theorem Placed.push_some (hfree : findDecl st.infos d.name.text = none)
    (hinfos : st'.infos = st.infos.push ⟨d, some st.builder.schema.types.size, .pending⟩)
    (hbuilder : st'.builder = st.builder.withDecl d.blank) (hfault : st'.fault = st.fault)
    (herrors : st'.errors = [] → st.errors = []) : Placed st' := by
  have hlookup := Builder.lookup_withDecl d.heads_blank.declName? h.ready.consistent.declared
  have hnew : st'.infos[st.infos.size]? = some ⟨d, some st.builder.schema.types.size, .pending⟩ := by
    rw [hinfos, Array.getElem?_push, if_pos rfl]
  have hready : (st.builder.withDecl d.blank).Ready := ⟨h.ready.built,
    Builder.consistent_withDecl h.ready.consistent d.heads_blank.needsFilling d.heads_blank.declName?
      (h.lookup_eq_none hfree)⟩
  refine ⟨hbuilder ▸ hready, hfault.trans h.fault, fun name i hi => ?_, fun i info id hi hid => ?_,
    fun i info id hi hid => ?_, ?_, fun id hid => ?_, ?_, fun hnil i info hi => ?_⟩
  · rw [hinfos, findDecl_push, Option.or_eq_some_iff] at hi
    rw [hbuilder, hlookup]
    rcases hi with hi | ⟨hnone, hi⟩
    · obtain ⟨info, id, hinfo, hid, hl⟩ := h.indexed name i hi
      refine ⟨info, id, ?_, hid, ?_⟩
      · rw [hinfos]
        exact getElem?_push_of_some hinfo _
      · rw [hl, Option.some_or]
    · split_ifs at hi with hname
      cases hi
      refine ⟨_, _, hnew, rfl, ?_⟩
      rw [h.lookup_eq_none hnone, if_pos hname.symm, Option.none_or]
  · rw [hinfos, Array.getElem?_push] at hi
    rw [hinfos, findDecl_push]
    split_ifs at hi with hlast
    · cases hi
      rw [hfree, if_pos rfl, Option.none_or, hlast]
    · rw [h.unique i info id hi hid, Option.some_or]
  · rw [hinfos, Array.getElem?_push] at hi
    rw [hbuilder]
    split_ifs at hi
    · cases hi
      cases hid
      exact ⟨d.blank, by rw [Builder.type?_withDecl, if_pos rfl], d.heads_blank⟩
    · obtain ⟨t, ht, hheads⟩ := h.heads i info id hi hid
      exact ⟨t, by rw [Builder.type?_withDecl, if_neg (Builder.ne_size_of_type? ht), ht], hheads⟩
  · rw [hinfos, hbuilder, Array.toList_push, List.filterMap_append, ← h.decls]
    rfl
  · rw [hbuilder] at hid
    obtain ⟨t, ht, hneeds, hfilled⟩ := hid
    rw [Builder.type?_withDecl] at ht
    split_ifs at ht with hid
    · exact ⟨_, _, hnew, congrArg some hid.symm, by simp⟩
    · obtain ⟨i, info, hinfo, hrest⟩ := h.unset id ⟨t, ht, hneeds, hfilled⟩
      rw [hinfos]
      exact ⟨i, info, getElem?_push_of_some hinfo _, hrest⟩
  · have hplaces : (st.builder.withDecl d.blank).schema.unionPlaces = _ := Builder.unionPlaces_pushed st.builder d.blank
    rw [hbuilder, Builder.Listed, hplaces, d.heads_blank.isOneOf, ← h.listed]
    exact (List.append_nil _).symm
  · rw [hinfos, Array.getElem?_push] at hi
    split_ifs at hi
    · cases hi
      exact Option.some_ne_none _
    · exact h.registered (herrors hnil) i info hi

end Register

theorem register_taken {d : Decl} {prev : DeclInfo} (hprev : declInfo? st.infos d.name.text = some prev) :
    (register d st).2 = (st.amend st.builder (declErrors st.infos d)).addDecl d none := by
  rw [register, bind_of_eq (report_eq _), get_bind, amend_infos, declErrors]
  simp only [hprev]
  rw [bind_of_eq (report_eq _), amend_builder, amend_amend]
  rfl

theorem register_new {d : Decl} {id : TypeId} (hnew : declInfo? st.infos d.name.text = none)
    (hdeclare : declare d st.builder = (.ok id, b)) :
    (register d st).2 = (st.amend b (declErrors st.infos d)).addDecl d (some id) := by
  rw [register, bind_of_eq (report_eq _), get_bind, amend_infos, declErrors]
  simp only [hnew]
  rw [bind_of_eq (place_of_ok (by rwa [amend_builder])), amend_amend]
  rfl

theorem Placed.register_cases (h : Placed st) (d : Decl) :
    (findDecl st.infos d.name.text = none ∧ (register d st).2 =
      (st.amend (st.builder.withDecl d.blank) (declErrors st.infos d)).addDecl d (some st.builder.schema.types.size)) ∨
    ((∃ prev, declInfo? st.infos d.name.text = some prev) ∧
      (register d st).2 = (st.amend st.builder (declErrors st.infos d)).addDecl d none) := by
  cases hfind : findDecl st.infos d.name.text with
  | none =>
    have hnew : declInfo? st.infos d.name.text = none := by
      rw [declInfo?, hfind]
      rfl
    have hdeclare : declare d st.builder = (.ok st.builder.schema.types.size, st.builder.withDecl d.blank) := by
      have hdeclare := Builder.declare_eq h.ready d.heads_blank.declName? (h.lookup_eq_none hfind)
      cases d <;> exact hdeclare
    exact .inl ⟨rfl, register_new hnew hdeclare⟩
  | some i =>
    obtain ⟨prev, hprev, -⟩ := findDecl_spec hfind
    have htaken : declInfo? st.infos d.name.text = some prev := by
      rw [declInfo?, hfind, Option.bind_some, hprev]
    exact .inr ⟨⟨prev, htaken⟩, register_taken htaken⟩

theorem Placed.register (h : Placed st) (d : Decl) : Placed (register d st).2 ∧
    ∃ id b, (register d st).2 = (st.amend b (declErrors st.infos d)).addDecl d id ∧
      ∀ p o, b.schema.type? p = some (.oneOf o) → st.builder.schema.type? p = some (.oneOf o) := by
  rcases h.register_cases d with ⟨hfree, heq⟩ | ⟨⟨prev, htaken⟩, heq⟩
  · rw [heq]
    refine ⟨h.push_some hfree rfl rfl rfl fun hnil => (List.append_eq_nil_iff.1 hnil).1, _, _, rfl, fun p o ho => ?_⟩
    rw [Builder.type?_withDecl] at ho
    split_ifs at ho
    · cases d <;> cases ho
    · exact ho
  · have hfind : findDecl st.infos d.name.text ≠ none := by
      intro hnone
      rw [declInfo?, hnone] at htaken
      cases htaken
    rw [heq]
    refine ⟨h.push_none hfind rfl rfl rfl ?_, _, _, rfl, fun _ _ ho => ho⟩
    simp [State.addDecl, State.amend, declErrors, htaken]

theorem placed_start (name : Bytes) : Placed (start name) where
  ready := ⟨rfl, Builder.consistent_new name⟩
  fault := rfl
  indexed n i h := by
    obtain ⟨info, hinfo, -⟩ := findDecl_spec h
    cases hinfo
  unique i info id h := by cases h
  heads i info id h := by cases h
  decls := rfl
  unset := by
    rintro id ⟨t, ht, -⟩
    cases ht
  listed := rfl
  registered _ i info h := by cases h

/-- With every declaration registered and none compiled. -/
structure Registered (ds : List Decl) (st : State) : Prop extends Placed st where
  infos : st.infos.toList.map DeclInfo.decl = ds
  pending : ∀ (i : Nat) (info : DeclInfo), st.infos[i]? = some info → info.state = .pending
  stack : st.stack = []
  quiet : Quiet st.errors
  unions : ∀ p o, st.builder.schema.type? p ≠ some (.oneOf o)

theorem Registered.registerAll {before : List Decl} (h : Registered before st) (ds : List Decl) :
    Registered (before ++ ds) (registerAll ds st).2 := by
  induction ds generalizing before st with
  | nil =>
    rw [List.append_nil]
    exact h
  | cons d ds ih =>
    obtain ⟨hplaced, id, b, heq, hunions⟩ := h.toPlaced.register d
    have hinfos : (register d st).2.infos = st.infos.push ⟨d, id, .pending⟩ := by
      rw [heq]
      rfl
    have hnext : Registered (before ++ [d]) (register d st).2 := by
      refine ⟨hplaced, ?_, fun i info hi => ?_, ?_, ?_, fun p o ho => ?_⟩
      · rw [hinfos, Array.toList_push, List.map_append, h.infos]
        rfl
      · rw [hinfos, Array.getElem?_push] at hi
        split_ifs at hi
        · cases hi
          rfl
        · exact h.pending i info hi
      · rw [heq]
        exact h.stack
      · rw [heq]
        exact quiet_append.2 ⟨h.quiet, quiet_declErrors st.infos d⟩
      · rw [heq] at ho
        exact h.unions p o (hunions p o ho)
    rw [← List.singleton_append, ← List.append_assoc]
    exact ih hnext

/-! ### Compiling a declaration -/

theorem Placed.congr (h : Placed st) (hbuilder : st'.builder = st.builder) (hfault : st'.fault = st.fault)
    (hinfos : st'.infos = st.infos) (herrors : st'.errors = [] → st.errors = []) : Placed st' := by
  obtain ⟨hb, hf, hx, hu, hh, hd, hs, hl, hr⟩ := h
  rw [← hbuilder] at hb hx hh hd hs hl
  rw [← hinfos] at hx hu hh hd hs hr
  exact ⟨hb, hfault.trans hf, hx, hu, hh, hd, hs, hl, fun hnil => hr (herrors hnil)⟩

theorem findDecl_setState (st : State) (i : Nat) (s : LayoutState) (name : Bytes) :
    findDecl (st.setState i s).infos name = findDecl st.infos name := by
  rw [findDecl_eq rfl, findDecl_eq rfl, decls_setState]

theorem of_setState {s : LayoutState} (h : (st.setState i s).infos[j]? = some info) :
    ∃ s', st.infos[j]? = some { info with state := s' } ∧ (i = j → info.state = s) ∧ (i ≠ j → s' = info.state) := by
  rw [getElem?_setState] at h
  split_ifs at h with hij
  · obtain ⟨info', hi, rfl⟩ := Option.map_eq_some_iff.1 h
    exact ⟨info'.state, hi, fun _ => rfl, fun hne => absurd hij hne⟩
  · exact ⟨info.state, h, fun hij' => absurd hij' hij, fun _ => rfl⟩

theorem to_setState (h : st.infos[j]? = some info) (i : Nat) (s : LayoutState) :
    ∃ s', (st.setState i s).infos[j]? = some { info with state := s' } ∧ (i ≠ j → s' = info.state) ∧
      (i = j → s' = s) := by
  rw [getElem?_setState]
  split_ifs with hij
  · rw [h]
    exact ⟨s, rfl, fun hne => absurd hij hne, fun _ => rfl⟩
  · exact ⟨info.state, h, fun _ => rfl, fun hij' => absurd hij' hij⟩

theorem ids_setState (st : State) (i : Nat) (s : LayoutState) :
    (st.setState i s).infos.toList.filterMap DeclInfo.id = st.infos.toList.filterMap DeclInfo.id := by
  have hids := map_setState DeclInfo.id (fun _ _ => rfl) st i s
  simpa [List.filterMap_map] using congrArg (List.filterMap id) hids

theorem Placed.eq_of_id (h : Placed st) {info' : DeclInfo} {id : TypeId} (hi : st.infos[i]? = some info)
    (hj : st.infos[j]? = some info') (hid : info.id = some id) (hid' : info'.id = some id) : i = j := by
  obtain ⟨t, ht, hheads⟩ := h.heads i info id hi hid
  obtain ⟨t', ht', hheads'⟩ := h.heads j info' id hj hid'
  cases ht.symm.trans ht'
  have hname := hheads.declName?.symm.trans hheads'.declName?
  have hfirst := h.unique i info id hi hid
  rw [Option.some.inj hname, h.unique j info' id hj hid'] at hfirst
  exact (Option.some.inj hfirst).symm

theorem Placed.setOpen (h : Placed st) {s : LayoutState} (hs : ∀ n, s ≠ .done n) : Placed (st.setState i s) := by
  refine ⟨h.ready, h.fault, fun name j hj => ?_, fun j info id hj hid => ?_, fun j info id hj hid => ?_, ?_,
    fun id hid => ?_, h.listed, fun hnil j info hj => ?_⟩
  · rw [findDecl_setState] at hj
    obtain ⟨info, id, hinfo, hid, hl⟩ := h.indexed name j hj
    obtain ⟨s', hs', -⟩ := to_setState hinfo i s
    exact ⟨_, id, hs', hid, hl⟩
  · obtain ⟨s', hj', -⟩ := of_setState hj
    rw [findDecl_setState]
    exact h.unique j { info with state := s' } id hj' hid
  · obtain ⟨s', hj', -⟩ := of_setState hj
    exact h.heads j { info with state := s' } id hj' hid
  · rw [ids_setState]
    exact h.decls
  · obtain ⟨j, info, hinfo, hid, hopen⟩ := h.unset id hid
    obtain ⟨s', hs', hkeep, hnew⟩ := to_setState hinfo i s
    refine ⟨j, _, hs', hid, ?_⟩
    by_cases hij : i = j
    · rw [hnew hij]
      exact hs
    · rw [hkeep hij]
      exact hopen
  · obtain ⟨s', hj', -⟩ := of_setState hj
    exact h.registered hnil j { info with state := s' } hj'

/-- The builder after a declaration is compiled: the type at its place, if it has one, is filled in. -/
structure Settles (st : State) (info : DeclInfo) (b : Builder) : Prop where
  ready : b.Ready
  decls : b.schema.decls = st.builder.schema.decls
  lookup : ∀ name, b.schema.lookup name = st.builder.schema.lookup name
  heads : ∀ (d : Decl) id t, st.builder.schema.type? id = some t → d.Heads t →
    ∃ t', b.schema.type? id = some t' ∧ d.Heads t'
  types : ∀ id, info.id ≠ some id → b.schema.type? id = st.builder.schema.type? id
  unions : ∀ id o, b.schema.type? id = some (.oneOf o) → st.builder.schema.type? id = some (.oneOf o)
  unset : ∀ id, b.Unset id → info.id ≠ some id ∧ st.builder.Unset id
  listed : b.Listed

theorem Placed.settles_none (h : Placed st) (hid : info.id = none) : Settles st info st.builder :=
  ⟨h.ready, rfl, fun _ => rfl, fun _ _ t ht hd => ⟨t, ht, hd⟩, fun _ _ => rfl, fun _ _ ho => ho,
    fun _ hu => ⟨by simp [hid], hu⟩, h.listed⟩

theorem Placed.settles_fill (h : Placed st) (hi : st.infos[i]? = some info) {id : TypeId} (hid : info.id = some id)
    (ht : info.decl.Heads t) : Settles st info (st.builder.fill id t) := by
  obtain ⟨t₀, ht₀, hheads₀⟩ := h.heads i info id hi hid
  have hname : t.declName? = t₀.declName? := ht.declName?.trans hheads₀.declName?.symm
  have hready : (st.builder.fill id t).Ready :=
    ⟨h.ready.built, Builder.consistent_fill ht₀ h.ready.consistent hheads₀.needsFilling ht.needsFilling hname⟩
  refine ⟨hready, rfl, ?_, fun d p u hu hd => ?_, fun p hp => ?_, fun p o ho => ?_, fun p hp => ?_, ?_⟩
  · apply Schema.lookup_congr
    · rfl
    · exact Builder.declName?_fill ht₀ hname
  · rw [Builder.type?_fill ht₀]
    split_ifs with hp
    · subst hp
      cases hu.symm.trans ht₀
      exact ⟨t, rfl, ht.trans (hheads₀.symm.trans hd)⟩
    · exact ⟨u, hu, hd⟩
  · rw [Builder.type?_fill ht₀, if_neg]
    rintro rfl
    exact hp hid
  · rw [Builder.type?_fill ht₀] at ho
    split_ifs at ho
    · cases ho
      cases ht.isOneOf
    · exact ho
  · obtain ⟨hne, hunset⟩ := Builder.unset_fill ht₀ hp
    refine ⟨fun hp => hne ?_, hunset⟩
    exact Option.some.inj (hp.symm.trans hid)
  · exact Builder.listed_fill ht₀ (ht.isOneOf.trans hheads₀.isOneOf.symm) h.listed

theorem Placed.settle (h : Placed st) (hi : st.infos[i]? = some info) {n : Nat}
    (hb : Settles st info st'.builder) (hinfos : st'.infos = (st.setState i (.done n)).infos)
    (hfault : st'.fault = st.fault) (herrors : st'.errors = [] → st.errors = []) : Placed st' := by
  refine ⟨hb.ready, hfault.trans h.fault, fun name j hj => ?_, fun j info' id hj hid => ?_,
    fun j info' id hj hid => ?_, ?_, fun id hid => ?_, hb.listed, fun hnil j info' hj => ?_⟩
  · rw [hinfos, findDecl_setState] at hj
    obtain ⟨info', id, hinfo, hid, hl⟩ := h.indexed name j hj
    obtain ⟨s', hs', -⟩ := to_setState hinfo i (.done n)
    rw [hinfos, hb.lookup]
    exact ⟨_, id, hs', hid, hl⟩
  · rw [hinfos] at hj
    obtain ⟨s', hj', -⟩ := of_setState hj
    rw [hinfos, findDecl_setState]
    exact h.unique j { info' with state := s' } id hj' hid
  · rw [hinfos] at hj
    obtain ⟨s', hj', -⟩ := of_setState hj
    obtain ⟨t, ht, hheads⟩ := h.heads j { info' with state := s' } id hj' hid
    exact hb.heads _ id t ht hheads
  · rw [hb.decls, hinfos, ids_setState]
    exact h.decls
  · obtain ⟨hne, hunset⟩ := hb.unset id hid
    obtain ⟨j, info', hinfo, hid, hopen⟩ := h.unset id hunset
    have hij : i ≠ j := by
      rintro rfl
      cases hi.symm.trans hinfo
      exact hne hid
    refine ⟨j, info', ?_, hid, hopen⟩
    rw [hinfos, getElem?_setState, if_neg hij, hinfo]
  · rw [hinfos] at hj
    obtain ⟨s', hj', -⟩ := of_setState hj
    exact h.registered (herrors hnil) j { info' with state := s' } hj'

theorem Placed.fillAt (h : Placed st) (hi : st.infos[i]? = some info) (ht : info.decl.Heads t)
    {op : TypeId → Builder → Builder.Reply Unit}
    (hop : ∀ b id t₀, b.schema.type? id = some t₀ → info.decl.Heads t₀ → op id b = (.ok (), b.fill id t))
    (hbuilder : st₁.builder = st.builder) : Settles st info (fillAt info.id op st₁).2.builder ∧
      (fillAt info.id op st₁).2.fault = st₁.fault ∧
      ∀ id, info.id = some id → (fillAt info.id op st₁).2.builder.schema.type? id = some t := by
  cases hid : info.id with
  | none =>
    refine ⟨?_, rfl, fun id hid => by cases hid⟩
    rw [Compile.fillAt]
    exact hbuilder ▸ h.settles_none hid
  | some id =>
    obtain ⟨t₀, ht₀, hheads₀⟩ := h.heads i info id hi hid
    have hfill : fill (op id) st₁ = ((), st₁.amend (st.builder.fill id t) []) :=
      fill_of_ok (by rw [hbuilder]; exact hop _ id t₀ ht₀ hheads₀)
    rw [Compile.fillAt, hfill]
    refine ⟨h.settles_fill hi hid ht, rfl, fun id' hid' => ?_⟩
    cases hid'
    rw [amend_builder, Builder.type?_fill ht₀, if_pos rfl]

/-- The type at a place stays as it is: no declaration that is not done has the place. -/
def Settled (st : State) (id : TypeId) : Prop :=
  ∀ (i : Nat) (info : DeclInfo), st.infos[i]? = some info → info.id = some id → ∃ n, info.state = .done n

/-- Settled types are kept, and names stand for what they stood for. -/
structure Builds (st st' : State) : Prop where
  lookup : ∀ name, st'.builder.schema.lookup name = st.builder.schema.lookup name
  settled : ∀ id, Settled st id → Settled st' id
  types : ∀ id t, Settled st id → st.builder.schema.type? id = some t → st'.builder.schema.type? id = some t

theorem Builds.refl (st : State) : Builds st st := ⟨fun _ => rfl, fun _ h => h, fun _ _ _ h => h⟩

theorem Builds.trans (h : Builds st st₁) (h' : Builds st₁ st') : Builds st st' where
  lookup name := (h'.lookup name).trans (h.lookup name)
  settled id hid := h'.settled id (h.settled id hid)
  types id t hid ht := h'.types id t (h.settled id hid) (h.types id t hid ht)

theorem builds_amend (hb : st.builder.Appends b) (es : List CompileError) : Builds st (st.amend b es) :=
  ⟨hb.lookup, fun _ h => h, fun id t _ ht => hb.types id t ht⟩

theorem Placed.amend (h : Placed st) (hb : st.builder.Appends b) (es : List CompileError) :
    Placed (st.amend b es) where
  ready := hb.ready h.ready
  fault := h.fault
  indexed := h.indexed.append hb
  unique := h.unique
  heads i info id hi hid := by
    obtain ⟨t, ht, hheads⟩ := h.heads i info id hi hid
    exact ⟨t, hb.types id t ht, hheads⟩
  decls := hb.decls.trans h.decls
  unset id hid := h.unset id (hb.unset id hid)
  listed := hb.listed h.listed
  registered hnil := h.registered (List.append_eq_nil_iff.1 hnil).1

theorem Placed.settled (h : Placed st) {id : TypeId} (ht : st.builder.schema.type? id = some t)
    (hname : t.declName? = none) : Settled st id := by
  intro i info hi hid
  obtain ⟨t', ht', hheads⟩ := h.heads i info id hi hid
  cases ht.symm.trans ht'
  cases hname.symm.trans hheads.declName?

theorem Placed.settled_of_done (h : Placed st) {id : TypeId} {n : Nat} (hi : st.infos[i]? = some info)
    (hid : info.id = some id) (hn : info.state = .done n) : Settled st id := by
  intro j info' hj hid'
  obtain rfl := h.eq_of_id hi hj hid hid'
  cases hi.symm.trans hj
  exact ⟨n, hn⟩

theorem Builds.keeps (h : Builds st st') (hp : Placed st) (n : Nat) :
    st.builder.schema.Keeps st'.builder.schema n :=
  ⟨fun name _ hid => (h.lookup name).trans hid, fun id t ht hname _ => h.types id t (hp.settled ht hname) ht⟩

/-! ### Laying out -/

theorem Placed.enter (h : Placed st) (i : Nat) : Placed (st.enter i) :=
  (h.setOpen (i := i) (s := .visiting) (by simp)).congr rfl rfl rfl fun hnil => hnil

theorem builds_enter {d : SequenceDecl} {id : Option TypeId} (hi : st.infos[i]? = some ⟨.sequence d, id, .pending⟩) :
    Builds st (st.enter i) := by
  refine ⟨fun _ => rfl, fun p hp j info hj hid => ?_, fun _ _ _ h => h⟩
  obtain ⟨s', hj', -, hkeep⟩ := of_setState (s := .visiting) hj
  obtain ⟨n, hn⟩ := hp j _ hj' hid
  by_cases hij : i = j
  · subst hij
    have hpending : s' = .pending := (congrArg DeclInfo.state (Option.some.inj (hi.symm.trans hj'))).symm
    cases hpending.symm.trans hn
  · exact ⟨n, (hkeep hij).symm.trans hn⟩

/-- The type of a sequence that is laid out. -/
def laidType (d : SequenceDecl) (part : Partial) : TypeDef :=
  .sequence ⟨d.name.text, UInt16.ofNat part.size, part.fields.toList⟩

theorem Settles.builds (h : Settles st info st'.builder) (hi : st.infos[i]? = some info) {n : Nat}
    (hopen : ∀ n, info.state ≠ .done n) (hinfos : st'.infos = (st.setState i (.done n)).infos) : Builds st st' := by
  refine ⟨h.lookup, fun id hid j info' hj hid' => ?_, fun id t hid ht => ?_⟩
  · rw [hinfos] at hj
    obtain ⟨s', hj', hnew, hkeep⟩ := of_setState hj
    by_cases hij : i = j
    · exact ⟨n, hnew hij⟩
    · obtain ⟨m, hm⟩ := hid j _ hj' hid'
      exact ⟨m, (hkeep hij).symm.trans hm⟩
  · rw [h.types id, ht]
    intro hplace
    obtain ⟨m, hm⟩ := hid i info hi hplace
    exact hopen m hm

theorem Placed.finish {d : SequenceDecl} {id : Option TypeId} {s : LayoutState} (h : Placed st)
    (hi : st.infos[i]? = some ⟨.sequence d, id, s⟩) (hs : ∀ n, s ≠ .done n) (part : Partial) :
    Placed (finish i d id part st).2 ∧ Builds st (finish i d id part st).2 ∧
      (∀ p, id = some p → (finish i d id part st).2.builder.schema.type? p = some (laidType d part)) ∧
      ∀ p o, (finish i d id part st).2.builder.schema.type? p = some (.oneOf o) →
        st.builder.schema.type? p = some (.oneOf o) := by
  have hop : ∀ (b : Builder) p t₀, b.schema.type? p = some t₀ → (Decl.sequence d).Heads t₀ →
      b.setSequence p part.fields.toList (UInt16.ofNat part.size) = (.ok (), b.fill p (laidType d part)) := by
    intro b p t₀ ht₀ hheads
    obtain ⟨u, rfl, hname⟩ := hheads.exists_sequence
    simp only [Builder.setSequence, ht₀, laidType, hname]
  have hheads : (Decl.sequence d).Heads (laidType d part) := rfl
  have hfill : Settles st ⟨.sequence d, id, s⟩ (Compile.finish i d id part st).2.builder ∧
      (Compile.finish i d id part st).2.fault = st.fault ∧
      ∀ p, id = some p → (Compile.finish i d id part st).2.builder.schema.type? p = some (laidType d part) :=
    h.fillAt hi hheads hop rfl
  obtain ⟨hsettles, hfault, htype⟩ := hfill
  refine ⟨h.settle hi hsettles (finish_infos ..) hfault fun hnil => ?_, hsettles.builds hi hs (finish_infos ..), htype,
    hsettles.unions⟩
  rw [finish_errors] at hnil
  exact (List.append_eq_nil_iff.1 hnil).1

theorem Placed.check (h : Placed st) (q : Bytes) (part : Partial) (f : FieldExpr) : Placed (st.check q part f) :=
  h.amend (.refl _) _

theorem builds_check (st : State) (q : Bytes) (part : Partial) (f : FieldExpr) : Builds st (st.check q part f) :=
  builds_amend (.refl _) _

theorem Placed.resolve {path : List Bytes} {type : TypeExpr} {found : Option TypeId} (h : Placed st)
    (hres : resolve path type st = (found, st₁)) : Placed st₁ ∧ Builds st st₁ := by
  obtain ⟨_, b, heq, hab, -⟩ := resolve_spec st path type h.ready
  cases hres.symm.trans heq
  exact ⟨h.amend hab _, builds_amend hab _⟩

/-- The walk has come to fields of the innermost sequence in progress, and places are in order. -/
structure Stands (ds : List Decl) (st : State) (q : Bytes) (fs : FieldList) : Prop where
  walk : Walk ds st
  owner : Owner ds st q fs
  placed : Placed st

/-- Laying out fields, with what is known of the states on the way. -/
inductive Visits (ds : List Decl) : Bytes → Partial → FieldList → State → Partial → State → Prop where
  | nil {q part st} : Stands ds st q .nil → Visits ds q part .nil st part st
  | own {q part f gap rest st found st₁ part' st'} : Stands ds st q (.cons f gap rest) →
      target? st.infos f.type = none → resolve [q, f.name.text] f.type (st.check q part f) = (found, st₁) →
      Grows st st₁ → Visits ds q (part.add f.name.text (found.getD 0) (ownSize f.type)) rest st₁ part' st' →
      Visits ds q part (.cons f gap rest) st part' st'
  | known {q part f gap rest st i info n part' st'} : Stands ds st q (.cons f gap rest) →
      target? st.infos f.type = some i → st.infos[i]? = some info → info.state = .done n →
      Visits ds q (part.add f.name.text (info.id.getD 0) n) rest (st.check q part f) part' st' →
      Visits ds q part (.cons f gap rest) st part' st'
  | cycle {q part f gap rest st i info part' st'} : Stands ds st q (.cons f gap rest) →
      target? st.infos f.type = some i → st.infos[i]? = some info → info.state = .visiting →
      Visits ds q (part.add f.name.text (info.id.getD 0) 0) rest ((st.check q part f).cyclic f i) part' st' →
      Visits ds q part (.cons f gap rest) st part' st'
  | inner {q part f gap rest st i d id innerPart st₁ part' st'} : Stands ds st q (.cons f gap rest) →
      target? st.infos f.type = some i → st.infos[i]? = some ⟨.sequence d, id, .pending⟩ →
      Visits ds d.name.text .empty d.fieldList ((st.check q part f).enter i) innerPart st₁ →
      Visits ds q (part.add f.name.text (id.getD 0) innerPart.size) rest (finish i d id innerPart st₁).2 part' st' →
      Visits ds q part (.cons f gap rest) st part' st'

theorem Stands.enter {d : SequenceDecl} {id : Option TypeId} (hw : Walk ds st) (hp : Placed st)
    (hi : st.infos[i]? = some ⟨.sequence d, id, .pending⟩) (hasked : ∀ j ∈ st.stack.head?, Embeds ds j i) :
    Stands ds (st.enter i) d.name.text d.fieldList := ⟨hw.enter hi hasked, owner_enter hw hi, hp.enter i⟩

theorem Lays.visits {q : Bytes} {part part' : Partial} {fs : FieldList} (h : Lays q part fs st part' st')
    (hs : Stands ds st q fs) : Visits ds q part fs st part' st' ∧ Placed st' ∧ Builds st st' := by
  induction h with
  | nil => exact ⟨.nil hs, hs.placed, .refl _⟩
  | @own q part f gap rest st found st₁ part' st' htarget hres _ ih =>
    obtain ⟨hw₁, hg₁⟩ := (hs.walk.check q part f).resolve hres
    obtain ⟨hp₁, hb₁⟩ := (hs.placed.check q part f).resolve hres
    have hg := (grows_check st q part f).trans hg₁
    obtain ⟨hrest, hp', hb'⟩ := ih ⟨hw₁, hs.owner.tail hg, hp₁⟩
    exact ⟨.own hs htarget hres hg hrest, hp', (builds_check st q part f).trans (hb₁.trans hb')⟩
  | @known q part f gap rest st i info n part' st' htarget hinfo hdone _ ih =>
    obtain ⟨hrest, hp', hb'⟩ :=
      ih ⟨hs.walk.check q part f, hs.owner.tail (grows_check st q part f), hs.placed.check q part f⟩
    exact ⟨.known hs htarget hinfo hdone hrest, hp', (builds_check st q part f).trans hb'⟩
  | @cycle q part f gap rest st i info part' st' htarget hinfo hvisiting _ ih =>
    have hg := (grows_check st q part f).trans (grows_cyclic _ f i)
    obtain ⟨hrest, hp', hb'⟩ :=
      ih ⟨(hs.walk.check q part f).cyclic, hs.owner.tail hg, (hs.placed.check q part f).amend (.refl _) _⟩
    exact ⟨.cycle hs htarget hinfo hvisiting hrest, hp',
      (builds_check st q part f).trans ((builds_amend (.refl _) _).trans hb')⟩
  | @inner q part f gap rest st i d id innerPart st₁ part' st' htarget hinfo hinner _ ihInner ihRest =>
    have hs₀ := Stands.enter (hs.walk.check q part f) (hs.placed.check q part f) hinfo
      (hs.owner.embeds hs.walk htarget hinfo)
    obtain ⟨hw₁, hg₁⟩ := hinner.walk hs₀.walk hs₀.owner
    obtain ⟨hw₂, hg₂, -⟩ := hw₁.finish hg₁ hinfo innerPart
    obtain ⟨hvisits, hp₁, hb₁⟩ := ihInner hs₀
    obtain ⟨hp₂, hb₂, -⟩ := hp₁.finish (hg₁.visiting hinfo) (by simp) innerPart
    obtain ⟨hrest, hp', hb'⟩ := ihRest ⟨hw₂, hs.owner.tail ((grows_check st q part f).trans hg₂), hp₂⟩
    have hb : Builds (st.check q part f) ((st.check q part f).enter i) := builds_enter hinfo
    exact ⟨.inner hs htarget hinfo hvisits hrest, hp',
      (builds_check st q part f).trans (hb.trans (hb₁.trans (hb₂.trans hb')))⟩

section Visits

variable {q : Bytes} {part part' : Partial} {fs : FieldList}

theorem Visits.stands (h : Visits ds q part fs st part' st') : Stands ds st q fs := by
  cases h <;> assumption

theorem Visits.lays (h : Visits ds q part fs st part' st') : Lays q part fs st part' st' := by
  induction h with
  | nil => exact .nil
  | own _ htarget hres _ _ ih => exact .own htarget hres ih
  | known _ htarget hinfo hdone _ ih => exact .known htarget hinfo hdone ih
  | cycle _ htarget hinfo hvisiting _ ih => exact .cycle htarget hinfo hvisiting ih
  | inner _ htarget hinfo _ _ ihInner ihRest => exact .inner htarget hinfo ihInner ihRest

theorem Visits.walk (h : Visits ds q part fs st part' st') : Walk ds st' ∧ Grows st st' :=
  h.lays.walk h.stands.walk h.stands.owner

theorem Visits.placed (h : Visits ds q part fs st part' st') : Placed st' ∧ Builds st st' :=
  (h.lays.visits h.stands).2

end Visits

theorem LaysOut.visits (h : LaysOut st st') (hw : Walk ds st) (hp : Placed st) :
    ∃ i d id part st₁, st.infos[i]? = some ⟨.sequence d, id, .pending⟩ ∧
      Visits ds d.name.text .empty d.fieldList (st.enter i) part st₁ ∧ st' = (finish i d id part st₁).2 := by
  obtain ⟨i, d, id, part, st₁, hstack, hi, hlays, rfl⟩ := h
  exact ⟨i, d, id, part, st₁, hi, (hlays.visits (.enter hw hp hi (by simp [hstack]))).1, rfl⟩

theorem Walk.runPlaced {P : State → Prop} (hw : Walk ds st) (hp : Placed st)
    (hrun : Relation.ReflTransGen LaysOut st st') (hst : P st)
    (hstep : ∀ st st', Walk ds st → Placed st → LaysOut st st' → P st → P st') :
    Walk ds st' ∧ Grows st st' ∧ Placed st' ∧ P st' := by
  refine hw.run (P := fun st => Placed st ∧ P st) hrun ⟨hp, hst⟩ fun st st' hw hlays ih => ?_
  obtain ⟨i, d, id, part, st₁, hi, hvisits, rfl⟩ := hlays.visits hw ih.1
  exact ⟨(hvisits.placed.1.finish (hvisits.walk.2.visiting hi) (by simp) part).1, hstep st _ hw ih.1 hlays ih.2⟩

/-! ### Before layout -/

theorem quiet_itemErrors (enum : Bytes) (before items : List EnumItem) : Quiet (itemErrors enum before items) := by
  induction items generalizing before with
  | nil => exact quiet_nil
  | cons item items ih =>
    rw [itemErrors, quiet_append, quiet_append]
    refine ⟨⟨quiet_errorIf (by simp [CompileError.Cause.code]), ?_⟩, ih _⟩
    split
    · exact quiet_singleton (by simp [CompileError.code, CompileError.Cause.code])
    · exact quiet_nil

/-- The type of an enum that is compiled. -/
def enumType (d : EnumDecl) : TypeDef := .enum ⟨d.name.text, enumWidth (maxValue d.variants), d.variants⟩

section Enum

variable {d : EnumDecl} {id : Option TypeId} {s : LayoutState}

theorem compileEnum_infos : (compileEnum i info d st).2.infos = (st.setState i (.done d.width)).infos :=
  (fillAt_frame ..).1

theorem compileEnum_stack : (compileEnum i info d st).2.stack = st.stack := (fillAt_frame ..).2.1

theorem compileEnum_errors : (compileEnum i info d st).2.errors = st.errors ++ itemErrors d.name.text [] d.items :=
  (fillAt_frame ..).2.2

theorem refills_compileEnum : st.builder.Refills (compileEnum i info d st).2.builder :=
  refills_fillAt (fun id b => b.refills_setEnum id _) info.id _

theorem Placed.compileEnum (h : Placed st) (hi : st.infos[i]? = some ⟨.enum d, id, s⟩) (hs : ∀ n, s ≠ .done n) :
    Placed (compileEnum i ⟨.enum d, id, s⟩ d st).2 ∧ Builds st (compileEnum i ⟨.enum d, id, s⟩ d st).2 ∧
      (∀ p, id = some p → (compileEnum i ⟨.enum d, id, s⟩ d st).2.builder.schema.type? p = some (enumType d)) ∧
      ∀ p o, (compileEnum i ⟨.enum d, id, s⟩ d st).2.builder.schema.type? p = some (.oneOf o) →
        st.builder.schema.type? p = some (.oneOf o) := by
  have hop : ∀ (b : Builder) p t₀, b.schema.type? p = some t₀ → (Decl.enum d).Heads t₀ →
      b.setEnum p d.variants = (.ok (), b.fill p (enumType d)) := by
    intro b p t₀ ht₀ hheads
    obtain ⟨u, rfl, hname⟩ := hheads.exists_enum
    simp only [Builder.setEnum, ht₀, enumType, hname]
  have hheads : (Decl.enum d).Heads (enumType d) := rfl
  have hfill : Settles st ⟨.enum d, id, s⟩ (Compile.compileEnum i ⟨.enum d, id, s⟩ d st).2.builder ∧
      (Compile.compileEnum i ⟨.enum d, id, s⟩ d st).2.fault = st.fault ∧ ∀ p, id = some p →
        (Compile.compileEnum i ⟨.enum d, id, s⟩ d st).2.builder.schema.type? p = some (enumType d) :=
    h.fillAt hi hheads hop rfl
  obtain ⟨hsettles, hfault, htype⟩ := hfill
  refine ⟨h.settle hi hsettles compileEnum_infos hfault fun hnil => ?_, hsettles.builds hi hs compileEnum_infos, htype,
    hsettles.unions⟩
  rw [compileEnum_errors] at hnil
  exact (List.append_eq_nil_iff.1 hnil).1

end Enum

/-- With the enums among the first declarations compiled. -/
structure Prepared (ds : List Decl) (k : Nat) (st : State) : Prop extends Placed st where
  infos : st.infos.toList.map DeclInfo.decl = ds
  stack : st.stack = []
  quiet : Quiet st.errors
  unions : ∀ p o, st.builder.schema.type? p ≠ some (.oneOf o)
  enums : ∀ (j : Nat) d id s, st.infos[j]? = some ⟨.enum d, id, s⟩ → j < k →
    s = .done d.width ∧ ∀ p, id = some p → st.builder.schema.type? p = some (enumType d)
  later : ∀ (j : Nat) d id s, st.infos[j]? = some ⟨.enum d, id, s⟩ → k ≤ j → s = .pending
  sequences : ∀ (j : Nat) d id s, st.infos[j]? = some ⟨.sequence d, id, s⟩ → s = .pending

theorem Registered.prepared (h : Registered ds st) : Prepared ds 0 st where
  toPlaced := h.toPlaced
  infos := h.infos
  stack := h.stack
  quiet := h.quiet
  unions := h.unions
  enums _ _ _ _ _ hj := absurd hj (Nat.not_lt_zero _)
  later j _ _ _ hj _ := h.pending j _ hj
  sequences j _ _ _ hj := h.pending j _ hj

theorem Prepared.lt {k : Nat} (h : Prepared ds k st) (hj : st.infos[j]? = some info) : j < ds.length := by
  rw [← h.infos, List.length_map, Array.length_toList]
  exact (Array.getElem?_eq_some_iff.1 hj).1

section Prepared

variable {k : Nat} {d : EnumDecl} {id : Option TypeId} {s : LayoutState} {rest : List Decl}

theorem Prepared.enum (h : Prepared ds k st) (hk : st.infos[k]? = some ⟨.enum d, id, s⟩) :
    Prepared ds (k + 1) (compileEnum k ⟨.enum d, id, s⟩ d st).2 := by
  obtain rfl := h.later k d id s hk (Nat.le_refl k)
  obtain ⟨hplaced, hbuilds, htype, hunions⟩ := h.toPlaced.compileEnum hk (by simp)
  refine ⟨hplaced, ?_, compileEnum_stack.trans h.stack, ?_, fun p o ho => h.unions p o (hunions p o ho),
    fun j e id' s' hj hlt => ?_, fun j e id' s' hj hle => ?_, fun j q id' s' hj => ?_⟩
  · rw [compileEnum_infos, decls_setState, h.infos]
  · rw [compileEnum_errors, quiet_append]
    exact ⟨h.quiet, quiet_itemErrors _ _ _⟩
  · rw [compileEnum_infos] at hj
    obtain ⟨s₀, hj', hnew, hkeep⟩ := of_setState hj
    by_cases hkj : k = j
    · subst hkj
      cases hk.symm.trans hj'
      exact ⟨hnew rfl, htype⟩
    · obtain ⟨hdone, htype'⟩ := h.enums j e id' s₀ hj' (by omega)
      refine ⟨(hkeep hkj).symm.trans hdone, fun p hp => ?_⟩
      exact hbuilds.types p _ (h.settled_of_done hj' hp hdone) (htype' p hp)
  · rw [compileEnum_infos] at hj
    obtain ⟨s₀, hj', -, hkeep⟩ := of_setState hj
    exact (hkeep (by omega)).symm.trans (h.later j e id' s₀ hj' (by omega))
  · rw [compileEnum_infos] at hj
    obtain ⟨s₀, hj', -, hkeep⟩ := of_setState hj
    have hkj : k ≠ j := by
      rintro rfl
      cases hk.symm.trans hj'
    exact (hkeep hkj).symm.trans (h.sequences j q id' s₀ hj')

theorem Prepared.sequence {q : SequenceDecl} (h : Prepared ds k st) (hk : st.infos[k]? = some ⟨.sequence q, id, s⟩) :
    Prepared ds (k + 1) st := by
  refine ⟨h.toPlaced, h.infos, h.stack, h.quiet, h.unions, fun j e id' s' hj hlt => ?_,
    fun j e id' s' hj hle => ?_, h.sequences⟩
  · refine h.enums j e id' s' hj (Nat.lt_of_le_of_ne (by omega) ?_)
    rintro rfl
    cases hk.symm.trans hj
  · exact h.later j e id' s' hj (by omega)

theorem compileEnums_enum (hk : st.infos[k]? = some info) :
    compileEnums k (.enum d :: rest) st = compileEnums (k + 1) rest (compileEnum k info d st).2 := by
  simp only [compileEnums, get_bind, hk]
  rfl

theorem compileEnums_sequence {q : SequenceDecl} :
    compileEnums k (.sequence q :: rest) st = compileEnums (k + 1) rest st := rfl

theorem Prepared.run {P : State → Prop} {rest : List Decl} (h : Prepared ds k st) (hrest : ds.drop k = rest) (hst : P st)
    (hstep : ∀ k st e id, Prepared ds k st → st.infos[k]? = some ⟨.enum e, id, .pending⟩ → P st →
      P (compileEnum k ⟨.enum e, id, .pending⟩ e st).2) :
    Prepared ds ds.length (compileEnums k rest st).2 ∧ P (compileEnums k rest st).2 := by
  induction rest generalizing k st with
  | nil =>
    have hle := List.drop_eq_nil_iff.1 hrest
    refine ⟨⟨h.toPlaced, h.infos, h.stack, h.quiet, h.unions, fun j e id' s' hj hlt => ?_,
      fun j e id' s' hj hlt => ?_, h.sequences⟩, hst⟩
    · exact h.enums j e id' s' hj (Nat.lt_of_lt_of_le hlt hle)
    · exact absurd (h.lt hj) (Nat.not_lt.2 hlt)
  | cons d rest ih =>
    obtain ⟨hd, hrest'⟩ := of_drop_eq_cons hrest
    rw [getElem?_decls h.infos, Option.map_eq_some_iff] at hd
    obtain ⟨⟨decl, id, s⟩, hk, rfl⟩ := hd
    cases decl with
    | enum e =>
      obtain rfl := h.later k e id s hk (Nat.le_refl k)
      rw [compileEnums_enum hk]
      exact ih (h.enum hk) hrest' (hstep k st e id h hk hst)
    | sequence q =>
      rw [compileEnums_sequence]
      exact ih (h.sequence hk) hrest' hst

end Prepared

/-- The state in which layout begins. -/
def prepared (name : Bytes) (ds : List Decl) : State := (compileEnums 0 ds (registerAll ds (start name)).2).2

theorem registered_start (name : Bytes) : Registered [] (start name) :=
  ⟨placed_start name, rfl, fun _ _ hi => absurd hi (by simp [start]), rfl, quiet_nil,
    fun _ _ ho => absurd ho (by simp [start, Builder.new, Schema.type?])⟩

theorem prepared_spec (name : Bytes) (ds : List Decl) : Prepared ds ds.length (prepared name ds) :=
  (((registered_start name).registerAll ds).prepared.run (P := fun _ => True) rfl trivial fun _ _ _ _ _ _ h => h).1

theorem Prepared.walk (h : Prepared ds ds.length st) : Walk ds st := by
  refine ⟨h.infos, fun i info e hi he => ?_, fun i => ?_, by simp [h.stack], by simp [h.stack], h.ready⟩
  · obtain ⟨decl, id, s⟩ := info
    cases he
    exact ⟨_, (h.enums i e id s hi (h.lt hi)).1⟩
  · rw [h.stack]
    refine ⟨fun hmem => absurd hmem List.not_mem_nil, ?_⟩
    rintro ⟨⟨decl, id, s⟩, hi, rfl⟩
    cases decl with
    | enum e => cases (h.enums i e id _ hi (h.lt hi)).1
    | sequence q => cases h.sequences i q id _ hi

end Compile

end Flatwire
