import Mathlib.Data.Set.Function
import Flatwire.Proofs.Listing
import Flatwire.Proofs.Reach
import Flatwire.Proofs.Totality

/-! The listing of a compiled schema is canonical. It tells the schema up to the numbers of its types: schemas have the
same listing exactly if they have one name and the types of one are those of the other at other places. -/

namespace Flatwire

namespace Schema

open LayoutText

/-- The types of the second schema are those of the first, at the places that `f` gives them. -/
structure Renumbered (f : TypeId → TypeId) (s s' : Schema) : Prop where
  bijOn : Set.BijOn f (Set.Iio s.types.size) (Set.Iio s'.types.size)
  types : ∀ id < s.types.size, s'.type? (f id) = (s.type? id).map (TypeDef.renumber f)
  decls : s'.decls = s.decls.map f
  oneOfs : s'.oneOfs = s.oneOfs.map f

/-- Everything that needs a block has one, references lead to types, and no type is left over. -/
structure Connected (s : Schema) : Prop extends s.Legible where
  refs : ∀ id t, s.type? id = some t → ∀ ref ∈ t.refs, ref < s.types.size
  listed : ∀ id t, s.type? id = some t → Builder.needsFilling t = true → id ∈ s.decls ++ s.oneOfs
  reach : ∀ id < s.types.size, s.Reach (fun _ => True) (· ∈ s.decls) id

variable {s s' : Schema} {f : TypeId → TypeId} {i j id : TypeId} {n : Bytes} {t t' : TypeDef}

theorem Spelled.typeName_eq (h : s.Spelled id n) (hs : s.Identified) : s.typeName id = n := by
  rw [typeName, hs.typeName?_iff.2 h]
  rfl

theorem Identified.spelled_typeName (hs : s.Identified) (hid : id < s.types.size) : s.Spelled id (s.typeName id) := by
  obtain ⟨n, hn⟩ := hs.exists_spelled hid
  rwa [hn.typeName_eq hs]

theorem Identified.eq_of_typeName (hs : s.Identified) (hi : i < s.types.size) (hj : j < s.types.size)
    (h : s.typeName i = s.typeName j) : i = j :=
  (hs.spelled_typeName hi).injective (h ▸ hs.spelled_typeName hj) hs

theorem Legible.type?_listed (hs : s.Legible) (hid : id ∈ s.decls ++ s.oneOfs) :
    ∃ t, s.type? id = some t ∧ Builder.needsFilling t = true := by
  rcases List.mem_append.1 hid with hid | hid
  · obtain ⟨t, ht, hfill, -⟩ := listed_decl hs hid
    exact ⟨t, ht, hfill⟩
  · obtain ⟨o, ho, -⟩ := listed_union hs hid
    exact ⟨_, ho, rfl⟩

/-! ### Renumbered schemas are listed alike -/

theorem Renumbered.spelled (h : Renumbered f s s') (hid : s.Spelled id n) : s'.Spelled (f id) n := by
  have htypes : ∀ {id t}, s.type? id = some t → s'.type? (f id) = some (t.renumber f) := by
    intro id t ht
    rw [h.types id (type?_lt ht), ht]
    rfl
  induction hid with
  | primitive ht => exact .primitive (htypes ht)
  | string ht => exact .string (htypes ht)
  | list ht _ ih => exact .list (htypes ht) ih
  | enum ht => exact .enum (htypes ht)
  | sequence ht =>
    have ht' := Spelled.sequence (htypes ht)
    exact ht'
  | oneOf ht =>
    have ht' := Spelled.oneOf (htypes ht)
    exact ht'

theorem Renumbered.entry_eq (h : Renumbered f s s') (hs : s.Connected) (hs' : s'.Connected) (hid : id < s.types.size) :
    entry s' (f id) = entry s id := by
  have ht : s.type? id = some s.types[id] := Array.getElem?_eq_getElem hid
  have ht' := h.types id hid
  rw [ht] at ht'
  rw [LayoutText.entry_eq ht, LayoutText.entry_eq ht']
  refine describe_renumber fun ref href => ?_
  have hspelled := hs.spelled_typeName (hs.refs id _ ht ref href)
  exact (h.spelled hspelled).typeName_eq hs'.toIdentified

theorem Renumbered.entries_eq (h : Renumbered f s s') (hs : s.Connected) (hs' : s'.Connected) {ids : List TypeId}
    (hids : ∀ id ∈ ids, id ∈ s.decls ++ s.oneOfs) : (ids.map f).map (entry s') = ids.map (entry s) := by
  rw [List.map_map]
  refine List.map_congr_left fun id hid => ?_
  obtain ⟨t, ht, -⟩ := hs.type?_listed (hids id hid)
  exact h.entry_eq hs hs' (type?_lt ht)

/-! ### Schemas that are listed alike are renumbered -/

theorem typeName_of_skeleton (hs : s.Identified) (hs' : s'.Identified) (ht : s.type? i = some t)
    (ht' : s'.type? j = some t') (hfill : Builder.needsFilling t = true) (h : t.skeleton = t'.skeleton) :
    s.typeName i = s'.typeName j := by
  cases t with
  | primitive | string | list => cases hfill
  | enum e =>
    cases t' <;> cases h
    rw [(Spelled.enum ht).typeName_eq hs, (Spelled.enum ht').typeName_eq hs']
  | sequence q =>
    cases t' with
    | sequence q' =>
      obtain ⟨hname, -⟩ := SequenceType.mk.inj (TypeDef.sequence.inj h)
      rw [(Spelled.sequence ht).typeName_eq hs, (Spelled.sequence ht').typeName_eq hs', hname]
    | _ => cases h
  | oneOf o =>
    cases t' with
    | oneOf o' =>
      obtain ⟨hpath, -⟩ := OneOfType.mk.inj (TypeDef.oneOf.inj h)
      rw [(Spelled.oneOf ht).typeName_eq hs, (Spelled.oneOf ht').typeName_eq hs', hpath]
    | _ => cases h

/-- The types at two places are the same but for the places in them, and these have the same forms. -/
def Twins (s s' : Schema) (i j : TypeId) : Prop :=
  ∃ t t', s.type? i = some t ∧ s'.type? j = some t' ∧ t.skeleton = t'.skeleton ∧
    t.refs.map s.typeName = t'.refs.map s'.typeName

theorem twins_of_entry (hs : s.Legible) (hs' : s'.Legible) (hi : i ∈ s.decls ++ s.oneOfs)
    (hj : j ∈ s'.decls ++ s'.oneOfs) (h : entry s i = entry s' j) : Twins s s' i j ∧ s.typeName i = s'.typeName j := by
  obtain ⟨t, ht, hfill⟩ := hs.type?_listed hi
  obtain ⟨t', ht', hfill'⟩ := hs'.type?_listed hj
  rw [LayoutText.entry_eq ht, LayoutText.entry_eq ht'] at h
  obtain ⟨hskeleton, hforms⟩ := describe_inj hs hs' ht ht' hfill hfill' h
  exact ⟨⟨t, t', ht, ht', hskeleton, hforms⟩,
    typeName_of_skeleton hs.toIdentified hs'.toIdentified ht ht' hfill hskeleton⟩

/-- The schemas list the same. -/
structure ListedAlike (s s' : Schema) : Prop where
  decls : s.decls.map (entry s) = s'.decls.map (entry s')
  oneOfs : s.oneOfs.map (entry s) = s'.oneOfs.map (entry s')

theorem ListedAlike.symm (h : ListedAlike s s') : ListedAlike s' s := ⟨h.decls.symm, h.oneOfs.symm⟩

theorem ListedAlike.exists_entry (h : ListedAlike s s') (hi : i ∈ s.decls ++ s.oneOfs) :
    ∃ j ∈ s'.decls ++ s'.oneOfs, entry s i = entry s' j := by
  have hmem : entry s i ∈ (s.decls ++ s.oneOfs).map (entry s) := List.mem_map_of_mem hi
  rw [List.map_append, h.decls, h.oneOfs, ← List.map_append] at hmem
  obtain ⟨j, hj, heq⟩ := List.mem_map.1 hmem
  exact ⟨j, hj, heq.symm⟩

section Alike

variable (hs : s.Connected) (hs' : s'.Connected) (h : ListedAlike s s')

include hs hs' h

theorem ListedAlike.twins (hi : i < s.types.size) (hj : j < s'.types.size) (hform : s.typeName i = s'.typeName j) :
    Twins s s' i j := by
  have ht : s.type? i = some s.types[i] := Array.getElem?_eq_getElem hi
  cases hfill : Builder.needsFilling s.types[i] with
  | true =>
    obtain ⟨k, hk, hentry⟩ := h.exists_entry (hs.listed i _ ht hfill)
    obtain ⟨htwins, hform'⟩ := twins_of_entry hs.toLegible hs'.toLegible (hs.listed i _ ht hfill) hk hentry
    obtain ⟨u, hu, -⟩ := hs'.type?_listed hk
    obtain rfl := hs'.eq_of_typeName (type?_lt hu) hj (hform'.symm.trans hform)
    exact htwins
  | false =>
    have hspelled := hs.spelled_typeName hi
    cases hspelled.alike (hform ▸ hs'.spelled_typeName hj) hs.toIdentified hs'.toIdentified with
    | @builtin t hbuiltin hlist hi hj =>
      have hrefs : t.refs = [] := by
        cases t with
        | primitive | string => rfl
        | list e => exact absurd rfl (hlist e)
        | enum | sequence | oneOf => cases hbuiltin
      exact ⟨t, t, hi, hj, rfl, by rw [hrefs]; rfl⟩
    | declared hname _ =>
      obtain ⟨t, hi, hname⟩ := Option.bind_eq_some_iff.1 hname
      cases ht.symm.trans hi
      rw [(Builder.of_not_needsFilling hfill).1] at hname
      cases hname
    | list hi hj he he' =>
      refine ⟨_, _, hi, hj, rfl, ?_⟩
      simp only [TypeDef.refs, List.map_cons, List.map_nil, he.typeName_eq hs.toIdentified,
        he'.typeName_eq hs'.toIdentified]
    | oneOf hi _ _ =>
      rw [Option.some.inj (ht.symm.trans hi)] at hfill
      cases hfill

theorem ListedAlike.exists_twin (hi : i < s.types.size) : ∃ j < s'.types.size, s.typeName i = s'.typeName j := by
  -- along the references that lead to the type
  induction hs.reach i hi with
  | root hid =>
    obtain ⟨j, hj, hentry⟩ := h.exists_entry (List.mem_append_left _ hid)
    obtain ⟨t, ht, -⟩ := hs'.type?_listed hj
    exact ⟨j, type?_lt ht, (twins_of_entry hs.toLegible hs'.toLegible (List.mem_append_left _ hid) hj hentry).2⟩
  | ref _ _ ht hid ih =>
    obtain ⟨j, hj, hform⟩ := ih (type?_lt ht)
    obtain ⟨t, t', hi', hj', -, hforms⟩ := h.twins hs hs' (type?_lt ht) hj hform
    cases ht.symm.trans hi'
    have hmem := List.mem_map_of_mem (f := s.typeName) hid
    rw [hforms] at hmem
    obtain ⟨k, hk, heq⟩ := List.mem_map.1 hmem
    exact ⟨k, hs'.refs j t' hj' k hk, heq.symm⟩

theorem ListedAlike.exists_renumbered : ∃ f, Renumbered f s s' := by
  have hchoice : ∀ i, ∃ j, i < s.types.size → j < s'.types.size ∧ s.typeName i = s'.typeName j := by
    intro i
    by_cases hi : i < s.types.size
    · obtain ⟨j, hj⟩ := h.exists_twin hs hs' hi
      exact ⟨j, fun _ => hj⟩
    · exact ⟨0, fun hlt => absurd hlt hi⟩
  choose f hf using hchoice
  have hunique : ∀ i j, i < s.types.size → j < s'.types.size → s.typeName i = s'.typeName j → f i = j := by
    intro i j hi hj hform
    exact hs'.eq_of_typeName (hf i hi).1 hj ((hf i hi).2.symm.trans hform)
  have hlists : ∀ ids ids' : List TypeId, (∀ i ∈ ids, i ∈ s.decls ++ s.oneOfs) →
      (∀ j ∈ ids', j ∈ s'.decls ++ s'.oneOfs) → ids.map (entry s) = ids'.map (entry s') → ids' = ids.map f := by
    intro ids ids' hids hids' hentries
    have heq : ids.map f = ids'.map id := by
      refine TypeDef.map_eq_map_of hentries fun i hi j hj hentry => ?_
      obtain ⟨t, ht, -⟩ := hs.type?_listed (hids i hi)
      obtain ⟨t', ht', -⟩ := hs'.type?_listed (hids' j hj)
      exact hunique i j (type?_lt ht) (type?_lt ht')
        (twins_of_entry hs.toLegible hs'.toLegible (hids i hi) (hids' j hj) hentry).2
    rw [heq, List.map_id]
  refine ⟨f, ⟨fun i hi => (hf i hi).1, fun i hi j hj heq => ?_, fun j hj => ?_⟩, fun i hi => ?_, ?_, ?_⟩
  · refine hs.eq_of_typeName hi hj ?_
    rw [(hf i hi).2, heq, (hf j hj).2]
  · obtain ⟨i, hi, hform⟩ := h.symm.exists_twin hs' hs hj
    exact ⟨i, hi, hunique i j hi hj hform.symm⟩
  · obtain ⟨t, t', ht, ht', hskeleton, hforms⟩ := h.twins hs hs' hi (hf i hi).1 (hf i hi).2
    have hrefs : t.refs.map f = t'.refs.map id := by
      refine TypeDef.map_eq_map_of hforms fun r hr r' hr' hform => ?_
      exact hunique r r' (hs.refs i t ht r hr) (hs'.refs (f i) t' ht' r' hr') hform
    rw [List.map_id] at hrefs
    rw [ht, ht', Option.map_some, TypeDef.eq_renumber hskeleton hrefs.symm]
  · exact hlists _ _ (fun i hi => List.mem_append_left _ hi) (fun j hj => List.mem_append_left _ hj) h.decls
  · exact hlists _ _ (fun i hi => List.mem_append_right _ hi) (fun j hj => List.mem_append_right _ hj) h.oneOfs

end Alike

theorem Connected.layoutText_eq_iff (hs : s.Connected) (hs' : s'.Connected) :
    s.layoutText = s'.layoutText ↔ s.name = s'.name ∧ ∃ f, Renumbered f s s' := by
  rw [LayoutText.layoutText_eq_iff hs.toLegible hs'.toLegible]
  refine and_congr_right fun _ => ⟨fun h => ListedAlike.exists_renumbered hs hs' ⟨h.1, h.2⟩, ?_⟩
  rintro ⟨f, hf⟩
  rw [hf.decls, hf.oneOfs]
  exact ⟨(hf.entries_eq hs hs' fun id hid => List.mem_append_left _ hid).symm,
    (hf.entries_eq hs hs' fun id hid => List.mem_append_right _ hid).symm⟩

end Schema

/-! ### Compiled schemas -/

theorem Schema.AreVariants.names {s : Schema} {path : List Bytes} {tag : Nat} {variants : FieldList} {vs : List Variant}
    (h : s.AreVariants path tag variants vs) (hnames : AllNames variants.forms.names) :
    AllNames (vs.map Variant.name) := by
  induction variants using FieldList.induction generalizing tag vs with
  | nil =>
    cases h
    exact fun n hn => absurd hn List.not_mem_nil
  | cons f gap rest ih =>
    cases h with
    | cons hname _ _ hrest =>
      have hf := hnames _ (FieldList.mem_names (f := f) List.mem_cons_self).1
      refine List.forall_mem_cons.2 ⟨hname ▸ hf, ih hrest fun n hn => hnames n ?_⟩
      obtain ⟨⟩ := f
      exact List.mem_cons_of_mem _ (List.mem_append_right _ hn)

namespace Compile

variable {ds : List Decl} {st : State}

theorem AreFields.names_eq {s : Schema} {q : Bytes} {fs : List FieldExpr} {gs : List Field} (h : AreFields s q fs gs) :
    gs.map Field.name = fs.map fun f => f.name.text := by
  induction h with
  | nil => rfl
  | cons hfield _ ih => rw [List.map_cons, List.map_cons, hfield.1, ih]

theorem Compiled.memberNames {d : Decl} {t : TypeDef} (h : Compiled st d t) (hnames : AllNames d.form.names) :
    AllNames t.memberNames := by
  have htail : AllNames d.form.names.tail := fun n hn => hnames n (List.mem_of_mem_tail hn)
  cases d with
  | enum e =>
    cases h
    refine List.forall_mem_map.2 fun v hv => ?_
    obtain ⟨item, hitem, rfl⟩ := List.mem_map.1 hv
    exact htail _ (List.mem_map_of_mem (List.mem_map_of_mem hitem))
  | sequence d =>
    obtain ⟨gs, off, rfl, -, hlaid⟩ := h
    have hfields : AllNames (d.fields.map fun f => f.name.text) :=
      List.forall_mem_map.2 fun f hf => htail _ (FieldList.mem_names hf).1
    rw [TypeDef.memberNames, hlaid.areFields.names_eq]
    exact hfields

theorem connected_of_compile {src : Bytes} {keep : Bool} {tree : SchemaTree} {name : Bytes} {s : Schema}
    (hparse : SchemaTree.parse src keep = .ok tree) (hschema : (compile tree name).schema = some s) : s.Connected := by
  have hidentified := identified_of_compile hparse hschema
  have hreach : ∀ id < s.types.size, _ := fun id => Schema.reach_of_compile hschema
  obtain ⟨haccepted, heq⟩ := compile_accepted (errors_of_schema hschema)
  cases hschema.symm.trans heq
  have hnames := SchemaTree.parse_names hparse
  have hclosed := closed_compileDecls tree.decls name
  generalize (compileDecls tree.decls (start name)).2 = st at *
  have hmembers : ∀ id t, st.builder.schema.type? id = some t → AllNames t.memberNames := by
    intro id t ht
    cases t with
    | primitive | string | list => exact fun n hn => absurd hn List.not_mem_nil
    | enum e =>
      obtain ⟨d, hd, hcompiled⟩ := haccepted.exists_compiled hclosed ht (by simp [TypeDef.declName?])
      exact hcompiled.memberNames (hnames d hd)
    | sequence q =>
      obtain ⟨d, hd, hcompiled⟩ := haccepted.exists_compiled hclosed ht (by simp [TypeDef.declName?])
      exact hcompiled.memberNames (hnames d hd)
    | oneOf o =>
      obtain ⟨-, -, vs, hvs, hvariants⟩ := haccepted.union_names hnames ht
      exact hvs.names hvariants
  have hnamed : ∀ id ∈ st.builder.schema.decls, st.builder.schema.declName? id ≠ none := by
    intro id hid
    obtain ⟨i, hi⟩ := List.getElem?_of_mem hid
    obtain ⟨d, -, -, hname⟩ := haccepted.exists_decl hi
    simp [hname]
  refine ⟨⟨hidentified, hmembers, hnamed, fun id => (haccepted.mem_oneOfs id).1⟩, haccepted.refs hclosed,
    fun id t ht hfill => ?_, hreach⟩
  cases t with
  | primitive | string | list => cases hfill
  | enum | sequence => exact List.mem_append_left _ ((hclosed id _ ht).2 (by simp [TypeDef.declName?]))
  | oneOf o => exact List.mem_append_right _ ((haccepted.mem_oneOfs id).2 ⟨o, ht⟩)

end Compile

/-- Compiled schemas have the same listing if and only if they have the same name and are the same up to the numbers of
their types: there is a one-to-one map between the types that keeps declarations and unions in order, and everything in
each type but the numbers. -/
theorem Schema.layoutText_canonical {src src' : Bytes} {keep keep' : Bool} {tree tree' : SchemaTree}
    {name name' : Bytes} {s s' : Schema} (hparse : SchemaTree.parse src keep = .ok tree)
    (hschema : (compile tree name).schema = some s) (hparse' : SchemaTree.parse src' keep' = .ok tree')
    (hschema' : (compile tree' name').schema = some s') :
    s.layoutText = s'.layoutText ↔ s.name = s'.name ∧ ∃ f, Renumbered f s s' :=
  (Compile.connected_of_compile hparse hschema).layoutText_eq_iff (Compile.connected_of_compile hparse' hschema')

/-- Two ways to write one schema have the same listing, whatever the comments and the base of the numbers. With another
width somewhere the schemas are not the same up to numbers. -/
theorem Schema.layoutText_canonical_sample :
    let src := Bytes.ofString "enum E{x=0x10;}sequence A{e:[E];u:oneof{a:A;l:[[u8]];};}"
    let spaced := Bytes.ofString "enum E { x = 16; } // one\nsequence A { e: [E]; u: oneof { a: A; l: [[u8]]; }; }"
    let wider := Bytes.ofString "enum E{x=0x10;}sequence A{e:[E];u:oneof{a:A;l:[[u16]];};}"
    ∃ tree₁ tree₂ tree₃ s₁ s₂ s₃, SchemaTree.parse src false = .ok tree₁ ∧ SchemaTree.parse spaced true = .ok tree₂ ∧
      SchemaTree.parse wider false = .ok tree₃ ∧ (compile tree₁ "s").schema = some s₁ ∧
      (compile tree₂ "s").schema = some s₂ ∧ (compile tree₃ "s").schema = some s₃ ∧
      (∃ f, Renumbered f s₁ s₂) ∧ s₁.name = s₃.name ∧ ¬ ∃ f, Renumbered f s₁ s₃ := by
  intro src spaced wider
  let text (elem : String) : String := "schema \"s\"\nenum E \x7b\n\twidth = 1\n\tx = 16\n\x7d\nsequence A \x7b\n" ++
    "\tstatic_size = 7\n\te: [E] @ 0\n\tu: oneof A::u @ 4\n\x7d\noneof A::u \x7b\n\ta: A = 0\n\tl: [[" ++ elem ++
    "]] = 1\n\x7d\n"
  let lists (tree : SchemaTree) (elem : String) : Bool := (compile tree "s").schema.any fun s =>
    s.name == Bytes.ofString "s" && s.layoutText == Bytes.ofString (text elem)
  have hlists : ∀ tree elem, lists tree elem = true → ∃ s, (compile tree "s").schema = some s ∧
      s.name = Bytes.ofString "s" ∧ s.layoutText = Bytes.ofString (text elem) := by
    intro tree elem h
    obtain ⟨s, hs, heq⟩ := (Option.any_eq_true ..).1 h
    rw [Bool.and_eq_true, beq_iff_eq, beq_iff_eq] at heq
    exact ⟨s, hs, heq⟩
  obtain ⟨tree₁, htree₁, h₁⟩ : ∃ tree, SchemaTree.parse src false = .ok tree ∧ lists tree "u8" = true :=
    SchemaTree.exists_parse (by decide +kernel)
  obtain ⟨tree₂, htree₂, h₂⟩ : ∃ tree, SchemaTree.parse spaced true = .ok tree ∧ lists tree "u8" = true :=
    SchemaTree.exists_parse (by decide +kernel)
  obtain ⟨tree₃, htree₃, h₃⟩ : ∃ tree, SchemaTree.parse wider false = .ok tree ∧ lists tree "u16" = true :=
    SchemaTree.exists_parse (by decide +kernel)
  obtain ⟨s₁, hs₁, hname₁, htext₁⟩ := hlists tree₁ "u8" h₁
  obtain ⟨s₂, hs₂, hname₂, htext₂⟩ := hlists tree₂ "u8" h₂
  obtain ⟨s₃, hs₃, hname₃, htext₃⟩ := hlists tree₃ "u16" h₃
  have hother : Bytes.ofString (text "u8") ≠ Bytes.ofString (text "u16") := by decide +kernel
  refine ⟨tree₁, tree₂, tree₃, s₁, s₂, s₃, htree₁, htree₂, htree₃, hs₁, hs₂, hs₃, ?_, hname₁.trans hname₃.symm, ?_⟩
  · exact ((layoutText_canonical htree₁ hs₁ htree₂ hs₂).1 (htext₁.trans htext₂.symm)).2
  · intro hsame
    have htext := (layoutText_canonical htree₁ hs₁ htree₃ hs₃).2 ⟨hname₁.trans hname₃.symm, hsame⟩
    exact hother (htext₁.symm.trans (htext.trans htext₃))

end Flatwire
