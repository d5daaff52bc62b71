import Flatwire.Proofs.Effects
import Flatwire.Proofs.Endings
import Flatwire.Proofs.Portability

/-! The check for reserved words looks at every name of a compiled schema. Unions are reached from the fields of the
sequences by way of lists and of other unions, each under the path that the schema keeps for it, so going through the
declarations in order comes by all of them, and the first name that is reserved is the one that is told. -/

namespace Flatwire

namespace Schema

/-! ### Names in order -/

/-- The names of the variants under a type, each under the path that leads to it and before those nested under it. -/
inductive NamesUnder (s : Schema) : TypeId → List Bytes → List SchemaName → Prop where
  | list {id elem path ns} : s.type? id = some (.list elem) → NamesUnder s elem path ns → NamesUnder s id path ns
  | oneOf {id o path} (under : Variant → List SchemaName) : s.type? id = some (.oneOf o) →
      (∀ v ∈ o.variants, NamesUnder s v.type (path ++ [v.name]) (under v)) →
      NamesUnder s id path (o.variants.flatMap fun v => ⟨.oneOfVariant, path ++ [v.name]⟩ :: under v)
  | other {id path} : (∀ elem, s.type? id ≠ some (.list elem)) → (∀ o, s.type? id ≠ some (.oneOf o)) →
      NamesUnder s id path []

/-- The names of the enums, each with those of its variants, and then the names of the sequences, each with those of its
fields, and behind each field the names of the variants under it. -/
def InOrder (s : Schema) (ns : List SchemaName) : Prop :=
  ∃ under : SequenceType → Field → List SchemaName,
    (∀ p ∈ s.sequences, ∀ f ∈ p.2.fields, s.NamesUnder f.type [p.2.name, f.name] (under p.2 f)) ∧
    ns = (s.enums.flatMap fun p =>
        ⟨.enum, [p.2.name]⟩ :: p.2.variants.map fun v => ⟨.enumVariant, [p.2.name, v.name]⟩) ++
      s.sequences.flatMap fun p => ⟨.sequence, [p.2.name]⟩ :: p.2.fields.flatMap fun f =>
        ⟨.field, [p.2.name, f.name]⟩ :: under p.2 f

/-- The names of a schema, those of the variants by way of the unions that it lists. -/
inductive HasName (s : Schema) : SchemaName → Prop where
  | enum {p} : p ∈ s.enums → HasName s ⟨.enum, [p.2.name]⟩
  | enumVariant {p v} : p ∈ s.enums → v ∈ p.2.variants → HasName s ⟨.enumVariant, [p.2.name, v.name]⟩
  | sequence {p} : p ∈ s.sequences → HasName s ⟨.sequence, [p.2.name]⟩
  | field {p f} : p ∈ s.sequences → f ∈ p.2.fields → HasName s ⟨.field, [p.2.name, f.name]⟩
  | oneOfVariant {p v} : p ∈ s.unions → v ∈ p.2.variants → HasName s ⟨.oneOfVariant, p.2.path ++ [v.name]⟩

/-! ### Searching -/

section Searching

variable {s : Schema} {word? : Bytes → Option Bytes} {ns : List SchemaName}

theorem orElse_findSome? {α β : Type} {pick? : α → Option β} {xs ys : List α} {a : Search β} {f : Unit → Search β}
    (ha : a = some (xs.findSome? pick?)) (hf : f () = some (ys.findSome? pick?)) :
    Search.orElse a f = some ((xs ++ ys).findSome? pick?) := by
  rw [List.findSome?_append, ha]
  cases xs.findSome? pick? with
  | none => exact hf
  | some b => rfl

theorem searchEach_findSome? {α β γ : Type} {pick? : γ → Option β} {names : α → List γ} {f : α → Search β}
    {xs : List α} (h : ∀ x ∈ xs, f x = some ((names x).findSome? pick?)) :
    searchEach f xs = some ((xs.flatMap names).findSome? pick?) := by
  induction xs with
  | nil => rfl
  | cons x xs ih =>
    rw [List.forall_mem_cons] at h
    exact orElse_findSome? h.1 (ih h.2)

theorem tryName_findSome? (n : SchemaName) : tryName word? n = some ([n].findSome? (reservedAs? word?)) := by
  rw [List.findSome?_singleton]
  rfl

/-- Below a type the search goes through the names in order. Some depth is enough, and so is that of the search. -/
theorem NamesUnder.search {id : TypeId} {path : List Bytes} (h : s.NamesUnder id path ns) :
    searchVariants s word? (s.types.size + 1) id path = some (ns.findSome? (reservedAs? word?)) := by
  induction h with
  | list ht _ ih =>
    refine searchVariants_le (s.types.size + 2) _ _ _ ?_
    rw [searchVariants_list ht, ih]
  | oneOf under ht _ ih =>
    refine searchVariants_le (s.types.size + 2) _ _ _ ?_
    rw [searchVariants_oneOf ht]
    exact searchEach_findSome? fun v hv => orElse_findSome? (tryName_findSome? _) (ih v hv)
  | other hlist hone => exact searchVariants_of_not_nests hlist hone _ _

theorem InOrder.search (h : s.InOrder ns) :
    searchNames s word? (s.types.size + 1) = some (ns.findSome? (reservedAs? word?)) := by
  obtain ⟨under, hunder, rfl⟩ := h
  refine orElse_findSome? (searchEach_findSome? fun p _ => ?_) (searchEach_findSome? fun p hp => ?_)
  · refine (searchEach_findSome? fun n _ => tryName_findSome? n).trans ?_
    rw [List.flatMap_singleton']
  · refine orElse_findSome? (tryName_findSome? _) (searchEach_findSome? fun f hf => ?_)
    exact orElse_findSome? (tryName_findSome? _) (hunder p hp f hf).search

theorem InOrder.checkReserved? [Libraries] (h : s.InOrder ns) (words : List Bytes) :
    s.checkReserved? words = some (ns.findSome? (reservedAs? (matchedWord? words))) := by
  rw [checkReserved?_eq]
  split_ifs with hempty
  · rw [List.isEmpty_iff.1 hempty]
    exact congrArg some (List.findSome?_eq_none_iff.2 fun n _ => rfl).symm
  · exact h.search

end Searching

/-! ### Words -/

section Words

variable [Libraries]

theorem matchedWord?_eq_find? (words : List Bytes) (name : Bytes) :
    matchedWord? words name = words.find? fun w => Text.snakeCase w = Text.snakeCase name := by
  rw [matchedWord?, reservedWord?, List.find?_map, Option.map_map]
  exact Option.map_id'

theorem matchedWord?_eq_none {words : List Bytes} {name : Bytes} :
    matchedWord? words name = none ↔ ∀ w ∈ words, Text.snakeCase w ≠ Text.snakeCase name := by
  rw [matchedWord?_eq_find?, List.find?_eq_none]
  simp

/-- None of the words has the name's snake case. -/
def Unreserved (words : List Bytes) (n : SchemaName) : Prop := ∀ w ∈ words, Text.snakeCase w ≠ Text.snakeCase n.name

/-- The word is the first of the list with the name's snake case. -/
def IsFirstMatch (words : List Bytes) (name word : Bytes) : Prop :=
  ∃ earlier later, words = earlier ++ word :: later ∧ Text.snakeCase word = Text.snakeCase name ∧
    ∀ w ∈ earlier, Text.snakeCase w ≠ Text.snakeCase name

theorem matchedWord?_eq_some {words : List Bytes} {name word : Bytes} :
    matchedWord? words name = some word ↔ IsFirstMatch words name word := by
  rw [matchedWord?_eq_find?, List.find?_eq_some_iff_append]
  simp only [IsFirstMatch, decide_eq_true_eq, Bool.not_eq_true', decide_eq_false_iff_not]
  constructor
  · rintro ⟨hword, earlier, later, hwords, hearlier⟩
    exact ⟨earlier, later, hwords, hword, hearlier⟩
  · rintro ⟨earlier, later, hwords, hword, hearlier⟩
    exact ⟨hword, earlier, later, hwords, hearlier⟩

end Words

/-! ### What the source says -/

/-- In the expression, at the given path, stands a union with a variant of the given name. -/
def VariantIn (path : List Bytes) (type : TypeExpr) (n : SchemaName) : Prop :=
  ∃ p vs f, OneOfIn path type p vs ∧ f ∈ vs.toList ∧ n = ⟨.oneOfVariant, p ++ [f.name.text]⟩

section

variable {path : List Bytes} {n : SchemaName} {span : Span} {ident keyword opening closing : Lexeme} {gap₁ gap₂ : Gap}

theorem not_variantIn_name : ¬ VariantIn path (.name ident) n := by
  rintro ⟨p, vs, f, hin, -⟩
  cases hin

theorem variantIn_list_iff {elem : TypeExpr} :
    VariantIn path (.list span opening gap₁ elem gap₂ closing) n ↔ VariantIn path elem n := by
  constructor
  · rintro ⟨p, vs, f, hin, hf⟩
    cases hin with
    | list hin => exact ⟨p, vs, f, hin, hf⟩
  · rintro ⟨p, vs, f, hin, hf⟩
    exact ⟨p, vs, f, .list hin, hf⟩

theorem variantIn_oneOf_iff {variants : FieldList} :
    VariantIn path (.oneOf span keyword gap₁ opening gap₂ variants closing) n ↔ ∃ f ∈ variants.toList,
      n = ⟨.oneOfVariant, path ++ [f.name.text]⟩ ∨ VariantIn (path ++ [f.name.text]) f.type n := by
  constructor
  · rintro ⟨p, us, g, hin, hg, rfl⟩
    cases hin with
    | here => exact ⟨g, hg, .inl rfl⟩
    | variant hf hin => exact ⟨_, hf, .inr ⟨p, us, g, hin, hg, rfl⟩⟩
  · rintro ⟨f, hf, rfl | ⟨p, us, g, hin, hg⟩⟩
    · exact ⟨path, variants, f, .here, hf, rfl⟩
    · exact ⟨p, us, g, .variant hf hin, hg⟩

end

variable {s : Schema} {id : TypeId} {path : List Bytes} {ns : List SchemaName}

theorem NamesUnder.of_list {elem : TypeId} (h : s.NamesUnder id path ns)
    (ht : s.type? id = some (.list elem)) : s.NamesUnder elem path ns := by
  cases h with
  | list ht' h =>
    cases ht.symm.trans ht'
    exact h
  | oneOf _ ht' => cases ht.symm.trans ht'
  | other hlist => exact absurd ht (hlist _)

theorem NamesUnder.of_oneOf {o : OneOfType} (h : s.NamesUnder id path ns) (ht : s.type? id = some (.oneOf o)) :
    ∃ under : Variant → List SchemaName, (∀ v ∈ o.variants, s.NamesUnder v.type (path ++ [v.name]) (under v)) ∧
      ns = o.variants.flatMap fun v => ⟨.oneOfVariant, path ++ [v.name]⟩ :: under v := by
  cases h with
  | list ht' => cases ht.symm.trans ht'
  | oneOf under ht' hunder =>
    cases ht.symm.trans ht'
    exact ⟨under, hunder, rfl⟩
  | other _ hone => exact absurd ht (hone _)

/-- A name stands for a type with nothing under it: declared types are enums and sequences. -/
theorem Denotes.name_other {path : List Bytes} {ident : Lexeme} {id : TypeId} (h : s.Denotes path (.name ident) id) :
    (∀ elem, s.type? id ≠ some (.list elem)) ∧ ∀ o, s.type? id ≠ some (.oneOf o) := by
  cases h with
  | primitive _ ht | string _ ht =>
    rw [ht]
    exact ⟨nofun, nofun⟩
  | declared _ hlookup =>
    have hname : (s.type? id).bind TypeDef.declName? = some ident.text := by
      simpa using List.find?_some hlookup
    refine ⟨fun elem ht => ?_, fun o ht => ?_⟩ <;> rw [ht] at hname <;> cases hname

theorem exists_namesUnder :
    (∀ type path id, s.Denotes path type id → ∃ ns, s.NamesUnder id path ns) ∧
    ∀ variants path tag vs, s.AreVariants path tag variants vs →
      ∀ v ∈ vs, ∃ ns, s.NamesUnder v.type (path ++ [v.name]) ns := by
  apply TypeExpr.induction
  case name =>
    intro ident path id h
    exact ⟨[], .other h.name_other.1 h.name_other.2⟩
  case list =>
    intro _ _ _ elem _ _ ih path id h
    cases h with
    | list he ht =>
      obtain ⟨ns, hns⟩ := ih _ _ he
      exact ⟨ns, .list ht hns⟩
  case oneOf =>
    intro _ _ _ _ _ variants _ ih path id h
    cases h with
    | oneOf ht hvs =>
      choose! under hunder using ih _ _ _ hvs
      exact ⟨_, .oneOf under ht hunder⟩
  case nil =>
    intro path tag vs h
    cases h
    exact nofun
  case cons =>
    intro f gap rest ihType ihRest path tag vs h
    cases h with
    | cons hname _ htype hrest =>
      rw [List.forall_mem_cons, hname]
      exact ⟨ihType _ _ htype, ihRest _ _ _ hrest⟩

theorem mem_namesUnder_iff :
    (∀ type path id ns, s.Denotes path type id → s.NamesUnder id path ns → ∀ n, n ∈ ns ↔ VariantIn path type n) ∧
    ∀ variants path tag vs (under : Variant → List SchemaName), s.AreVariants path tag variants vs →
      (∀ v ∈ vs, s.NamesUnder v.type (path ++ [v.name]) (under v)) →
      ∀ n, n ∈ vs.flatMap (fun v => ⟨.oneOfVariant, path ++ [v.name]⟩ :: under v) ↔
        ∃ f ∈ variants.toList,
          n = ⟨.oneOfVariant, path ++ [f.name.text]⟩ ∨ VariantIn (path ++ [f.name.text]) f.type n := by
  apply TypeExpr.induction
  case name =>
    intro ident path id ns h hns n
    obtain ⟨hlist, hone⟩ := h.name_other
    cases hns with
    | list ht => exact absurd ht (hlist _)
    | oneOf _ ht => exact absurd ht (hone _)
    | other => exact iff_of_false nofun not_variantIn_name
  case list =>
    intro _ _ _ elem _ _ ih path id ns h hns n
    cases h with
    | list he ht =>
      rw [variantIn_list_iff]
      exact ih _ _ _ he (hns.of_list ht) n
  case oneOf =>
    intro _ _ _ _ _ variants _ ih path id ns h hns n
    cases h with
    | oneOf ht hvs =>
      obtain ⟨under, hunder, rfl⟩ := hns.of_oneOf ht
      rw [variantIn_oneOf_iff]
      exact ih _ _ _ under hvs hunder n
  case nil =>
    intro path tag vs under h _ n
    cases h
    simp [FieldList.toList]
  case cons =>
    intro f gap rest ihType ihRest path tag vs under h hunder n
    cases h with
    | cons hname _ htype hrest =>
      rw [List.forall_mem_cons, hname] at hunder
      rw [List.flatMap_cons, List.mem_append, List.mem_cons, hname, ihRest _ _ _ under hrest hunder.2,
        ihType _ _ _ htype hunder.1, FieldList.toList, List.exists_mem_cons_iff]

theorem AreVariants.forall₂ {path : List Bytes} {tag : Nat} {variants : FieldList} {vs : List Variant}
    (h : s.AreVariants path tag variants vs) :
    List.Forall₂ (fun f v => v.name = f.name.text ∧ s.Denotes (path ++ [f.name.text]) f.type v.type)
      variants.toList vs := by
  induction variants using FieldList.induction generalizing tag vs with
  | nil =>
    cases h
    exact .nil
  | cons f gap rest ih =>
    cases h with
    | cons hname _ htype hrest => exact .cons ⟨hname, htype⟩ (ih hrest)

theorem OneOfIn.exists_union {path p : List Bytes} {type : TypeExpr} {vs : FieldList} (h : OneOfIn path type p vs)
    {id : TypeId} (hid : s.Denotes path type id) :
    ∃ place us, s.type? place = some (.oneOf ⟨p, us⟩) ∧ s.AreVariants p 0 vs us := by
  induction h generalizing id with
  | here =>
    cases hid with
    | oneOf ht hvs => exact ⟨id, _, ht, hvs⟩
  | list _ ih =>
    cases hid with
    | list he _ => exact ih he
  | variant hf _ ih =>
    cases hid with
    | oneOf _ hvs =>
      obtain ⟨v, -, -, hv⟩ := exists_mem_of_forall₂ hvs.forall₂ hf
      exact ih hv

end Schema

/-! ### Compiled schemas -/

namespace Compile

variable {ds : List Decl} {st : State} {n : SchemaName}

section Accepted

variable (h : Accepted ds st)

include h

theorem Accepted.decl_of_sequence {p : TypeId × SequenceType} (hp : p ∈ st.builder.schema.sequences) :
    ∃ (i : Nat) (d : SequenceDecl), ds[i]? = some (.sequence d) ∧ p.2.name = d.name.text ∧
      AreFields st.builder.schema d.name.text d.fields p.2.fields := by
  obtain ⟨hmem, ht⟩ := Schema.mem_sequences.1 hp
  obtain ⟨i, hid⟩ := List.getElem?_of_mem hmem
  obtain ⟨d, hd, -⟩ := h.exists_decl hid
  obtain ⟨id, t, -, hid', -, -, ht', hcompiled⟩ := h.type_of_decl hd
  cases hid.symm.trans hid'
  cases ht.symm.trans ht'
  cases d with
  | enum e => cases hcompiled
  | sequence d =>
    obtain ⟨q, hq, hname, hfields, -⟩ := hcompiled.size_eq
    cases hq
    exact ⟨i, d, hd, hname, hfields⟩

theorem Accepted.exists_sequence {i : Nat} {d : SequenceDecl} (hd : ds[i]? = some (.sequence d)) :
    ∃ p ∈ st.builder.schema.sequences, p.2.name = d.name.text ∧
      AreFields st.builder.schema d.name.text d.fields p.2.fields := by
  obtain ⟨id, t, -, hid, -, -, ht, hcompiled⟩ := h.type_of_decl hd
  obtain ⟨q, rfl, hname, hfields, -⟩ := hcompiled.size_eq
  exact ⟨(id, q), Schema.mem_sequences.2 ⟨List.mem_of_getElem? hid, ht⟩, hname, hfields⟩

theorem Accepted.mem_unions {p : TypeId × OneOfType} :
    p ∈ st.builder.schema.unions ↔ st.builder.schema.type? p.1 = some (.oneOf p.2) := by
  rw [Schema.mem_unions, and_iff_right_iff_imp]
  exact fun ht => (h.mem_oneOfs p.1).2 ⟨p.2, ht⟩

theorem Accepted.exists_inOrder : ∃ ns, st.builder.schema.InOrder ns := by
  have hunder : ∀ q f, (∃ id, (id, q) ∈ st.builder.schema.sequences) → f ∈ q.fields →
      ∃ ns, st.builder.schema.NamesUnder f.type [q.name, f.name] ns := by
    rintro q f ⟨id, hq⟩ hf
    obtain ⟨i, d, -, hname, hfields⟩ := h.decl_of_sequence hq
    obtain ⟨e, -, he, hdenotes⟩ := exists_mem_of_forall₂ hfields.flip hf
    rw [he, hname]
    exact Schema.exists_namesUnder.1 _ _ _ hdenotes
  choose! under hunder using hunder
  exact ⟨_, under, fun p hp f hf => hunder p.2 f ⟨p.1, hp⟩ hf, rfl⟩

/-- A variant has a name in the schema exactly if it is written under a field: unions come from nowhere else. -/
theorem Accepted.hasName_oneOfVariant :
    (∃ p ∈ st.builder.schema.unions, ∃ v ∈ p.2.variants, n = ⟨.oneOfVariant, p.2.path ++ [v.name]⟩) ↔
      ∃ (i : Nat) (d : SequenceDecl), ds[i]? = some (.sequence d) ∧
        ∃ e ∈ d.fields, Schema.VariantIn [d.name.text, e.name.text] e.type n := by
  constructor
  · rintro ⟨p, hp, v, hv, rfl⟩
    obtain ⟨i, d, e, vs, hd, he, hin, hvs⟩ := h.unions p.1 p.2 (h.mem_unions.1 hp)
    obtain ⟨g, hg, hname, -⟩ := exists_mem_of_forall₂ hvs.forall₂.flip hv
    exact ⟨i, d, hd, e, he, p.2.path, vs, g, hin, hg, by rw [hname]⟩
  · rintro ⟨i, d, hd, e, he, path, vs, g, hin, hg, rfl⟩
    obtain ⟨q, -, -, hfields⟩ := h.exists_sequence hd
    obtain ⟨f, -, -, hf⟩ := exists_mem_of_forall₂ hfields he
    obtain ⟨place, us, hplace, hus⟩ := hin.exists_union hf
    obtain ⟨v, hv, hname, -⟩ := exists_mem_of_forall₂ hus.forall₂ hg
    exact ⟨(place, ⟨path, us⟩), h.mem_unions.2 hplace, v, hv, by rw [hname]⟩

theorem Accepted.variantIn_iff {under : SequenceType → Field → List SchemaName}
    (hunder : ∀ p ∈ st.builder.schema.sequences, ∀ f ∈ p.2.fields,
      st.builder.schema.NamesUnder f.type [p.2.name, f.name] (under p.2 f)) :
    (∃ (i : Nat) (d : SequenceDecl), ds[i]? = some (.sequence d) ∧
      ∃ e ∈ d.fields, Schema.VariantIn [d.name.text, e.name.text] e.type n) ↔
      ∃ p ∈ st.builder.schema.sequences, ∃ f ∈ p.2.fields, n ∈ under p.2 f := by
  constructor
  · rintro ⟨i, d, hd, e, he, hn⟩
    obtain ⟨p, hp, hname, hfields⟩ := h.exists_sequence hd
    obtain ⟨f, hf, hfname, hdenotes⟩ := exists_mem_of_forall₂ hfields he
    have hns := hunder p hp f hf
    rw [hname, hfname] at hns
    exact ⟨p, hp, f, hf, (Schema.mem_namesUnder_iff.1 _ _ _ _ hdenotes hns n).2 hn⟩
  · rintro ⟨p, hp, f, hf, hn⟩
    obtain ⟨i, d, hd, hname, hfields⟩ := h.decl_of_sequence hp
    obtain ⟨e, he, hfname, hdenotes⟩ := exists_mem_of_forall₂ hfields.flip hf
    have hns := hunder p hp f hf
    rw [hname, hfname] at hns
    exact ⟨i, d, hd, e, he, (Schema.mem_namesUnder_iff.1 _ _ _ _ hdenotes hns n).1 hn⟩

theorem Accepted.mem_inOrder {ns : List SchemaName} (hns : st.builder.schema.InOrder ns) (n : SchemaName) :
    n ∈ ns ↔ st.builder.schema.HasName n := by
  obtain ⟨under, hunder, rfl⟩ := hns
  have hvariant := h.hasName_oneOfVariant.trans (h.variantIn_iff hunder (n := n))
  simp only [List.mem_append, List.mem_flatMap, List.mem_cons, List.mem_map]
  constructor
  · rintro (⟨p, hp, rfl | ⟨v, hv, rfl⟩⟩ | ⟨p, hp, rfl | ⟨f, hf, rfl | hn⟩⟩)
    · exact .enum hp
    · exact .enumVariant hp hv
    · exact .sequence hp
    · exact .field hp hf
    · obtain ⟨o, ho, v, hv, rfl⟩ := hvariant.2 ⟨p, hp, f, hf, hn⟩
      exact .oneOfVariant ho hv
  · intro hn
    cases hn with
    | enum hp => exact .inl ⟨_, hp, .inl rfl⟩
    | enumVariant hp hv => exact .inl ⟨_, hp, .inr ⟨_, hv, rfl⟩⟩
    | sequence hp => exact .inr ⟨_, hp, .inl rfl⟩
    | field hp hf => exact .inr ⟨_, hp, .inr ⟨_, hf, .inl rfl⟩⟩
    | oneOfVariant ho hv =>
      obtain ⟨p, hp, f, hf, hn⟩ := hvariant.1 ⟨_, ho, _, hv, rfl⟩
      exact .inr ⟨p, hp, .inr ⟨f, hf, .inr hn⟩⟩

end Accepted

end Compile

/-! ### The check -/

namespace Schema

section Check

variable [Libraries] {s : Schema} {words : List Bytes} {n : SchemaName} {ns : List SchemaName} {r : ReservedName}

theorem reservedAs?_eq_none : reservedAs? (matchedWord? words) n = none ↔ Unreserved words n := by
  rw [reservedAs?, Option.map_eq_none_iff, matchedWord?_eq_none]
  rfl

theorem reservedAs?_eq_some :
    reservedAs? (matchedWord? words) n = some r ↔ n = r.name ∧ IsFirstMatch words n.name r.word := by
  rw [reservedAs?, Option.map_eq_some_iff]
  constructor
  · rintro ⟨w, hw, rfl⟩
    exact ⟨rfl, matchedWord?_eq_some.1 hw⟩
  · rintro ⟨rfl, hw⟩
    exact ⟨r.word, matchedWord?_eq_some.2 hw, rfl⟩

theorem InOrder.checkReserved?_eq_none (h : s.InOrder ns) :
    s.checkReserved? words = some none ↔ ∀ n ∈ ns, Unreserved words n := by
  rw [h.checkReserved?, Option.some_inj, List.findSome?_eq_none_iff]
  exact forall₂_congr fun n _ => reservedAs?_eq_none

theorem InOrder.checkReserved?_eq_some (h : s.InOrder ns) :
    s.checkReserved? words = some (some r) ↔ ∃ before after, ns = before ++ r.name :: after ∧
      (∀ n ∈ before, Unreserved words n) ∧ IsFirstMatch words r.name.name r.word := by
  rw [h.checkReserved?, Option.some_inj, List.findSome?_eq_some_iff]
  constructor
  · rintro ⟨before, n, after, rfl, hn, hbefore⟩
    obtain ⟨rfl, hword⟩ := reservedAs?_eq_some.1 hn
    exact ⟨before, after, rfl, fun m hm => reservedAs?_eq_none.1 (hbefore m hm), hword⟩
  · rintro ⟨before, after, rfl, hbefore, hword⟩
    exact ⟨before, r.name, after, rfl, reservedAs?_eq_some.2 ⟨rfl, hword⟩,
      fun m hm => reservedAs?_eq_none.2 (hbefore m hm)⟩

/-- In a compiled schema the check comes to an end. It finds nothing exactly if no name of the schema, those of all its
unions among them, is reserved, and otherwise it tells the first that is, with the path to it and the first word that it
matches. -/
theorem checkReserved_complete_and_first {tree : SchemaTree} {name : Bytes} (h : (compile tree name).schema = some s)
    (words : List Bytes) :
    s.checkReserved? words = some (s.names.findSome? (reservedAs? (matchedWord? words))) ∧
    (s.checkReserved? words = some none ↔ ∀ n, s.HasName n → Unreserved words n) ∧
    (∃ ns, s.InOrder ns) ∧ ∀ ns, s.InOrder ns → (∀ n, n ∈ ns ↔ s.HasName n) ∧
      ∀ r, s.checkReserved? words = some (some r) ↔ ∃ before after, ns = before ++ r.name :: after ∧
        (∀ n ∈ before, Unreserved words n) ∧ IsFirstMatch words r.name.name r.word := by
  obtain ⟨haccepted, heq⟩ := Compile.compile_accepted (Compile.errors_of_schema h)
  cases h.symm.trans heq
  obtain ⟨ns, hns⟩ := haccepted.exists_inOrder
  refine ⟨?_, ?_, ⟨ns, hns⟩, fun ms hms => ⟨haccepted.mem_inOrder hms, fun r => hms.checkReserved?_eq_some⟩⟩
  · rw [findSome?_of_checkReserved? (hns.checkReserved? words)]
    exact hns.checkReserved? words
  · rw [hns.checkReserved?_eq_none]
    exact forall_congr' fun n => imp_congr_left (haccepted.mem_inOrder hns n)

end Check

/-- A variant in a list in another variant is told by the path through both, once nothing before it is reserved. -/
theorem checkReserved_complete_and_first_nested :
    letI := Libraries.plain
    let src := Bytes.ofString
      "enum Color{red=0;green=1;}sequence Pixel{color:Color;extra:oneof{name:str;inner:[oneof{Default:u8;}];};}"
    let found : SchemaName := ⟨.oneOfVariant, ["Pixel", "extra", "inner", "Default"]⟩
    ∃ tree s, SchemaTree.parse src false = .ok tree ∧ (compile tree "s").schema = some s ∧
      s.HasName found ∧ s.checkReserved? ["int", "default", "DEFAULT"] = some (some ⟨found, "default"⟩) ∧
      (∃ ns, s.InOrder ns ∧ ∃ before after, ns = before ++ found :: after ∧
        ∀ n ∈ before, Unreserved ["int", "default", "DEFAULT"] n) ∧
      ∀ n, s.HasName n → Unreserved ["while", "int"] n := by
  let := Libraries.plain
  intro src found
  obtain ⟨tree, htree, hsome⟩ : ∃ tree, SchemaTree.parse src false = .ok tree ∧
      (compile tree "s").schema.any (fun s =>
        s.checkReserved? ["int", "default", "DEFAULT"] = some (some ⟨found, "default"⟩) ∧
          s.checkReserved? ["while", "int"] = some none) = true := SchemaTree.exists_parse (by decide +kernel)
  obtain ⟨s, hs, hchecks⟩ := (Option.any_eq_true ..).1 hsome
  obtain ⟨hfound, hnone⟩ := of_decide_eq_true hchecks
  obtain ⟨-, -, ⟨ns, hns⟩, hfirst⟩ := checkReserved_complete_and_first hs ["int", "default", "DEFAULT"]
  obtain ⟨hmem, hsplit⟩ := hfirst ns hns
  obtain ⟨before, after, heq, hbefore, -⟩ := (hsplit _).1 hfound
  refine ⟨tree, s, htree, hs, (hmem found).1 ?_, hfound, ⟨ns, hns, before, after, heq, hbefore⟩,
    (checkReserved_complete_and_first hs ["while", "int"]).2.1.1 hnone⟩
  rw [heq]
  exact List.mem_append_right before List.mem_cons_self

end Schema

end Flatwire
