import Flatwire.Proofs.Census
import Flatwire.Proofs.Interchange
import Flatwire.Proofs.Mirroring
import Flatwire.Proofs.Rendering

/-! Compiled schemas as JSON. The names in a schema are words of its source, and it has no more types than the source has
tokens, so that all of them can be referred to in 32 bits: what is compiled is read back from its text, like what is
read. -/

namespace Flatwire

variable {src : Bytes} {tree : SchemaTree}

/-! ### Words of the source -/

def AllValid (names : List Bytes) : Prop := ∀ n ∈ names, Utf8.valid n = true

theorem allValid_cons {n : Bytes} {ns : List Bytes} : AllValid (n :: ns) ↔ Utf8.valid n = true ∧ AllValid ns :=
  List.forall_mem_cons

theorem allValid_append {ns ms : List Bytes} : AllValid (ns ++ ms) ↔ AllValid ns ∧ AllValid ms :=
  List.forall_mem_append

namespace Token

theorem scan_ident {len : Nat} (h : scan src = .ok (.ident, len)) : src.take len = src.takeWhile isWord := by
  cases src with
  | nil => cases h
  | cons b r =>
    rw [scan] at h
    split at h
    · cases (ofLen_eq_ok h).1
    split at h
    · cases h
    split at h
    · split_ifs at h
      cases h
    split at h
    · split_ifs at h
      cases (ofLen_eq_ok h).1
    split at h
    · cases h
    split_ifs at h
    · simp only [scanInt] at h
      split_ifs at h
      cases (ofLen_eq_ok h).1
    · rw [(ofLen_eq_ok h).2]
      exact (List.prefix_iff_eq_take.1 (List.takeWhile_prefix isWord)).symm

/-- The words among the tokens are valid texts. -/
def Legible (ts : List Token) : Prop := ∀ t ∈ ts, t.kind = .ident → Utf8.valid t.text = true

theorem Legible.of_mem {ts us : List Token} (h : Legible ts) (hus : ∀ t ∈ us, t ∈ ts) : Legible us :=
  fun t ht => h t (hus t ht)

end Token

theorem Tokenizes.legible {ts : List Token} (h : Tokenizes src ts) : Token.Legible ts := by
  induction h with
  | nil => simp [Token.Legible]
  | @cons src kind len ts _ hscan _ ih =>
    refine List.forall_mem_cons.2 ⟨fun hkind => Utf8.valid_of_ascii fun b hb => ?_, ih⟩
    cases hkind
    rw [Token.scan_ident hscan] at hb
    exact (Token.isWord_byte (List.all_eq_true.1 List.all_takeWhile b hb)).1

theorem Tokenizes.length_le {ts : List Token} (h : Tokenizes src ts) : ts.length ≤ src.length := by
  induction h with
  | nil => exact Nat.le_refl 0
  | @cons src kind len ts hne hscan _ ih =>
    have hpos := (Token.scan_pos hne hscan).1
    have hsrc := List.length_pos_iff.2 hne
    rw [List.length_drop] at ih
    rw [List.length_cons]
    omega

/-! ### Names in forms -/

mutual

/-- The names of the variants in a type. -/
def TypeForm.names : TypeForm → List Bytes
  | .name _ => []
  | .list elem => elem.names
  | .oneOf variants => variants.names

def FieldForms.names : FieldForms → List Bytes
  | .nil => []
  | .cons name type rest => name :: (type.names ++ rest.names)

end

def DeclForm.names : DeclForm → List Bytes
  | .enum name items => name :: items.map (·.1)
  | .sequence name fields => name :: fields.names

namespace Grammar

open Token

variable {w : List Token}

theorem AreFields.bounds {fs : FieldForms} (h : AreFields w fs) (hw : Legible w) :
    AllValid fs.names ∧ fs.weight ≤ w.length := by
  -- over types and fields at once; every construct has a token of its own
  refine @AreFields.rec (fun w e _ => Legible w → AllValid e.names ∧ e.weight ≤ w.length)
    (fun w fs _ => Legible w → AllValid fs.names ∧ fs.weight ≤ w.length) ?name ?list ?oneOf ?nil ?cons w fs h hw
  case name =>
    intro t _ _ _
    exact ⟨by simp [AllValid, TypeForm.names], Nat.le_refl 1⟩
  case list =>
    intro o c w e _ _ _ ih hw
    obtain ⟨hnames, hweight⟩ := ih (hw.of_mem fun t ht => by simp [ht])
    refine ⟨hnames, ?_⟩
    simp only [TypeForm.weight, List.length_append, List.length_cons]
    omega
  case oneOf =>
    intro k o c w vs _ _ _ _ ih hw
    obtain ⟨hnames, hweight⟩ := ih (hw.of_mem fun t ht => by simp [ht])
    refine ⟨hnames, ?_⟩
    simp only [TypeForm.weight, List.length_append, List.length_cons]
    omega
  case nil =>
    intro _
    exact ⟨by simp [AllValid, FieldForms.names], Nat.le_refl 0⟩
  case cons =>
    intro n c s w v t fs hn _ _ _ _ ihType ihRest hw
    obtain ⟨htype, hweight⟩ := ihType (hw.of_mem fun t ht => by simp [ht])
    obtain ⟨hrest, hweights⟩ := ihRest (hw.of_mem fun t ht => by simp [ht])
    refine ⟨allValid_cons.2 ⟨hw n (by simp) hn, allValid_append.2 ⟨htype, hrest⟩⟩, ?_⟩
    simp only [FieldForms.weight, List.length_append, List.length_cons]
    omega

theorem AreItems.valid {items : List (Bytes × Nat)} (h : AreItems w items) (hw : Legible w) :
    AllValid (items.map (·.1)) := by
  induction h with
  | nil => simp [AllValid]
  | cons hn _ _ _ _ ih => exact allValid_cons.2 ⟨hw _ List.mem_cons_self hn, ih (hw.of_mem fun t ht => by simp [ht])⟩

theorem IsDecl.bounds {d : DeclForm} (h : IsDecl w d) (hw : Legible w) : AllValid d.names ∧ d.weight ≤ w.length := by
  cases h with
  | enum _ hn _ hitems _ =>
    refine ⟨allValid_cons.2 ⟨hw _ (by simp) hn, hitems.valid (hw.of_mem fun t ht => by simp [ht])⟩, ?_⟩
    simp [DeclForm.weight]
  | sequence _ hn _ hfields _ =>
    obtain ⟨hnames, hweight⟩ := hfields.bounds (hw.of_mem fun t ht => by simp [ht])
    refine ⟨allValid_cons.2 ⟨hw _ (by simp) hn, hnames⟩, ?_⟩
    simp only [DeclForm.weight, List.cons_append, List.length_cons, List.length_append]
    omega

theorem IsSchema.bounds {forms : List DeclForm} (h : IsSchema w forms) (hw : Legible w) :
    (∀ d ∈ forms, AllValid d.names) ∧ (forms.map DeclForm.weight).sum ≤ w.length := by
  induction h with
  | nil => simp
  | cons hd _ ih =>
    obtain ⟨hnames, hweight⟩ := hd.bounds (hw.of_mem fun t ht => by simp [ht])
    obtain ⟨hrest, hweights⟩ := ih (hw.of_mem fun t ht => by simp [ht])
    refine ⟨List.forall_mem_cons.2 ⟨hnames, hrest⟩, ?_⟩
    rw [List.map_cons, List.sum_cons, List.length_append]
    omega

end Grammar

theorem SchemaTree.parse_bounds {keep : Bool} (h : parse src keep = .ok tree) :
    (∀ d ∈ tree.decls, AllValid d.form.names) ∧ Compile.declsWeight tree.decls ≤ maxSourceLen := by
  obtain ⟨ts, -, hlen, -, htokens, hschema, -⟩ := parse_sound h
  have hcore : ∀ t ∈ ts.core, t ∈ ts.tokens := fun t ht => (List.mem_filter.1 ht).1
  obtain ⟨hnames, hweight⟩ := hschema.bounds (htokens.legible.of_mem hcore)
  refine ⟨fun d hd => hnames _ (List.mem_map_of_mem hd), ?_⟩
  calc Compile.declsWeight tree.decls = (tree.forms.map DeclForm.weight).sum := by
        rw [Compile.declsWeight, forms, List.map_map]
        rfl
    _ ≤ ts.core.length := hweight
    _ ≤ ts.tokens.length := List.length_filter_le _ _
    _ ≤ src.length := htokens.length_le
    _ ≤ maxSourceLen := hlen

/-! ### Compiled types -/

theorem names_of_mem {fs : FieldList} {f : FieldExpr} (hf : f ∈ fs.toList) (h : AllValid fs.forms.names) :
    Utf8.valid f.name.text = true ∧ AllValid f.type.form.names := by
  induction fs using FieldList.induction with
  | nil => cases hf
  | cons e gap rest ih =>
    obtain ⟨⟩ := e
    obtain ⟨hname, hnames⟩ := allValid_cons.1 h
    obtain ⟨htype, hrest⟩ := allValid_append.1 hnames
    rcases List.mem_cons.1 hf with rfl | hf
    · exact ⟨hname, htype⟩
    · exact ih hf hrest

namespace Schema

variable {s : Schema} {path p : List Bytes} {type : TypeExpr} {id : TypeId}

theorem OneOfIn.valid {vs : FieldList} (h : OneOfIn path type p vs) (hpath : AllValid path)
    (htype : AllValid type.form.names) : AllValid p ∧ AllValid vs.forms.names := by
  induction h with
  | here => exact ⟨hpath, htype⟩
  | list _ ih => exact ih hpath htype
  | variant hf _ ih =>
    obtain ⟨hname, hnames⟩ := names_of_mem hf htype
    exact ih (allValid_append.2 ⟨hpath, List.forall_mem_singleton.2 hname⟩) hnames

theorem Denotes.lt (h : s.Denotes path type id) (hdecls : ∀ id ∈ s.decls, id < s.types.size) : id < s.types.size := by
  cases h with
  | primitive _ ht => exact type?_lt ht
  | string _ ht => exact type?_lt ht
  | declared _ hlookup => exact hdecls id (List.mem_of_find?_eq_some hlookup)
  | list _ ht => exact type?_lt ht
  | oneOf ht _ => exact type?_lt ht

theorem AreVariants.portable {tag size : Nat} {variants : FieldList} {vs : List Variant}
    (h : s.AreVariants path tag variants vs) (hnames : AllValid variants.forms.names)
    (href : ∀ path type id, s.Denotes path type id → IsRef size id) :
    ∀ v ∈ vs, Utf8.valid v.name = true ∧ IsRef size v.type := by
  induction variants using FieldList.induction generalizing tag vs with
  | nil =>
    cases h
    simp
  | cons f gap rest ih =>
    cases h with
    | cons hname _ htype hrest =>
      have hf := (names_of_mem (f := f) List.mem_cons_self hnames).1
      refine List.forall_mem_cons.2 ⟨⟨hname ▸ hf, href _ _ _ htype⟩, ih hrest ?_⟩
      obtain ⟨⟩ := f
      exact (allValid_append.1 (allValid_cons.1 hnames).2).2

end Schema

namespace SchemaJson

theorem checkDecls_eq_ok {s : Schema} {seen : List Bytes} {ids : List TypeId}
    (hnames : ∀ id ∈ ids, ∃ n, s.declName? id = some n ∧ n ∉ seen)
    (hdistinct : ids.Pairwise fun a b => s.declName? a ≠ s.declName? b) : checkDecls s.types seen ids = .ok () := by
  induction ids generalizing seen with
  | nil => rfl
  | cons id ids ih =>
    obtain ⟨hnames₀, hnames⟩ := List.forall_mem_cons.1 hnames
    obtain ⟨hne, hdistinct⟩ := List.pairwise_cons.1 hdistinct
    obtain ⟨n, hn, hseen⟩ := hnames₀
    obtain ⟨t, ht, htn⟩ := Option.bind_eq_some_iff.1 hn
    have hget : s.types[id]? = some t := ht
    rw [checkDecls, hget]
    simp only [htn, List.contains_eq_mem, hseen, decide_false, Bool.false_eq_true, if_false]
    refine ih (fun p hp => ?_) hdistinct
    obtain ⟨m, hm, hmseen⟩ := hnames p hp
    refine ⟨m, hm, fun hmem => ?_⟩
    rcases List.mem_cons.1 hmem with rfl | hmem
    · exact hne p hp (hn.trans hm.symm)
    · exact hmseen hmem

theorem oneOfIds_eq (s : Schema) : oneOfIds s.types = s.unionPlaces := by
  refine List.filter_congr fun id _ => ?_
  rw [Schema.type?]
  cases s.types[id]? with
  | none => rfl
  | some t => cases t <;> rfl

end SchemaJson

namespace Compile

variable {ds : List Decl} {st : State} {s : Schema}

theorem AreFields.portable {q : Bytes} {size : Nat} {fs : List FieldExpr} {gs : List Field} (h : AreFields s q fs gs)
    (hnames : ∀ f ∈ fs, Utf8.valid f.name.text = true) (href : ∀ path type id, s.Denotes path type id → IsRef size id) :
    ∀ g ∈ gs, Utf8.valid g.name = true ∧ IsRef size g.type := by
  induction h with
  | nil => simp
  | cons hfield _ ih =>
    obtain ⟨hf, hfs⟩ := List.forall_mem_cons.1 hnames
    exact List.forall_mem_cons.2 ⟨⟨hfield.1 ▸ hf, href _ _ _ hfield.2⟩, ih hfs⟩

theorem Compiled.portable {d : Decl} {t : TypeDef} {size : Nat} (h : Compiled st d t) (hnames : AllValid d.form.names)
    (href : ∀ path type id, st.builder.schema.Denotes path type id → IsRef size id) : t.Portable size := by
  cases d with
  | enum e =>
    obtain ⟨hname, hitems⟩ := allValid_cons.1 hnames
    cases h
    refine ⟨hname, fun v hv => ?_, rfl⟩
    obtain ⟨item, hitem, rfl⟩ := List.mem_map.1 hv
    exact hitems _ (List.mem_map_of_mem (List.mem_map_of_mem hitem))
  | sequence d =>
    obtain ⟨hname, hfields⟩ := allValid_cons.1 hnames
    obtain ⟨gs, off, rfl, -, hlaid⟩ := h
    exact ⟨hname, hlaid.areFields.portable (fun f hf => (names_of_mem hf hfields).1) href⟩

section Accepted

variable (h : Accepted ds st)

include h

theorem Accepted.exists_decl {i : Nat} {id : TypeId} (hid : st.builder.schema.decls[i]? = some id) : ∃ d,
    ds[i]? = some d ∧ firstDecl ds d.name.text = some i ∧ st.builder.schema.declName? id = some d.name.text := by
  have hinfo := hid
  rw [h.decls_getElem?, Option.map_eq_some_iff] at hinfo
  obtain ⟨info, hinfo, -⟩ := hinfo
  have hd : ds[i]? = some info.decl := by
    rw [getElem?_decls h.infos, hinfo]
    rfl
  obtain ⟨p, t, hi, hp, hfirst, -⟩ := h.type_of_decl hd
  cases hid.symm.trans hp
  obtain ⟨t', ht', hheads⟩ := h.heads i _ id hi rfl
  refine ⟨info.decl, hd, hfirst, ?_⟩
  rw [Schema.declName?, ht']
  exact hheads.declName?

theorem Accepted.distinct :
    st.builder.schema.decls.Pairwise fun a b => st.builder.schema.declName? a ≠ st.builder.schema.declName? b := by
  rw [List.pairwise_iff_getElem]
  intro i j hi hj hij heq
  obtain ⟨d, -, hfirst, hname⟩ := h.exists_decl (List.getElem?_eq_getElem hi)
  obtain ⟨e, -, hfirst', hname'⟩ := h.exists_decl (List.getElem?_eq_getElem hj)
  rw [hname, hname'] at heq
  rw [Option.some.inj heq] at hfirst
  have := Option.some.inj (hfirst.symm.trans hfirst')
  omega

theorem Accepted.portable (hclosed : st.builder.schema.Closed) (hsize : st.builder.schema.types.size ≤ 0x100000000)
    (hname : Utf8.valid st.builder.schema.name = true) (hnames : ∀ d ∈ ds, AllValid d.form.names) :
    st.builder.schema.Portable := by
  have hlt : ∀ id, id < st.builder.schema.types.size → IsRef st.builder.schema.types.size id :=
    fun id hid => ⟨hid, Nat.lt_of_lt_of_le hid hsize⟩
  have href : ∀ path type id, st.builder.schema.Denotes path type id → IsRef st.builder.schema.types.size id :=
    fun path type id hd => hlt id (hd.lt h.ready.consistent.declared)
  -- a type with a name stands at the place of a declaration
  have hdeclared : ∀ id t, st.builder.schema.type? id = some t → t.declName? ≠ none →
      t.Portable st.builder.schema.types.size := by
    intro id t ht hn
    obtain ⟨i, hid⟩ := List.getElem?_of_mem ((hclosed id t ht).2 hn)
    obtain ⟨d, hd, -⟩ := h.exists_decl hid
    obtain ⟨p, t', -, hp, -, -, ht', hcompiled⟩ := h.type_of_decl hd
    cases hid.symm.trans hp
    cases ht.symm.trans ht'
    exact hcompiled.portable (hnames d (List.mem_of_getElem? hd)) href
  refine ⟨hname, fun t hmem => ?_, fun id hid => (hlt id (h.ready.consistent.declared id hid)).2, ?_, ?_⟩
  · obtain ⟨id, hid⟩ := List.getElem?_of_mem hmem
    have ht : st.builder.schema.type? id = some t := (Array.getElem?_toList ..).symm.trans hid
    cases t with
    | primitive k => trivial
    | string => trivial
    | list e => exact hlt e ((hclosed id _ ht).1 e rfl)
    | enum e => exact hdeclared id _ ht (by simp [TypeDef.declName?])
    | sequence q => exact hdeclared id _ ht (by simp [TypeDef.declName?])
    | oneOf o =>
      obtain ⟨i, d, f, vs, hd, hf, hin, hvs⟩ := h.unions id o ht
      obtain ⟨hdname, hfields⟩ := allValid_cons.1 (hnames _ (List.mem_of_getElem? hd))
      obtain ⟨hfname, hftype⟩ := names_of_mem hf hfields
      obtain ⟨hpath, hvariants⟩ :=
        hin.valid (allValid_cons.2 ⟨hdname, List.forall_mem_singleton.2 hfname⟩) hftype
      exact ⟨hpath, hvs.portable hvariants href⟩
  · refine SchemaJson.checkDecls_eq_ok (fun id hid => ?_) h.distinct
    obtain ⟨i, hi⟩ := List.getElem?_of_mem hid
    obtain ⟨d, -, -, hname⟩ := h.exists_decl hi
    exact ⟨_, hname, List.not_mem_nil⟩
  · rw [SchemaJson.oneOfIds_eq]
    exact h.listed

end Accepted

theorem errors_of_schema {name : Bytes} (h : (compile tree name).schema = some s) :
    (compile tree name).errors = [] := by
  revert h
  unfold compile
  generalize compileDecls tree.decls (start name) = run
  obtain ⟨-, st⟩ := run
  dsimp only
  split_ifs
  · intro _
    split <;> rfl
  · intro h
    cases h

theorem portable_of_compile {keep : Bool} {name : Bytes} (hparse : SchemaTree.parse src keep = .ok tree)
    (hschema : (compile tree name).schema = some s) (hname : Utf8.valid name = true) : s.Portable := by
  obtain ⟨haccepted, heq⟩ := compile_accepted (errors_of_schema hschema)
  cases hschema.symm.trans heq
  obtain ⟨hnames, hweight⟩ := SchemaTree.parse_bounds hparse
  have hsize : (compileDecls tree.decls (start name)).2.builder.schema.types.size ≤ 0x100000000 :=
    ((size_compileDecls tree.decls name).trans hweight).trans (by decide)
  refine haccepted.portable (closed_compileDecls tree.decls name) hsize ?_ hnames
  rw [(spends_compileDecls tree.decls name).name]
  exact hname

end Compile

/-! ### The round trip -/

/-- A schema that is compiled from a source under a valid name, or read from any text, is read back from its own text as
it was. -/
theorem Schema.printJson_lossless :
    (∀ (src : Bytes) (keep : Bool) (tree : SchemaTree) (name : Bytes) (s : Schema),
      SchemaTree.parse src keep = .ok tree → (compile tree name).schema = some s → Utf8.valid name = true →
      parseJson s.printJson = .ok s) ∧
    ∀ (text : Bytes) (s : Schema), parseJson text = .ok s → parseJson s.printJson = .ok s :=
  ⟨fun _ _ _ _ _ hparse hschema hname => (Compile.portable_of_compile hparse hschema hname).parseJson_printJson,
    fun _ _ hread => (portable_of_parseJson hread).parseJson_printJson⟩

theorem Schema.printJson_lossless_sample :
    let src := Bytes.ofString "enum E{x=300;y=1;}sequence A{e:[E];u:oneof{a:A;v:oneof{s:str;};};}"
    let text := Bytes.ofString
      " \x7b\"decls\":[0],\"types\":[\x7b\"NAME\":\"\\ud800\",\"kind\":\"enum\",\"width\":1\x7d]\x7d"
    (∃ tree s, SchemaTree.parse src false = .ok tree ∧ (compile tree "<é>").schema = some s ∧
      parseJson s.printJson = .ok s) ∧
    ∃ s, parseJson text = .ok s ∧ s.printJson ≠ text ∧ parseJson s.printJson = .ok s := by
  intro src text
  refine ⟨?_, ?_⟩
  · obtain ⟨tree, htree, hsome⟩ : ∃ tree, SchemaTree.parse src false = .ok tree ∧
        (compile tree "<é>").schema.isSome = true := SchemaTree.exists_parse (by decide +kernel)
    obtain ⟨s, hs⟩ := Option.isSome_iff_exists.1 hsome
    exact ⟨tree, s, htree, hs, printJson_lossless.1 src false tree _ s htree hs (by decide +kernel)⟩
  · have hother : (parseJson text).toOption.any (fun s => s.printJson ≠ text) = true := by decide +kernel
    cases hread : parseJson text with
    | error e =>
      rw [hread] at hother
      cases hother
    | ok s =>
      rw [hread] at hother
      exact ⟨s, rfl, of_decide_eq_true hother, printJson_lossless.2 text s hread⟩

end Flatwire
