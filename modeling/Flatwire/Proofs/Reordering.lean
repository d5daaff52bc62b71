import Flatwire.Proofs.Mirroring

/-! Sizes and offsets are told by what the source says, and neither by the order of the declarations nor by where
anything stands: sources with the same declarations have the same layout. -/

namespace Flatwire

/-! ### Forms -/

theorem EnumDecl.isWidth_of_forms {d d' : EnumDecl} {w : Nat}
    (h : d.items.map EnumItem.form = d'.items.map EnumItem.form) (hw : d.IsWidth w) : d'.IsWidth w := by
  have hvalues (d : EnumDecl) (n : Nat) :
      (∀ i ∈ d.items, i.value.value.toNat < n) ↔ ∀ p ∈ d.items.map EnumItem.form, p.2 < n := by
    simp [EnumItem.form]
  simp only [IsWidth, hvalues] at hw ⊢
  rw [← h]
  exact hw

theorem TypeExpr.exists_name_of_form {ident : Lexeme} {type' : TypeExpr}
    (h : (TypeExpr.name ident).form = type'.form) : ∃ ident', type' = .name ident' ∧ ident.text = ident'.text := by
  cases type' with
  | name ident' => exact ⟨ident', rfl, TypeForm.name.inj h⟩
  | list | oneOf => cases h

theorem Decl.exists_enum_of_form {e : EnumDecl} {d' : Decl} (h : (Decl.enum e).form = d'.form) :
    ∃ e', d' = .enum e' ∧ e.name.text = e'.name.text ∧ e.items.map EnumItem.form = e'.items.map EnumItem.form := by
  cases d' with
  | enum e' => exact ⟨e', rfl, DeclForm.enum.inj h⟩
  | sequence => cases h

theorem Decl.exists_sequence_of_form {e : SequenceDecl} {d' : Decl} (h : (Decl.sequence e).form = d'.form) :
    ∃ e', d' = .sequence e' ∧ e.name.text = e'.name.text ∧ e.fieldList.forms = e'.fieldList.forms := by
  cases d' with
  | enum => cases h
  | sequence e' => exact ⟨e', rfl, DeclForm.sequence.inj h⟩

theorem Decl.name_of_form {d d' : Decl} (h : d.form = d'.form) : d.name.text = d'.name.text := by
  cases d with
  | enum e =>
    obtain ⟨e', rfl, hname, -⟩ := exists_enum_of_form h
    exact hname
  | sequence e =>
    obtain ⟨e', rfl, hname, -⟩ := exists_sequence_of_form h
    exact hname

namespace Compile

variable {ds ds' : List Decl} {st st' : State} {n : Nat} {type : TypeExpr}

/-- The fields say the same of their types, wherever they stand. -/
def SameTypes (fs fs' : List FieldExpr) : Prop := List.Forall₂ (fun f f' => f.type.form = f'.type.form) fs fs'

theorem sameTypes_of_forms {fs fs' : FieldList} (h : fs.forms = fs'.forms) : SameTypes fs.toList fs'.toList := by
  induction fs using FieldList.induction generalizing fs' with
  | nil =>
    cases fs' with
    | nil => exact .nil
    | cons f' _ _ =>
      obtain ⟨⟩ := f'
      cases h
  | cons f gap rest ih =>
    obtain ⟨⟩ := f
    cases fs' with
    | nil => cases h
    | cons f' gap' rest' =>
      obtain ⟨⟩ := f'
      obtain ⟨-, htype, hrest⟩ := FieldForms.cons.inj h
      exact .cons htype (ih hrest)

theorem fieldCount_of_form {d d' : Decl} (h : d.form = d'.form) : d.fieldCount = d'.fieldCount := by
  cases d with
  | enum e =>
    obtain ⟨e', rfl, -⟩ := Decl.exists_enum_of_form h
    rfl
  | sequence e =>
    obtain ⟨e', rfl, -, hfields⟩ := Decl.exists_sequence_of_form h
    exact (sameTypes_of_forms hfields).length_eq

/-! ### Sizes -/

/-- What a name stands for among the first declarations, it stands for among the others. -/
def SameNames (ds ds' : List Decl) : Prop :=
  ∀ ident ident' : Lexeme, ident.text = ident'.text → ∀ j d, Names ds (.name ident) j → ds[j]? = some d →
    ∃ j' d', Names ds' (.name ident') j' ∧ ds'[j']? = some d' ∧ d.form = d'.form

theorem HasSize.of_forms (hnames : SameNames ds ds') {type' : TypeExpr} (h : HasSize ds type n)
    (hform : type.form = type'.form) : HasSize ds' type' n := by
  refine @HasSize.rec ds (fun type n _ => ∀ type' : TypeExpr, type.form = type'.form → HasSize ds' type' n)
    (fun fs n _ => ∀ fs', SameTypes fs fs' → TotalSize ds' fs' n)
    ?primitive ?string ?enum ?sequence ?list ?oneOf ?nil ?cons type n h type' hform
  case primitive =>
    intro ident k hk type' hform
    obtain ⟨ident', rfl, htext⟩ := TypeExpr.exists_name_of_form hform
    exact .primitive (htext ▸ hk)
  case string =>
    intro ident hname type' hform
    obtain ⟨ident', rfl, htext⟩ := TypeExpr.exists_name_of_form hform
    exact .string (htext ▸ hname)
  case enum =>
    intro ident j d w hj hd hw type' hform
    obtain ⟨ident', rfl, htext⟩ := TypeExpr.exists_name_of_form hform
    obtain ⟨j', d', hj', hd', hdform⟩ := hnames ident ident' htext j _ hj hd
    obtain ⟨e', rfl, -, hitems⟩ := Decl.exists_enum_of_form hdform
    exact .enum hj' hd' (EnumDecl.isWidth_of_forms hitems hw)
  case sequence =>
    intro ident j d n hj hd _ ih type' hform
    obtain ⟨ident', rfl, htext⟩ := TypeExpr.exists_name_of_form hform
    obtain ⟨j', d', hj', hd', hdform⟩ := hnames ident ident' htext j _ hj hd
    obtain ⟨e', rfl, -, hfields⟩ := Decl.exists_sequence_of_form hdform
    exact .sequence hj' hd' (ih e'.fields (sameTypes_of_forms hfields))
  case list =>
    intro _ _ _ _ _ _ type' hform
    cases type' with
    | list => exact .list
    | name | oneOf => cases hform
  case oneOf =>
    intro _ _ _ _ _ _ _ type' hform
    cases type' with
    | oneOf => exact .oneOf
    | name | list => cases hform
  case nil =>
    intro fs' hfs
    cases hfs
    exact .nil
  case cons =>
    intro f fs m n _ _ ihType ihRest fs' hfs
    cases hfs with
    | cons hf hfs => exact .cons (ihType _ hf) (ihRest _ hfs)

theorem TotalSize.of_forms (hnames : SameNames ds ds') {fs fs' : List FieldExpr} (h : TotalSize ds fs n)
    (hfs : SameTypes fs fs') : TotalSize ds' fs' n := by
  induction hfs generalizing n with
  | nil =>
    cases h
    exact .nil
  | cons hf _ ih =>
    cases h with
    | cons hsize hrest => exact .cons (hsize.of_forms hnames hf) (ih hrest)

theorem HasSize.unique {m : Nat} {f : FieldExpr} (h : HasSize ds f.type n) (h' : HasSize ds f.type m) : n = m :=
  (TotalSize.cons h .nil).unique (.cons h' .nil)

theorem Accepted.firstDecl_of_mem (h : Accepted ds st) {d : Decl} (hd : d ∈ ds) :
    ∃ i : Nat, ds[i]? = some d ∧ firstDecl ds d.name.text = some i := by
  obtain ⟨i, hi⟩ := List.getElem?_of_mem hd
  obtain ⟨p, t, -, -, hfirst, -⟩ := h.type_of_decl hi
  exact ⟨i, hi, hfirst⟩

theorem Accepted.sameNames (h : Accepted ds' st) (hforms : ∀ d ∈ ds, ∃ d' ∈ ds', d.form = d'.form) :
    SameNames ds ds' := by
  rintro ident ident' htext j d ⟨_, heq, hbuiltin, hfirst⟩ hd
  cases heq
  obtain ⟨d', hd', hform⟩ := hforms d (List.mem_of_getElem? hd)
  obtain ⟨j', hj', hfirst'⟩ := h.firstDecl_of_mem hd'
  have hname : d.name.text = ident.text := by
    obtain ⟨hlt, hfound, -⟩ := List.findIdx?_eq_some_iff_getElem.1 hfirst
    cases (List.getElem?_eq_getElem hlt).symm.trans hd
    exact of_decide_eq_true hfound
  rw [← Decl.name_of_form hform, hname, htext] at hfirst'
  exact ⟨j', d', ⟨ident', rfl, htext ▸ hbuiltin, hfirst'⟩, hj', hform⟩

/-! ### Layouts -/

/-- Types of one name have the same size, and sequences of one name have their fields at the same offsets. -/
def SameLayout (s s' : Schema) : Prop :=
  ∀ name id id', s.lookup name = some id → s'.lookup name = some id' → s.staticSize id = s'.staticSize id' ∧
    ∀ q q', s.type? id = some (.sequence q) → s'.type? id' = some (.sequence q') →
      q.fields.map Field.offset = q'.fields.map Field.offset

theorem sizes_of_forms (hnames : SameNames ds ds') {s s' : Schema} {fs fs' : List FieldExpr} {gs gs' : List Field}
    (hfs : SameTypes fs fs') (h : List.Forall₂ (fun f g => HasSize ds f.type (s.staticSize g.type)) fs gs)
    (h' : List.Forall₂ (fun f g => HasSize ds' f.type (s'.staticSize g.type)) fs' gs') :
    (gs.map fun g => s.staticSize g.type) = gs'.map fun g => s'.staticSize g.type := by
  induction hfs generalizing gs gs' with
  | nil =>
    cases h
    cases h'
    rfl
  | cons hf _ ih =>
    cases h with
    | cons hsize hrest =>
      cases h' with
      | cons hsize' hrest' =>
        rw [List.map_cons, List.map_cons, ih hrest hrest', (hsize.of_forms hnames hf).unique hsize']

theorem offsets_of_sizes {s s' : Schema} {q q' : SequenceType} (h : (TypeDef.sequence q).Contiguous s)
    (h' : (TypeDef.sequence q').Contiguous s')
    (hsizes : (q.fields.map fun g => s.staticSize g.type) = q'.fields.map fun g => s'.staticSize g.type) :
    q.fields.map Field.offset = q'.fields.map Field.offset := by
  have hlength : q.fields.length = q'.fields.length := by simpa using congrArg List.length hsizes
  refine List.ext_getElem (by simp [hlength]) fun i hi hi' => ?_
  rw [List.length_map] at hi hi'
  have htotal : s.total (q.fields.take i) = s'.total (q'.fields.take i) := by
    rw [Schema.total, Schema.total, List.map_take, List.map_take, hsizes]
  rw [List.getElem_map, List.getElem_map]
  exact UInt16.toNat_inj.1 ((h.1 ⟨i, hi⟩).trans (htotal.trans (h'.1 ⟨i, hi'⟩).symm))

theorem Accepted.sameLayout (h : Accepted ds st) (h' : Accepted ds' st')
    (hbound : ∀ d ∈ ds, d.fieldCount ≤ 65537) (hbound' : ∀ d ∈ ds', d.fieldCount ≤ 65537)
    (hforms : ∀ d ∈ ds, ∃ d' ∈ ds', d.form = d'.form) : SameLayout st.builder.schema st'.builder.schema := by
  intro name id id' hid hid'
  obtain ⟨k, d, hd, hname, hk⟩ := (h.lookup_iff name id).1 hid
  obtain ⟨k', d', hd', hname', hk'⟩ := (h'.lookup_iff name id').1 hid'
  have hform : d.form = d'.form := by
    obtain ⟨e, he, hform⟩ := hforms d (List.mem_of_getElem? hd)
    obtain ⟨i, hi, hfirst⟩ := h'.firstDecl_of_mem he
    obtain ⟨i', hi', hfirst'⟩ := h'.firstDecl_of_mem (List.mem_of_getElem? hd')
    rw [← Decl.name_of_form hform, hname, ← hname', hfirst'] at hfirst
    cases hfirst
    cases hi.symm.trans hi'
    exact hform
  have hnames := h'.sameNames hforms
  obtain ⟨p, t, hp, ht, hmirrored⟩ := h.mirrored hbound hd
  obtain ⟨p', t', hp', ht', hmirrored'⟩ := h'.mirrored hbound' hd'
  cases hk.symm.trans hp
  cases hk'.symm.trans hp'
  rw [Schema.staticSize_eq ht, Schema.staticSize_eq ht', ht, ht']
  cases d with
  | enum e =>
    obtain ⟨e', rfl, -, hitems⟩ := Decl.exists_enum_of_form hform
    obtain ⟨w, hw, rfl⟩ := hmirrored
    obtain ⟨w', hw', rfl⟩ := hmirrored'
    exact ⟨(EnumDecl.isWidth_of_forms hitems hw).unique hw', fun _ _ heq => by cases heq⟩
  | sequence e =>
    obtain ⟨e', rfl, -, hfields⟩ := Decl.exists_sequence_of_form hform
    have htypes := sameTypes_of_forms hfields
    obtain ⟨hcontiguous, q, rfl, -, -, hsizes, htotal, -⟩ := hmirrored
    obtain ⟨hcontiguous', q', rfl, -, -, hsizes', htotal', -⟩ := hmirrored'
    refine ⟨(htotal.of_forms hnames htypes).unique htotal', fun r r' heq heq' => ?_⟩
    cases heq
    cases heq'
    exact offsets_of_sizes hcontiguous hcontiguous' (sizes_of_forms hnames htypes hsizes hsizes')

/-- A tree whose sequences have at most 65537 fields each, and in which nothing is wrong, is compiled to a schema that
mirrors it. The same declarations in another order have the same layout. -/
theorem compile_mirrors (tree : SchemaTree) (name : Bytes) (herrors : (compile tree name).errors = [])
    (hbound : ∀ d ∈ tree.decls, d.fieldCount ≤ 65537) :
    ∃ s, (compile tree name).schema = some s ∧ Mirrors tree.decls s ∧
      ∀ tree' name', tree.forms.Perm tree'.forms → (compile tree' name').errors = [] →
        ∃ s', (compile tree' name').schema = some s' ∧ SameLayout s s' := by
  obtain ⟨haccepted, hschema⟩ := compile_accepted herrors
  refine ⟨_, hschema, haccepted.mirrors hbound, fun tree' name' hperm herrors' => ?_⟩
  obtain ⟨haccepted', hschema'⟩ := compile_accepted herrors'
  have hforms : ∀ d ∈ tree.decls, ∃ d' ∈ tree'.decls, d.form = d'.form := by
    intro d hd
    obtain ⟨d', hd', hform⟩ := List.mem_map.1 (hperm.mem_iff.1 (List.mem_map_of_mem hd))
    exact ⟨d', hd', hform.symm⟩
  have hbound' : ∀ d ∈ tree'.decls, d.fieldCount ≤ 65537 := by
    intro d' hd'
    obtain ⟨d, hd, hform⟩ := List.mem_map.1 (hperm.mem_iff.2 (List.mem_map_of_mem hd'))
    rw [← fieldCount_of_form hform]
    exact hbound d hd
  exact ⟨_, hschema', haccepted.sameLayout haccepted' hbound hbound' hforms⟩

theorem compile_mirrors_sample :
    ∃ tree tree', SchemaTree.parse
        "sequence A{b:B;cs:[B];u:oneof{a:A;v:oneof{e:[E];};};}enum E{x=300;y=1;}sequence B{e:E;s:str;n:u32;}" false =
          .ok tree ∧
      SchemaTree.parse
        "sequence B{e:E;s:str;n:u32;}sequence A{b:B;cs:[B];u:oneof{a:A;v:oneof{e:[E];};};}enum E{x=300;y=1;}" false =
          .ok tree' ∧
      (compile tree []).errors = [] ∧ (compile tree' []).errors = [] ∧
      ∃ s s', (compile tree []).schema = some s ∧ (compile tree' []).schema = some s' ∧
        Mirrors tree.decls s ∧ SameLayout s s' := by
  obtain ⟨tree, htree, ⟨herrors, hbound⟩, hother⟩ : ∃ tree, SchemaTree.parse
      "sequence A{b:B;cs:[B];u:oneof{a:A;v:oneof{e:[E];};};}enum E{x=300;y=1;}sequence B{e:E;s:str;n:u32;}" false =
        .ok tree ∧ ((compile tree []).errors = [] ∧ ∀ d ∈ tree.decls, d.fieldCount ≤ 65537) ∧
      (SchemaTree.parse
        "sequence B{e:E;s:str;n:u32;}sequence A{b:B;cs:[B];u:oneof{a:A;v:oneof{e:[E];};};}enum E{x=300;y=1;}"
          false).toOption.any (fun tree' => tree.forms.Perm tree'.forms ∧ (compile tree' []).errors = []) = true :=
    SchemaTree.exists_parse (by decide +kernel)
  obtain ⟨tree', htree', hperm, herrors'⟩ := SchemaTree.exists_parse hother
  obtain ⟨s, hs, hmirrors, hsame⟩ := compile_mirrors tree [] herrors hbound
  obtain ⟨s', hs', hlayout⟩ := hsame tree' [] hperm herrors'
  exact ⟨tree, tree', htree, htree', herrors, herrors', s, s', hs, hs', hmirrors, hlayout⟩

end Compile

end Flatwire
