import Mathlib.Data.List.Forall2
import Mathlib.Order.Bounds.Defs
import Flatwire.Proofs.Layout
import Flatwire.Proofs.Numbers

/-! The schema of a tree that is compiled without errors mirrors the tree: its declarations are those of the source in
their order, with the values, members and sizes that the source gives them. The size of a type is told by the source
alone, as the sum of what its fields take. -/

namespace Flatwire

/-! ### Widths -/

theorem maxValue_lt {variants : List EnumVariant} {n : Nat} (hn : 0 < n) (h : ∀ v ∈ variants, v.value.toNat < n) :
    (maxValue variants).toNat < n := by
  have step : ∀ (vs : List EnumVariant) (m : UInt64), m.toNat < n → (∀ v ∈ vs, v.value.toNat < n) →
      (vs.foldl (fun m v => max m v.value) m).toNat < n := by
    intro vs
    induction vs with
    | nil => exact fun m hm _ => hm
    | cons w ws ih =>
      intro m hm hvs
      refine ih _ ?_ fun v hv => hvs v (List.mem_cons_of_mem w hv)
      change (max m w.value).toNat < n
      rw [UInt64.max_def]
      split_ifs
      · exact hvs w List.mem_cons_self
      · exact hm
  exact step variants 0 hn h

theorem enumWidth_le {m : UInt64} {w : Nat} (hw : w ∈ [1, 2, 4, 8]) (h : m.toNat < 2 ^ (8 * w)) :
    (enumWidth m).toNat ≤ w := by
  simp only [List.mem_cons, List.not_mem_nil, or_false] at hw
  unfold enumWidth
  rcases hw with rfl | rfl | rfl | rfl
  · have hlt : m < 0x100 := UInt64.lt_iff_toNat_lt.2 h
    rw [if_pos hlt]
    decide
  · have hlt : m < 0x10000 := UInt64.lt_iff_toNat_lt.2 h
    rw [if_pos hlt]
    split_ifs <;> decide
  · have hlt : m < 0x100000000 := UInt64.lt_iff_toNat_lt.2 h
    rw [if_pos hlt]
    split_ifs <;> decide
  · split_ifs <;> decide

/-- The bytes that an enum takes: the least number of them that holds all of its values. -/
def EnumDecl.IsWidth (d : EnumDecl) (w : Nat) : Prop :=
  IsLeast {w | w ∈ [1, 2, 4, 8] ∧ ∀ i ∈ d.items, i.value.value.toNat < 2 ^ (8 * w)} w

theorem EnumDecl.isWidth_width (d : EnumDecl) : d.IsWidth d.width := by
  have hmem : ∀ i ∈ d.items, (⟨i.name.text, i.value.value⟩ : EnumVariant) ∈ d.variants := fun i hi =>
    List.mem_map_of_mem hi
  constructor
  · refine ⟨?_, fun i hi => ?_⟩
    · unfold width enumWidth
      split_ifs <;> decide
    · have hlt := lt_enumWidth (le_maxValue (hmem i hi))
      rw [pow_mul]
      exact hlt
  · rintro w ⟨hw, hvalues⟩
    refine enumWidth_le hw (maxValue_lt (Nat.two_pow_pos _) fun v hv => ?_)
    obtain ⟨i, hi, rfl⟩ := List.mem_map.1 hv
    exact hvalues i hi

/-! ### Bounds -/

def Decl.fieldCount : Decl → Nat
  | enum _ => 0
  | sequence d => d.fields.length

theorem TypeDef.staticSize_le (t : TypeDef) : t.staticSize ≤ 65535 := by
  cases t with
  | primitive k => cases k <;> decide
  | enum e => exact Nat.le_of_lt (Nat.lt_trans e.width.toNat_lt (by decide))
  | sequence q => exact Nat.le_of_lt_succ q.size.toNat_lt
  | string | list | oneOf => simp [staticSize]

theorem Schema.staticSize_le (s : Schema) (id : TypeId) : s.staticSize id ≤ 65535 := by
  cases ht : s.type? id with
  | none =>
    rw [staticSize, ht]
    exact Nat.zero_le _
  | some t =>
    rw [staticSize_eq ht]
    exact t.staticSize_le

theorem Schema.total_le (s : Schema) (fields : List Field) : s.total fields ≤ 65535 * fields.length := by
  induction fields with
  | nil => exact Nat.zero_le _
  | cons f fs ih =>
    have hf := s.staticSize_le f.type
    rw [total_cons, List.length_cons]
    omega

namespace Compile

variable {ds : List Decl} {st : State} {i j n : Nat} {type : TypeExpr}

/-! ### Sizes -/

mutual

/-- The bytes that a value of the type takes in place. -/
inductive HasSize (ds : List Decl) : TypeExpr → Nat → Prop where
  | primitive {ident k} : PrimitiveKind.ofName? ident.text = some k → HasSize ds (.name ident) k.size
  | string {ident} : ident.text = stringTypeName → HasSize ds (.name ident) 2
  | enum {ident j d w} : Names ds (.name ident) j → ds[j]? = some (.enum d) → d.IsWidth w → HasSize ds (.name ident) w
  | sequence {ident j d n} : Names ds (.name ident) j → ds[j]? = some (.sequence d) → TotalSize ds d.fields n →
      HasSize ds (.name ident) n
  | list {span o g elem g' c} : HasSize ds (.list span o g elem g' c) 4
  | oneOf {span k g o g' variants c} : HasSize ds (.oneOf span k g o g' variants c) 3

/-- The bytes that fields take side by side. -/
inductive TotalSize (ds : List Decl) : List FieldExpr → Nat → Prop where
  | nil : TotalSize ds [] 0
  | cons {f fs m n} : HasSize ds f.type m → TotalSize ds fs n → TotalSize ds (f :: fs) (m + n)

end

/-- Neither the sequence nor any that it holds in place takes 2 ^ 32 bytes or more with over 65537 fields. -/
def Narrow (ds : List Decl) (i : Nat) : Prop :=
  ∀ j d n, Relation.ReflTransGen (Embeds ds) i j → ds[j]? = some (.sequence d) → TotalSize ds d.fields n →
    d.fields.length ≤ 65537 ∨ n < 0x100000000

theorem Narrow.embeds (h : Narrow ds i) (hij : Embeds ds i j) : Narrow ds j :=
  fun k d n hjk => h k d n (.head hij hjk)

theorem narrow_of_fieldCount (h : ∀ d ∈ ds, d.fieldCount ≤ 65537) (i : Nat) : Narrow ds i :=
  fun _ _ _ _ hd _ => .inl (h _ (List.mem_of_getElem? hd))

theorem Names.unique (h : Names ds type i) (h' : Names ds type j) : i = j := by
  obtain ⟨ident, rfl, -, hi⟩ := h
  obtain ⟨ident', heq, -, hj⟩ := h'
  cases heq
  exact Option.some.inj (hi.symm.trans hj)

theorem HasSize.eq_ownSize (h : HasSize ds type n) (hown : ∀ j, ¬ Names ds type j) : n = ownSize type := by
  cases h with
  | primitive hk => simp only [ownSize, hk]
  | string hname =>
    have hnone : PrimitiveKind.ofName? stringTypeName = none := by decide +kernel
    simp [ownSize, hname, hnone]
  | enum hnames => exact absurd hnames (hown _)
  | sequence hnames => exact absurd hnames (hown _)
  | list => rfl
  | oneOf => rfl

theorem not_names_of_builtin {ident : Lexeme} (h : isBuiltin ident.text = true) (j : Nat) :
    ¬ Names ds (.name ident) j := by
  rintro ⟨ident', heq, hbuiltin, -⟩
  cases heq
  cases h.symm.trans hbuiltin

theorem HasSize.of_names (h : HasSize ds type n) (hnames : Names ds type j) :
    (∃ d, ds[j]? = some (.enum d) ∧ d.IsWidth n) ∨ ∃ d, ds[j]? = some (.sequence d) ∧ TotalSize ds d.fields n := by
  cases h with
  | primitive hk => exact absurd hnames (not_names_of_builtin (by simp [isBuiltin, hk]) j)
  | string hname => exact absurd hnames (not_names_of_builtin (by simp [isBuiltin, hname]) j)
  | enum hnames' hd hw => exact .inl ⟨_, hnames.unique hnames' ▸ hd, hw⟩
  | sequence hnames' hd htotal => exact .inr ⟨_, hnames.unique hnames' ▸ hd, htotal⟩
  | list => exact absurd hnames (by simp [Names])
  | oneOf => exact absurd hnames (by simp [Names])

theorem HasSize.unique_of_own {m : Nat} (h : HasSize ds type n) (h' : HasSize ds type m)
    (hown : ∀ j, ¬ Names ds type j) : n = m :=
  (h.eq_ownSize hown).trans (h'.eq_ownSize hown).symm

theorem TotalSize.unique {fs : List FieldExpr} {m : Nat} (h : TotalSize ds fs n) (h' : TotalSize ds fs m) : n = m := by
  -- over both kinds of derivation at once; the other derivation follows from what the type names
  refine @TotalSize.rec ds (fun type n _ => ∀ m, HasSize ds type m → n = m)
    (fun fs n _ => ∀ m, TotalSize ds fs m → n = m)
    ?primitive ?string ?enum ?sequence ?list ?oneOf ?nil ?cons fs n h m h'
  case primitive =>
    intro ident k hk m h'
    exact (HasSize.primitive hk).unique_of_own h' (not_names_of_builtin (by simp [isBuiltin, hk]))
  case string =>
    intro ident hname m h'
    exact (HasSize.string hname).unique_of_own h' (not_names_of_builtin (by simp [isBuiltin, hname]))
  case enum =>
    intro ident j d w hnames hd hw m h'
    rcases h'.of_names hnames with ⟨d', hd', hw'⟩ | ⟨d', hd', -⟩
    · cases hd.symm.trans hd'
      exact hw.unique hw'
    · cases hd.symm.trans hd'
  case sequence =>
    intro ident j d n hnames hd _ ih m h'
    rcases h'.of_names hnames with ⟨d', hd', -⟩ | ⟨d', hd', htotal⟩
    · cases hd.symm.trans hd'
    · cases hd.symm.trans hd'
      exact ih m htotal
  case list =>
    intro _ _ _ _ _ _ m h'
    exact HasSize.list.unique_of_own h' (by simp [Names])
  case oneOf =>
    intro _ _ _ _ _ _ _ m h'
    exact HasSize.oneOf.unique_of_own h' (by simp [Names])
  case nil =>
    intro m h'
    cases h'
    rfl
  case cons =>
    intro f fs m n _ _ ihType ihRest k h'
    cases h' with
    | cons hsize htotal => rw [ihType _ hsize, ihRest _ htotal]

/-! ### Schemas -/

/-- The fields of a sequence are those that are declared. -/
def AreFields (s : Schema) (q : Bytes) (fs : List FieldExpr) (gs : List Field) : Prop :=
  List.Forall₂ (fun f g => g.name = f.name.text ∧ s.Denotes [q, f.name.text] f.type g.type) fs gs

/-- The type is what the declaration says. -/
def Mirrored (ds : List Decl) (s : Schema) : Decl → TypeDef → Prop
  | .enum d, t => ∃ w : UInt8, d.IsWidth w.toNat ∧
      t = .enum ⟨d.name.text, w, d.items.map fun i => ⟨i.name.text, i.value.value⟩⟩
  | .sequence d, t => t.Contiguous s ∧ ∃ q, t = .sequence q ∧ q.name = d.name.text ∧
      AreFields s d.name.text d.fields q.fields ∧
      List.Forall₂ (fun f g => HasSize ds f.type (s.staticSize g.type)) d.fields q.fields ∧
      TotalSize ds d.fields q.size.toNat ∧ q.size.toNat ≤ 65535

/-- The schema has the declarations of the source, and the unions that are written in them. -/
structure Mirrors (ds : List Decl) (s : Schema) : Prop where
  decls : List.Forall₂ (fun d id => ∃ t, s.type? id = some t ∧ Mirrored ds s d t) ds s.decls
  lookup : ∀ name id, s.lookup name = some id ↔
    ∃ (k : Nat) (d : Decl), ds[k]? = some d ∧ d.name.text = name ∧ s.decls[k]? = some id
  oneOfs : ∀ id, id ∈ s.oneOfs ↔ ∃ o, s.type? id = some (.oneOf o)
  unions : ∀ id o, s.type? id = some (.oneOf o) → Written ds s o

/-! ### Fields -/

section Fields

variable {q : Bytes} {off off' : Nat} {fs : List FieldExpr} {gs : List Field}

theorem FieldsLaid.areFields (h : FieldsLaid st q off fs gs off') : AreFields st.builder.schema q fs gs := by
  induction h with
  | nil => exact .nil
  | cons hname _ hholds _ ih => exact .cons ⟨hname, hholds.denotes⟩ ih

theorem FieldsLaid.offset_eq (h : FieldsLaid st q off fs gs off') (hoff : off < 0x100000000) :
    off' = (off + st.builder.schema.total gs) % 0x100000000 := by
  induction h with
  | nil => exact (Nat.mod_eq_of_lt hoff).symm
  | @cons off f fs g gs n off' _ _ hholds _ ih =>
    obtain ⟨-, -, t, ht, rfl⟩ := hholds
    rw [ih (Nat.mod_lt _ (by decide)), Schema.total_cons, Schema.staticSize_eq ht, Nat.mod_add_mod, Nat.add_assoc]

theorem FieldsLaid.offset_get (h : FieldsLaid st q off fs gs off')
    (hfit : off + st.builder.schema.total gs ≤ maxStaticSize) (i : Fin gs.length) :
    (gs.get i).offset.toNat = off + st.builder.schema.total (gs.take i) := by
  induction h with
  | nil => exact i.elim0
  | @cons off f fs g gs n off' _ hoffset hholds _ ih =>
    obtain ⟨-, -, t, ht, rfl⟩ := hholds
    rw [Schema.total_cons, Schema.staticSize_eq ht, maxStaticSize] at hfit
    cases i using Fin.cases with
    | zero =>
      refine hoffset.trans (Nat.min_eq_left ?_)
      rw [maxStaticSize]
      omega
    | succ i =>
      have hwrap : (off + t.staticSize) % 0x100000000 = off + t.staticSize := Nat.mod_eq_of_lt (by omega)
      rw [hwrap] at ih
      have hget := ih (by rw [maxStaticSize]; omega) i
      rw [Fin.val_succ, List.take_succ_cons, Schema.total_cons, Schema.staticSize_eq ht, ← Nat.add_assoc]
      exact hget

theorem Compiled.size_eq {d : SequenceDecl} {t : TypeDef} (h : Compiled st (.sequence d) t) :
    ∃ q, t = .sequence q ∧ q.name = d.name.text ∧ AreFields st.builder.schema d.name.text d.fields q.fields ∧
      q.size.toNat = st.builder.schema.total q.fields % 0x100000000 := by
  obtain ⟨gs, off, rfl, hoff, hlaid⟩ := h
  refine ⟨_, rfl, rfl, hlaid.areFields, ?_⟩
  have hsize : (UInt16.ofNat off).toNat = off := UInt16.toNat_ofNat_of_lt' (Nat.lt_succ_of_le hoff)
  rw [hsize, hlaid.offset_eq (by decide), Nat.zero_add]

theorem total_mod (s : Schema) (hlength : gs.length ≤ 65537) : s.total gs % 0x100000000 = s.total gs := by
  have hle := s.total_le gs
  exact Nat.mod_eq_of_lt (by omega)

theorem Compiled.contiguous {d : SequenceDecl} {t : TypeDef} (h : Compiled st (.sequence d) t)
    (hlength : d.fields.length ≤ 65537) : t.Contiguous st.builder.schema := by
  obtain ⟨gs, off, rfl, hoff, hlaid⟩ := h
  have htotal : off = st.builder.schema.total gs := by
    rw [hlaid.offset_eq (by decide), Nat.zero_add, total_mod _ (hlaid.areFields.length_eq ▸ hlength)]
  refine ⟨fun i => ?_, ?_⟩
  · have hget := hlaid.offset_get (by rw [Nat.zero_add, ← htotal]; exact hoff) i
    rw [Nat.zero_add] at hget
    exact hget
  · rw [← htotal]
    exact UInt16.toNat_ofNat_of_lt' (Nat.lt_succ_of_le hoff)

end Fields

/-! ### Declarations -/

section Accepted

variable (h : Accepted ds st)

include h

theorem Accepted.decls_eq : st.builder.schema.decls = st.infos.toList.map fun info => info.id.getD 0 := by
  rw [h.decls, ← List.filterMap_eq_map]
  refine List.filterMap_congr fun info hmem => ?_
  obtain ⟨i, hi⟩ := List.getElem?_of_mem hmem
  rw [Array.getElem?_toList] at hi
  obtain ⟨p, n, hinfo⟩ := h.places i info hi
  rw [Function.comp_apply, hinfo]
  rfl

theorem Accepted.decls_getElem? (k : Nat) :
    st.builder.schema.decls[k]? = (st.infos[k]?).map fun info => info.id.getD 0 := by
  rw [h.decls_eq, List.getElem?_map, Array.getElem?_toList]

theorem Accepted.type_of_decl {d : Decl} (hd : ds[i]? = some d) : ∃ p t,
    st.infos[i]? = some ⟨d, some p, .done t.staticSize⟩ ∧ st.builder.schema.decls[i]? = some p ∧
    firstDecl ds d.name.text = some i ∧ st.builder.schema.lookup d.name.text = some p ∧
    st.builder.schema.type? p = some t ∧ Compiled st d t := by
  rw [getElem?_decls h.infos, Option.map_eq_some_iff] at hd
  obtain ⟨info, hi, rfl⟩ := hd
  obtain ⟨p, n, hinfo⟩ := h.places i info hi
  have hid : info.id = some p := congrArg DeclInfo.id hinfo
  have hfirst := h.unique i info p hi hid
  obtain ⟨t, ht, rfl, hcompiled⟩ := h.types i info n p hi (congrArg DeclInfo.state hinfo) hid
  obtain ⟨info', p', hi', hid', hlookup⟩ := h.indexed _ i hfirst
  cases hi.symm.trans hi'
  cases hid.symm.trans hid'
  refine ⟨p, t, hi.trans (congrArg some hinfo), ?_, findDecl_eq h.infos _ ▸ hfirst, hlookup, ht, hcompiled⟩
  rw [h.decls_getElem?, hi, Option.map_some, hid]
  rfl

theorem Accepted.sequence_of_decl {d : SequenceDecl} (hd : ds[i]? = some (.sequence d)) : ∃ p q,
    st.builder.schema.decls[i]? = some p ∧ st.builder.schema.type? p = some (.sequence q) ∧
    AreFields st.builder.schema d.name.text d.fields q.fields ∧
    q.size.toNat = st.builder.schema.total q.fields % 0x100000000 := by
  obtain ⟨p, t, -, hp, -, -, ht, hcompiled⟩ := h.type_of_decl hd
  obtain ⟨q, rfl, -, hfields, hsize⟩ := hcompiled.size_eq
  exact ⟨p, q, hp, ht, hfields, hsize⟩

theorem Accepted.lookup_iff (name : Bytes) (p : TypeId) : st.builder.schema.lookup name = some p ↔
    ∃ (k : Nat) (d : Decl), ds[k]? = some d ∧ d.name.text = name ∧ st.builder.schema.decls[k]? = some p := by
  constructor
  · intro hlookup
    cases hfind : findDecl st.infos name with
    | none => cases (h.lookup_eq_none hfind).symm.trans hlookup
    | some k =>
      obtain ⟨info, hk, rfl⟩ := findDecl_spec hfind
      have hd : ds[k]? = some info.decl := by
        rw [getElem?_decls h.infos, hk]
        rfl
      obtain ⟨p', t, -, hp', -, hlookup', -⟩ := h.type_of_decl hd
      cases hlookup.symm.trans hlookup'
      exact ⟨k, info.decl, hd, rfl, hp'⟩
  · rintro ⟨k, d, hd, rfl, hp⟩
    obtain ⟨p', t, -, hp', -, hlookup, -⟩ := h.type_of_decl hd
    cases hp.symm.trans hp'
    exact hlookup

theorem Accepted.hasSize {path : List Bytes} {id : TypeId} (hdenotes : st.builder.schema.Denotes path type id)
    (hinner : ∀ j e, Names ds type j → ds[j]? = some (.sequence e) → st.builder.schema.decls[j]? = some id →
      TotalSize ds e.fields (st.builder.schema.staticSize id)) : HasSize ds type (st.builder.schema.staticSize id) := by
  cases hdenotes with
  | primitive hk ht =>
    rw [Schema.staticSize_eq ht]
    exact .primitive hk
  | string hname ht =>
    rw [Schema.staticSize_eq ht]
    exact .string hname
  | list _ ht =>
    rw [Schema.staticSize_eq ht]
    exact .list
  | oneOf ht _ =>
    rw [Schema.staticSize_eq ht]
    exact .oneOf
  | declared hbuiltin hlookup =>
    obtain ⟨j, d, hd, hname, hj⟩ := (h.lookup_iff _ _).1 hlookup
    obtain ⟨p, t, -, hp, hfirst, -, ht, hcompiled⟩ := h.type_of_decl hd
    cases hj.symm.trans hp
    have hnames : Names ds (.name _) j := ⟨_, rfl, hbuiltin, hname ▸ hfirst⟩
    cases d with
    | sequence e => exact .sequence hnames hd (hinner j e hnames hd hj)
    | enum e =>
      rw [Schema.staticSize_eq ht, hcompiled]
      exact .enum hnames hd e.isWidth_width

theorem Accepted.totalSize_of_fields {q : Bytes} {fs : List FieldExpr} {gs : List Field}
    (hfields : AreFields st.builder.schema q fs gs)
    (hinner : ∀ f ∈ fs, ∀ j e p, Names ds f.type j → ds[j]? = some (.sequence e) →
      st.builder.schema.decls[j]? = some p → TotalSize ds e.fields (st.builder.schema.staticSize p)) :
    TotalSize ds fs (st.builder.schema.total gs) ∧
      List.Forall₂ (fun f g => HasSize ds f.type (st.builder.schema.staticSize g.type)) fs gs := by
  induction hfields with
  | nil => exact ⟨.nil, .nil⟩
  | @cons f g fs gs hfield _ ih =>
    obtain ⟨htotal, hsizes⟩ := ih fun f hf => hinner f (List.mem_cons_of_mem _ hf)
    have hsize := h.hasSize hfield.2 fun j e => hinner f List.mem_cons_self j e g.type
    rw [Schema.total_cons]
    exact ⟨.cons hsize htotal, .cons hsize hsizes⟩

theorem Accepted.totalSize (i : Nat) : Narrow ds i → ∀ d p, ds[i]? = some (.sequence d) →
    st.builder.schema.decls[i]? = some p → TotalSize ds d.fields (st.builder.schema.staticSize p) := by
  -- no sequence holds itself, so the ones that are held in place come first
  induction h.grounded i with
  | intro i _ ih =>
    intro hnarrow d p hd hp
    obtain ⟨p', q, hp', ht, hfields, hsize⟩ := h.sequence_of_decl hd
    cases hp.symm.trans hp'
    obtain ⟨htotal, -⟩ := h.totalSize_of_fields hfields fun f hf j e p hnames he hp => by
      have hij : Embeds ds i j := ⟨d, e, f, hd, he, hf, hnames⟩
      exact ih j hij (hnarrow.embeds hij) e p he hp
    have hexact : st.builder.schema.total q.fields % 0x100000000 = st.builder.schema.total q.fields := by
      rcases hnarrow i d _ .refl hd htotal with hlength | hlt
      · exact total_mod _ (hfields.length_eq ▸ hlength)
      · exact Nat.mod_eq_of_lt hlt
    rw [Schema.staticSize_eq ht, TypeDef.staticSize, hsize, hexact]
    exact htotal

theorem Accepted.mirrored (hbound : ∀ d ∈ ds, d.fieldCount ≤ 65537) {d : Decl} (hd : ds[i]? = some d) :
    ∃ p t, st.builder.schema.decls[i]? = some p ∧ st.builder.schema.type? p = some t ∧
      Mirrored ds st.builder.schema d t := by
  have hnarrow := narrow_of_fieldCount hbound
  obtain ⟨p, t, -, hp, -, -, ht, hcompiled⟩ := h.type_of_decl hd
  refine ⟨p, t, hp, ht, ?_⟩
  cases d with
  | enum e => exact ⟨_, e.isWidth_width, hcompiled⟩
  | sequence d =>
    have htotal := h.totalSize i (hnarrow i) d p hd hp
    rw [Schema.staticSize_eq ht] at htotal
    obtain ⟨q, rfl, hname, hfields, -⟩ := hcompiled.size_eq
    obtain ⟨-, hsizes⟩ := h.totalSize_of_fields hfields fun _ _ j e p _ he hp => h.totalSize j (hnarrow j) e p he hp
    exact ⟨hcompiled.contiguous (hbound _ (List.mem_of_getElem? hd)), q, rfl, hname, hfields, hsizes, htotal,
      Nat.le_of_lt_succ q.size.toNat_lt⟩

theorem Accepted.mem_oneOfs (p : TypeId) :
    p ∈ st.builder.schema.oneOfs ↔ ∃ o, st.builder.schema.type? p = some (.oneOf o) := by
  have hlisted : st.builder.schema.oneOfs = st.builder.schema.unionPlaces := h.listed
  rw [hlisted, Schema.unionPlaces, List.mem_filter, List.mem_range]
  cases ht : st.builder.schema.type? p with
  | none => simp
  | some t => cases t <;> simp [TypeDef.isOneOf, Schema.type?_lt ht]

theorem Accepted.mirrors (hbound : ∀ d ∈ ds, d.fieldCount ≤ 65537) : Mirrors ds st.builder.schema where
  decls := by
    refine List.forall₂_of_length_eq_of_get ?_ fun i hi hi' => ?_
    · rw [h.decls_eq, ← h.infos, List.length_map, List.length_map]
    · obtain ⟨p, t, hp, ht, hmirrored⟩ := h.mirrored hbound (List.getElem?_eq_getElem hi)
      rw [List.getElem?_eq_getElem hi'] at hp
      cases hp
      exact ⟨t, ht, hmirrored⟩
  lookup := h.lookup_iff
  oneOfs := h.mem_oneOfs
  unions := h.toLaid.unions

end Accepted

end Compile

end Flatwire
