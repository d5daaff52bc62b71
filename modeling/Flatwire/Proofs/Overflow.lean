import Flatwire.Proofs.Acceptance
import Flatwire.Proofs.Mirroring
import Flatwire.Proofs.Rendering

/-! How large sequences can get. Sizes are counted in 32 bits, so they are exact for sequences of at most 65537 fields,
and one that is too large is refused. One field more is enough for a sequence of 2 ^ 32 bytes to pass as empty: its
source is made of sequences whose fields have names as types, about which all that layout does can be said at once. -/

namespace Flatwire

namespace Compile

variable {ds : List Decl} {size : Nat → Nat} {st : State} {i j : Nat}

/-! ### Flat sequences as trees -/

/-- The field has the given name, and the other one as its type. -/
def IsPlain (f : FieldExpr) (p : Bytes × Bytes) : Prop :=
  f.name.text = p.1 ∧ ∃ ident : Lexeme, f.type = .name ident ∧ ident.text = p.2

theorem isPlain_of_forms {fs : FieldList} {ps : List (Bytes × Bytes)}
    (h : fs.forms = ps.foldr (fun p fs => .cons p.1 (.name p.2) fs) .nil) : List.Forall₂ IsPlain fs.toList ps := by
  induction fs using FieldList.induction generalizing ps with
  | nil =>
    cases ps with
    | nil => exact .nil
    | cons p ps => cases h
  | cons f gap rest ih =>
    cases ps with
    | nil =>
      obtain ⟨⟩ := f
      cases h
    | cons p ps =>
      obtain ⟨span, name, g₁, colon, g₂, type, g₃, semi⟩ := f
      rw [FieldList.forms, List.foldr_cons, FieldForms.cons.injEq] at h
      obtain ⟨hname, htype, hrest⟩ := h
      refine .cons ⟨hname, ?_⟩ (ih hrest)
      cases type with
      | name ident => exact ⟨ident, rfl, TypeForm.name.inj htype⟩
      | list => cases htype
      | oneOf => cases htype

/-- The declaration is the given sequence. -/
def IsFlat (d : Decl) (q : FlatSequence) : Prop :=
  ∃ e, d = .sequence e ∧ e.name.text = q.name ∧ List.Forall₂ IsPlain e.fields q.fields

theorem isFlat_of_forms {tree : SchemaTree} {qs : List FlatSequence} (h : tree.forms = qs.map FlatSequence.forms) :
    List.Forall₂ IsFlat tree.decls qs := by
  rw [SchemaTree.forms, ← List.forall₂_eq_eq_eq, List.forall₂_map_left_iff, List.forall₂_map_right_iff] at h
  refine h.imp fun d q hform => ?_
  cases d with
  | enum e => cases hform
  | sequence e =>
    obtain ⟨hname, hfields⟩ := DeclForm.sequence.inj hform
    exact ⟨e, rfl, hname, isPlain_of_forms hfields⟩

section Flat

variable {qs : List FlatSequence} {d : SequenceDecl} {q : FlatSequence}
  {fs : List FieldExpr} {ps : List (Bytes × Bytes)}

theorem names_of_flat (h : List.Forall₂ IsFlat ds qs) : (ds.map fun d => d.name.text) = qs.map FlatSequence.name := by
  induction h with
  | nil => rfl
  | cons hd _ ih =>
    obtain ⟨e, rfl, hname, -⟩ := hd
    rw [List.map_cons, List.map_cons, ih, ← hname]
    rfl

theorem firstDecl_of_flat (h : List.Forall₂ IsFlat ds qs) (name : Bytes) :
    firstDecl ds name = (qs.map FlatSequence.name).findIdx? (· = name) := by
  rw [← names_of_flat h, List.findIdx?_map]
  rfl

theorem firstDecl_of_mem_take (h : List.Forall₂ IsFlat ds qs) {name : Bytes}
    (hname : name ∈ (qs.take i).map FlatSequence.name) : ∃ j < i, firstDecl ds name = some j := by
  rw [firstDecl_of_flat h]
  rw [List.map_take] at hname
  obtain ⟨j, hj, hget⟩ := List.mem_take_iff_getElem.1 hname
  obtain ⟨hji, hjn⟩ := Nat.lt_min.1 hj
  have hsome : ((qs.map FlatSequence.name).findIdx? (· = name)).isSome = true := by
    rw [List.findIdx?_isSome, List.any_eq_true]
    exact ⟨_, List.getElem_mem hjn, decide_eq_true hget⟩
  obtain ⟨k, hk⟩ := Option.isSome_iff_exists.1 hsome
  obtain ⟨_, _, hfirst⟩ := List.findIdx?_eq_some_iff_getElem.1 hk
  -- the first one of this name stands at j or before
  refine ⟨k, Nat.lt_of_not_le fun hik => ?_, hk⟩
  exact hfirst j (Nat.lt_of_lt_of_le hji hik) (decide_eq_true hget)

theorem isFlat_getElem? (h : List.Forall₂ IsFlat ds qs) {d : Decl} (hd : ds[i]? = some d) :
    ∃ q, qs[i]? = some q ∧ IsFlat d q := by
  induction h generalizing i with
  | nil => cases hd
  | cons hflat _ ih =>
    cases i with
    | zero =>
      cases hd
      exact ⟨_, rfl, hflat⟩
    | succ i => exact ih hd

theorem isFlat_of_mem (h : List.Forall₂ IsFlat ds qs) (hd : Decl.sequence d ∈ ds) :
    ∃ (i : Nat) (q : FlatSequence), qs[i]? = some q ∧ List.Forall₂ IsPlain d.fields q.fields := by
  obtain ⟨i, hi⟩ := List.getElem?_of_mem hd
  obtain ⟨q, hq, e, heq, -, hfields⟩ := isFlat_getElem? h hi
  cases heq
  exact ⟨i, q, hq, hfields⟩

theorem isPlain_of_mem {f : FieldExpr} (h : List.Forall₂ IsPlain fs ps) (hf : f ∈ fs) : ∃ p ∈ ps, IsPlain f p := by
  induction h with
  | nil => cases hf
  | @cons g p gs ps hplain _ ih =>
    rcases List.mem_cons.1 hf with rfl | hf
    · exact ⟨p, List.mem_cons_self, hplain⟩
    · obtain ⟨p', hp', hplain'⟩ := ih hf
      exact ⟨p', List.mem_cons_of_mem p hp', hplain'⟩

theorem names_of_plain (h : List.Forall₂ IsPlain fs ps) : (fs.map fun f => f.name.text) = ps.map Prod.fst := by
  induction h with
  | nil => rfl
  | cons hplain _ ih => rw [List.map_cons, List.map_cons, ih, hplain.1]

/-- The size of a type of the given name. -/
def namedSize (names : List Bytes) (size : Nat → Nat) (name : Bytes) : Nat :=
  if isBuiltin name then ownSize (.name ⟨0, name⟩) else ((names.findIdx? (· = name)).map size).getD 0

theorem memberSize_of_plain (h : List.Forall₂ IsFlat ds qs) (hfs : List.Forall₂ IsPlain fs ps) :
    (fs.map fun f => memberSize ds size f.type) =
      ps.map fun p => namedSize (qs.map FlatSequence.name) size p.2 := by
  induction hfs with
  | nil => rfl
  | cons hf _ ih =>
    obtain ⟨-, ident, htype, htext⟩ := hf
    rw [List.map_cons, List.map_cons, ih, htype, memberSize, firstDecl_of_flat h, htext, namedSize, ← htext]
    rfl

/-- The sequences have names of their own, as have their fields, and each holds earlier ones only. -/
structure Stacked (qs : List FlatSequence) : Prop where
  distinct : (qs.map FlatSequence.name).Nodup
  free : ∀ q ∈ qs, isBuiltin q.name = false ∧ q.name ≠ oneofKeyword
  members : ∀ q ∈ qs, (q.fields.map Prod.fst).Nodup
  types : ∀ (i : Nat) q, qs[i]? = some q → ∀ p ∈ q.fields,
    isBuiltin p.2 = true ∨ p.2 ∈ (qs.take i).map FlatSequence.name

theorem Stacked.lt_of_embeds (hs : Stacked qs) (h : List.Forall₂ IsFlat ds qs) (hij : Embeds ds i j) : j < i := by
  obtain ⟨d, e, f, hd, -, hf, ident, htype, hbuiltin, hfirst⟩ := hij
  obtain ⟨q, hq, d', heq, -, hfields⟩ := isFlat_getElem? h hd
  cases heq
  obtain ⟨p, hp, -, ident', htype', htext⟩ := isPlain_of_mem hfields hf
  cases htype.symm.trans htype'
  rcases hs.types i q hq p hp with hp' | hp'
  · rw [← htext, hbuiltin] at hp'
    cases hp'
  · obtain ⟨k, hk, hfirst'⟩ := firstDecl_of_mem_take h hp'
    rw [← htext, hfirst] at hfirst'
    cases hfirst'
    exact hk

theorem Stacked.narrow (hs : Stacked qs) (h : List.Forall₂ IsFlat ds qs)
    (hlength : ∀ j ≤ i, ∀ q, qs[j]? = some q → q.fields.length ≤ 65537) : Narrow ds i := by
  intro j d n hij hd _
  have hle : j ≤ i := by
    clear hd
    induction hij with
    | refl => exact Nat.le_refl i
    | tail _ hjk ih => exact Nat.le_trans (Nat.le_of_lt (hs.lt_of_embeds h hjk)) ih
  obtain ⟨q, hq, e, heq, -, hfields⟩ := isFlat_getElem? h hd
  cases heq
  exact .inl (hfields.length_eq ▸ hlength j hle q hq)

theorem Stacked.clean (hs : Stacked qs) (h : List.Forall₂ IsFlat ds qs)
    (hsizes : ∀ (i : Nat) q, qs[i]? = some q → size i ≤ maxStaticSize ∧
      size i = (q.fields.map fun p => namedSize (qs.map FlatSequence.name) size p.2).sum % 0x100000000) :
    Clean ds size := by
  refine ⟨names_of_flat h ▸ hs.distinct, fun d hd => ?_, fun e he => ?_, fun d hd => ?_, fun d hd f hf => ?_,
    Schema.not_transGen_of_rank (fun i => i) fun _ _ => hs.lt_of_embeds h, fun i e he => ?_, fun i d hd => ?_⟩
  · obtain ⟨i, hi⟩ := List.getElem?_of_mem hd
    obtain ⟨q, hq, e, rfl, hname, -⟩ := isFlat_getElem? h hi
    have hq' := hs.free q (List.mem_of_getElem? hq)
    rw [← hname] at hq'
    exact hq'
  · obtain ⟨i, hi⟩ := List.getElem?_of_mem he
    obtain ⟨q, -, e, heq, -⟩ := isFlat_getElem? h hi
    cases heq
  · obtain ⟨i, q, hq, hfields⟩ := isFlat_of_mem h hd
    rw [names_of_plain hfields]
    exact hs.members q (List.mem_of_getElem? hq)
  · obtain ⟨i, q, hq, hfields⟩ := isFlat_of_mem h hd
    obtain ⟨p, hp, -, ident, htype, htext⟩ := isPlain_of_mem hfields hf
    rw [htype, typeErrors, errorIf, if_neg]
    rcases hs.types i q hq p hp with hp' | hp'
    · simp [htext, hp']
    · obtain ⟨k, -, hk⟩ := firstDecl_of_mem_take h hp'
      simp [htext, hk]
  · obtain ⟨q, -, d, heq, -⟩ := isFlat_getElem? h he
    cases heq
  · obtain ⟨q, hq, e, heq, -, hfields⟩ := isFlat_getElem? h hd
    cases heq
    rw [membersSize, memberSize_of_plain h hfields]
    exact (hsizes i q hq).symm

theorem hasSize_builtin {ident : Lexeme} (h : isBuiltin ident.text = true) :
    HasSize ds (.name ident) (ownSize (.name ident)) := by
  cases hk : PrimitiveKind.ofName? ident.text with
  | some k =>
    rw [ownSize, hk]
    exact .primitive hk
  | none =>
    have hname : ident.text = stringTypeName := by simpa [isBuiltin, hk] using h
    rw [ownSize, hk, if_pos hname]
    exact .string hname

theorem totalSize_of_plain {sizeOf : Bytes × Bytes → Nat} (h : List.Forall₂ IsPlain fs ps)
    (hsizes : ∀ p ∈ ps, ∀ f, IsPlain f p → HasSize ds f.type (sizeOf p)) : TotalSize ds fs (ps.map sizeOf).sum := by
  induction h with
  | nil => exact .nil
  | @cons f p _ ps hplain _ ih =>
    rw [List.map_cons, List.sum_cons]
    exact .cons (hsizes p List.mem_cons_self f hplain) (ih fun p' hp' => hsizes p' (List.mem_cons_of_mem p hp'))

theorem Stacked.totalSize (hs : Stacked qs) (h : List.Forall₂ IsFlat ds qs)
    (hsizes : ∀ (i : Nat) q, qs[i]? = some q →
      size i = (q.fields.map fun p => namedSize (qs.map FlatSequence.name) size p.2).sum) :
    ∀ d, ds[i]? = some (.sequence d) → TotalSize ds d.fields (size i) := by
  induction i using Nat.strongRecOn with
  | ind i ih =>
    intro d hd
    obtain ⟨q, hq, e, heq, -, hfields⟩ := isFlat_getElem? h hd
    cases heq
    rw [hsizes i q hq]
    refine totalSize_of_plain hfields fun p hp f hplain => ?_
    obtain ⟨-, ident, htype, htext⟩ := hplain
    rw [htype, ← htext, namedSize, ← firstDecl_of_flat h]
    cases hbuiltin : isBuiltin ident.text with
    | true => exact hasSize_builtin hbuiltin
    | false =>
      have hearlier := (hs.types i q hq p hp).resolve_left (by rw [← htext, hbuiltin]; exact Bool.false_ne_true)
      obtain ⟨j, hj, hfirst⟩ := firstDecl_of_mem_take h hearlier
      obtain ⟨hlt, -⟩ := List.findIdx?_eq_some_iff_getElem.1 hfirst
      have he := List.getElem?_eq_getElem hlt
      obtain ⟨-, -, e, heq, -⟩ := isFlat_getElem? h he
      rw [heq] at he
      rw [htext, hfirst]
      exact .sequence ⟨ident, rfl, hbuiltin, htext ▸ hfirst⟩ he (ih j hj e he)

end Flat

/-! ### A sequence of 2 ^ 32 bytes -/

/-- A name for each number, of few letters if the number is not large. -/
def letters (k : Nat) : Bytes := List.replicate (k % 256 + 1) 0x61 ++ List.replicate (k / 256) 0x62

theorem letters_injective : Function.Injective letters := by
  intro j k h
  have ha := congrArg (List.count 0x61) h
  have hb := congrArg (List.count 0x62) h
  simp [letters, List.count_append, List.count_replicate] at ha hb
  omega

theorem length_letters {k : Nat} (hk : k ≤ 65537) : (letters k).length ≤ 512 := by
  simp only [letters, List.length_append, List.length_replicate]
  omega

theorem isName_letters {k : Nat} (hk : k ≤ 65537) : Token.isName (letters k) = true := by
  have hlen : (letters k).length ≤ maxTokenLen := Nat.le_trans (length_letters hk) (by decide)
  have hall : (letters k).all Token.isWord = true := by
    simp only [letters, List.all_append, List.all_replicate]
    simp [show Token.isWord 0x61 = true from rfl, show Token.isWord 0x62 = true from rfl]
  have hhead : (letters k).head? = some 0x61 := by
    rw [letters, List.replicate_succ]
    rfl
  rw [Token.isName, hhead, hall, decide_eq_true hlen]
  rfl

/-- So many fields of the type. -/
def copies (n : Nat) (type : Bytes) : List (Bytes × Bytes) := (List.range n).map fun k => (letters k, type)

theorem mem_copies {n : Nat} {t : Bytes} {p : Bytes × Bytes} : p ∈ copies n t ↔ ∃ k < n, p = (letters k, t) := by
  simp [copies, eq_comm]

theorem sum_copies (n : Nat) (t : Bytes) (f : Bytes → Nat) : ((copies n t).map fun p => f p.2).sum = n * f t := by
  rw [copies, List.map_map]
  induction n with
  | zero => simp
  | succ n ih => simp [List.range_succ, ih, Nat.succ_mul]

theorem length_copies (n : Nat) (t : Bytes) : (copies n t).length = n := by
  rw [copies, List.length_map, List.length_range]

/-- Parts of m bytes, and n of them with one byte more. -/
def wide (m n : Nat) : List FlatSequence :=
  [⟨"Part", copies m "u8"⟩, ⟨"Whole", copies n "Part" ++ [(letters n, Bytes.ofString "u8")]⟩]

section Wide

variable {m n : Nat}

theorem names_wide : (wide m n).map FlatSequence.name = [Bytes.ofString "Part", "Whole"] := rfl

theorem nodup_wide : ∀ q ∈ wide m n, (q.fields.map Prod.fst).Nodup := by
  have hnodup (n : Nat) : ((List.range n).map letters).Nodup := List.nodup_range.map letters_injective
  refine List.forall_mem_cons.2 ⟨?_, List.forall_mem_singleton.2 ?_⟩
  · have hfst : (copies m "u8").map Prod.fst = (List.range m).map letters := by simp [copies]
    rw [hfst]
    exact hnodup m
  · have hfst : (copies n "Part" ++ [(letters n, Bytes.ofString "u8")]).map Prod.fst =
        (List.range (n + 1)).map letters := by
      simp [copies, List.range_succ]
    rw [hfst]
    exact hnodup (n + 1)

theorem mem_wide (hm : m ≤ 65537) (hn : n ≤ 65537) {q : FlatSequence} (hq : q ∈ wide m n) :
    q.name ∈ [Bytes.ofString "Part", "Whole"] ∧
      ∀ p ∈ q.fields, (∃ k ≤ 65537, p.1 = letters k) ∧ p.2 ∈ [Bytes.ofString "Part", "u8"] := by
  refine ⟨names_wide (m := m) (n := n) ▸ List.mem_map_of_mem hq, fun p hp => ?_⟩
  rcases List.mem_pair.1 hq with rfl | rfl
  · obtain ⟨k, hk, rfl⟩ := mem_copies.1 hp
    exact ⟨⟨k, by omega, rfl⟩, by simp⟩
  · rcases List.mem_append.1 hp with hp | hp
    · obtain ⟨k, hk, rfl⟩ := mem_copies.1 hp
      exact ⟨⟨k, by omega, rfl⟩, by simp⟩
    · obtain rfl := List.mem_singleton.1 hp
      exact ⟨⟨n, hn, rfl⟩, by simp⟩

theorem proper_wide (hm : m ≤ 65537) (hn : n ≤ 65537) : ∀ q ∈ wide m n, q.Proper := by
  have hnames : ∀ w ∈ [Bytes.ofString "Part", "Whole"], Token.isName w = true := by decide +kernel
  have htypes : ∀ w ∈ [Bytes.ofString "Part", "u8"], Token.isName w = true ∧ w ≠ "oneof" := by decide +kernel
  intro q hq
  obtain ⟨hname, hfields⟩ := mem_wide hm hn hq
  refine ⟨hnames _ hname, fun p hp => ?_⟩
  obtain ⟨⟨k, hk, hfst⟩, hsnd⟩ := hfields p hp
  exact ⟨hfst ▸ isName_letters hk, htypes _ hsnd⟩

theorem length_wide (hm : m ≤ 65537) (hn : n ≤ 65537) : (FlatSequence.source (wide m n)).length ≤ maxSourceLen := by
  have hshort : ∀ w ∈ [Bytes.ofString "Part", "Whole", "u8"], w.length ≤ 512 := by decide +kernel
  have hsource : (FlatSequence.source (wide m n)).length ≤
      512 * ((wide m n).map fun q => 5 + 4 * q.fields.length).sum := by
    refine FlatSequence.length_source_le (by decide) fun q hq => ?_
    obtain ⟨hname, hfields⟩ := mem_wide hm hn hq
    refine ⟨hshort _ (by grind), fun p hp => ?_⟩
    obtain ⟨⟨k, hk, hfst⟩, hsnd⟩ := hfields p hp
    exact ⟨hfst ▸ length_letters hk, hshort _ (by grind)⟩
  refine Nat.le_trans hsource ?_
  simp only [wide, List.map_cons, List.map_nil, List.sum_cons, List.sum_nil, List.length_append, length_copies,
    List.length_singleton, maxSourceLen]
  omega

theorem stacked_wide (hm : m ≤ 65537) (hn : n ≤ 65537) : Stacked (wide m n) where
  distinct := by
    rw [names_wide]
    decide +kernel
  free q hq := by
    have hfree : ∀ w ∈ [Bytes.ofString "Part", "Whole"], isBuiltin w = false ∧ w ≠ oneofKeyword := by decide +kernel
    exact hfree _ (mem_wide hm hn hq).1
  members := nodup_wide
  types i q hq p hp := by
    have hbyte : isBuiltin "u8" = true := by decide +kernel
    rcases i with _ | _ | i
    · cases hq
      obtain ⟨k, -, rfl⟩ := mem_copies.1 hp
      exact .inl hbyte
    · cases hq
      rcases List.mem_append.1 hp with hp | hp
      · obtain ⟨k, -, rfl⟩ := mem_copies.1 hp
        exact .inr (by simp [wide])
      · obtain rfl := List.mem_singleton.1 hp
        exact .inl hbyte
    · cases hq

/-- The sizes, where each is reduced to some range. -/
def wideSize (reduce : Nat → Nat) (m n : Nat) : Nat → Nat
  | 0 => reduce m
  | _ => reduce (n * reduce m + 1)

theorem wideSize_eq (reduce : Nat → Nat) (i : Nat) (q : FlatSequence) (hq : (wide m n)[i]? = some q) :
    wideSize reduce m n i =
      reduce (q.fields.map fun p => namedSize ((wide m n).map FlatSequence.name) (wideSize reduce m n) p.2).sum := by
  have hbyte : namedSize [Bytes.ofString "Part", "Whole"] (wideSize reduce m n) "u8" = 1 := by
    rw [namedSize, if_pos (by decide +kernel)]
    decide +kernel
  have hpart : namedSize [Bytes.ofString "Part", "Whole"] (wideSize reduce m n) "Part" = reduce m := by
    have hfirst : [Bytes.ofString "Part", "Whole"].findIdx? (· = Bytes.ofString "Part") = some 0 := by decide +kernel
    rw [namedSize, if_neg (by decide +kernel), hfirst]
    rfl
  rw [names_wide]
  rcases i with _ | _ | i
  · cases hq
    rw [sum_copies m _ (namedSize _ _), hbyte, Nat.mul_one]
    rfl
  · cases hq
    rw [List.map_append, List.sum_append, sum_copies n _ (namedSize _ _), hpart, List.map_singleton, List.sum_singleton,
      hbyte]
    rfl
  · cases hq

theorem clean_wide (hm : m ≤ 65535) (hn : n ≤ 65537) (hsize : (n * m + 1) % 0x100000000 ≤ 65535)
    (h : List.Forall₂ IsFlat ds (wide m n)) : Clean ds (wideSize (· % 0x100000000) m n) := by
  refine (stacked_wide (by omega) hn).clean h fun i q hq => ⟨?_, wideSize_eq _ i q hq⟩
  have hpart : m % 0x100000000 = m := Nat.mod_eq_of_lt (by omega)
  rcases i with _ | i
  · change m % 0x100000000 ≤ 65535
    omega
  · change (n * (m % 0x100000000) + 1) % 0x100000000 ≤ 65535
    rw [hpart]
    exact hsize

theorem parse_wide (hm : m ≤ 65537) (hn : n ≤ 65537) : ∃ tree d,
    SchemaTree.parse (FlatSequence.source (wide m n)) false = .ok tree ∧ List.Forall₂ IsFlat tree.decls (wide m n) ∧
    tree.decls[1]? = some (.sequence d) ∧ d.fields.length = n + 1 ∧ TotalSize tree.decls d.fields (n * m + 1) := by
  obtain ⟨tree, hparse, hforms⟩ := FlatSequence.parse_source (proper_wide hm hn) (length_wide hm hn) false
  have hflat := isFlat_of_forms hforms
  have hlt : 1 < tree.decls.length := by
    rw [hflat.length_eq]
    exact Nat.one_lt_two
  have hd := List.getElem?_eq_getElem hlt
  obtain ⟨q, hq, d, heq, -, hplain⟩ := isFlat_getElem? hflat hd
  cases hq
  rw [heq] at hd
  refine ⟨tree, d, hparse, hflat, hd, ?_, (stacked_wide hm hn).totalSize hflat (wideSize_eq id) d hd⟩
  rw [hplain.length_eq, List.length_append, length_copies, List.length_singleton]

end Wide

/-! ### Sizes in 32 bits -/

theorem Accepted.compiled_of_mem (h : Accepted ds st) {id : TypeId} {q : SequenceType}
    (hid : id ∈ st.builder.schema.decls) (hq : st.builder.schema.type? id = some (.sequence q)) :
    ∃ d, Compiled st (.sequence d) (.sequence q) := by
  obtain ⟨i, hi⟩ := List.getElem?_of_mem hid
  have hlt : i < ds.length := by
    have hlt := (List.getElem?_eq_some_iff.1 hi).1
    rw [h.decls_eq, List.length_map] at hlt
    rw [← h.infos, List.length_map]
    exact hlt
  obtain ⟨p, t, -, hp, -, -, ht, hcompiled⟩ := h.type_of_decl (List.getElem?_eq_getElem hlt)
  cases hi.symm.trans hp
  cases hq.symm.trans ht
  cases hd : ds[i] with
  | enum e =>
    rw [hd] at hcompiled
    cases hcompiled
  | sequence d =>
    rw [hd] at hcompiled
    exact ⟨d, hcompiled⟩

/-- Without errors the size of a sequence is the sum of what its fields take modulo 2 ^ 32, and the sum itself if there
are at most 65537 fields. A sequence that is too large is refused, unless it or one inside it has more fields and takes
2 ^ 32 bytes or more. -/
theorem compile_size_mod (tree : SchemaTree) (name : Bytes) :
    ((compile tree name).errors = [] → ∃ s, (compile tree name).schema = some s ∧
      ∀ id ∈ s.decls, ∀ q, s.type? id = some (.sequence q) →
        q.size.toNat = s.total q.fields % 2 ^ 32 ∧ q.size.toNat ≤ 65535 ∧
        (q.fields.length ≤ 65537 → q.size.toNat = s.total q.fields)) ∧
    ∀ i d n, tree.decls[i]? = some (.sequence d) → Narrow tree.decls i → TotalSize tree.decls d.fields n → 65535 < n →
      (compile tree name).errors ≠ [] := by
  refine ⟨fun herrors => ?_, fun i d n hd hnarrow htotal hlarge herrors => ?_⟩
  · obtain ⟨haccepted, hschema⟩ := compile_accepted herrors
    refine ⟨_, hschema, fun id hid q hq => ?_⟩
    obtain ⟨d, hcompiled⟩ := haccepted.compiled_of_mem hid hq
    obtain ⟨q', heq, -, -, hsize⟩ := hcompiled.size_eq
    cases heq
    refine ⟨hsize, Nat.le_of_lt_succ q.size.toNat_lt, fun hlength => ?_⟩
    rw [hsize, total_mod _ hlength]
  · obtain ⟨haccepted, -⟩ := compile_accepted herrors
    obtain ⟨p, t, -, hp, -, -, ht, -⟩ := haccepted.type_of_decl hd
    have hexact := haccepted.totalSize i hnarrow d p hd hp
    rw [htotal.unique hexact, Schema.staticSize_eq ht] at hlarge
    exact absurd hlarge (Nat.not_lt.2 t.staticSize_le)

/-- Five parts of three bytes have the size that they should, and two of the largest are refused. -/
theorem compile_size_mod_wide :
    (∃ tree s id q, SchemaTree.parse (FlatSequence.source (wide 3 5)) false = .ok tree ∧ (compile tree []).errors = [] ∧
      (compile tree []).schema = some s ∧ id ∈ s.decls ∧ s.type? id = some (.sequence q) ∧
      q.fields.length ≤ 65537 ∧ q.size.toNat = s.total q.fields) ∧
    ∃ tree d, SchemaTree.parse (FlatSequence.source (wide 65535 2)) false = .ok tree ∧
      tree.decls[1]? = some (.sequence d) ∧ Narrow tree.decls 1 ∧ TotalSize tree.decls d.fields 131071 ∧
      (compile tree []).errors ≠ [] := by
  constructor
  · obtain ⟨tree, d, hparse, hflat, hd, hlength, -⟩ := parse_wide (m := 3) (n := 5) (by decide) (by decide)
    have herrors := (clean_wide (by decide) (by decide) (by decide) hflat).compile_errors_eq_nil []
    obtain ⟨haccepted, hschema⟩ := compile_accepted herrors
    obtain ⟨id, q, hid, hq, hfields, -⟩ := haccepted.sequence_of_decl hd
    obtain ⟨s, hs, hsizes⟩ := (compile_size_mod tree []).1 herrors
    cases hschema.symm.trans hs
    have hmem := List.mem_of_getElem? hid
    have hle : q.fields.length ≤ 65537 := by
      rw [← hfields.length_eq, hlength]
      decide
    exact ⟨tree, _, id, q, hparse, herrors, hschema, hmem, hq, hle, (hsizes id hmem q hq).2.2 hle⟩
  · obtain ⟨tree, d, hparse, hflat, hd, -, htotal⟩ := parse_wide (m := 65535) (n := 2) (by decide) (by decide)
    have hnarrow : Narrow tree.decls 1 := by
      refine (stacked_wide (by decide) (by decide)).narrow hflat fun j hj q hq => ?_
      rcases j with _ | _ | j
      · cases hq
        rw [length_copies]
        decide
      · cases hq
        rw [List.length_append, length_copies]
        decide
      · cases hq
    exact ⟨tree, d, hparse, hd, hnarrow, htotal,
      (compile_size_mod tree []).2 1 d _ hd hnarrow htotal (by decide)⟩

/-- A sequence of 2 ^ 32 bytes is accepted, and has the size of an empty one. -/
theorem compile_wide : ∃ tree d s id q, SchemaTree.parse (FlatSequence.source (wide 65535 65537)) false = .ok tree ∧
    tree.decls[1]? = some (.sequence d) ∧ TotalSize tree.decls d.fields (2 ^ 32) ∧
    (compile tree []).errors = [] ∧ (compile tree []).schema = some s ∧
    s.decls[1]? = some id ∧ s.type? id = some (.sequence q) ∧ s.total q.fields = 2 ^ 32 ∧ q.size = 0 := by
  obtain ⟨tree, d, hparse, hflat, hd, -, htotal⟩ := parse_wide (m := 65535) (n := 65537) (by decide) (by decide)
  have hclean := clean_wide (by decide) (by decide) (by decide) hflat
  have hstacked := stacked_wide (m := 65535) (n := 65537) (by decide) (by decide)
  have hnarrow : ∀ j < 1, Narrow tree.decls j := by
    intro j hj
    refine hstacked.narrow hflat fun k hk q hq => ?_
    obtain rfl : k = 0 := by omega
    cases hq
    rw [length_copies]
    decide
  have herrors := hclean.compile_errors_eq_nil []
  obtain ⟨haccepted, hschema⟩ := compile_accepted herrors
  obtain ⟨id, q, hid, hq, hfields, hsize⟩ := haccepted.sequence_of_decl hd
  -- what the parts take is right, so the sum over all fields is
  obtain ⟨htotal', -⟩ := haccepted.totalSize_of_fields hfields fun f hf j e p hnames he hp =>
    have hj := hstacked.lt_of_embeds hflat ⟨d, e, f, hd, he, hf, hnames⟩
    haccepted.totalSize j (hnarrow j hj) e p he hp
  have hsum := htotal'.unique htotal
  rw [hsum] at hsize
  exact ⟨tree, d, _, id, q, hparse, hd, htotal, herrors, hschema, hid, hq, hsum, UInt16.toNat_inj.1 hsize⟩

end Compile

end Flatwire
