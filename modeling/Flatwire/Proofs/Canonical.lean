import Flatwire.Proofs.Access
import Flatwire.Proofs.Conformance
import Flatwire.Proofs.Metering
import Flatwire.Proofs.Widening

/-! Decoded values are encoded again. The values that a checked reader decodes have a form of their own, in which only
the numbers of enums may be unknown to the schema. Whatever is encoded from a value of this form is read back as it is,
so that decoding and encoding a buffer a second time changes nothing. -/

namespace Flatwire

namespace PrimitiveKind

variable {k : PrimitiveKind} {n : Nat}

theorem restored_int (hb : k ≠ .bool) (hf : k.isFloat = false)
    (hn : n < Nat.pow 256 k.size) :
    ∃ x, k.restored n = .int x ∧ k.Admits x.value ∧ k.decoded (.int x) = .int x := by
  cases k with
  | bool => exact absurd rfl hb
  | f32 | f64 => cases hf
  | u8 | u16 | u32 | u64 =>
    simp only [size, Nat.pow_eq, Nat.reducePow] at hn
    have hvalue := Integer.value_u64 (show n < _ by omega)
    refine ⟨_, rfl, ?_, congrArg Value.u64 ?_⟩
    · rw [hvalue]
      simp only [Admits]
      omega
    · rw [hvalue, Int.toNat_natCast]
  | i8 | i16 | i32 | i64 =>
    simp only [size, Nat.pow_eq, Nat.reducePow] at hn
    refine ⟨_, rfl, ?_, congrArg Value.i64 (Integer.value_i64 ?_ ?_)⟩
    · rw [Integer.value_i64] <;>
        simp only [Admits, size, signed, Nat.pow_eq, Nat.reducePow, Nat.reduceMul, Nat.reduceSub] <;> omega
    · simp only [size, signed, Nat.pow_eq, Nat.reducePow, Nat.reduceMul, Nat.reduceSub]
      omega
    · simp only [size, signed, Nat.pow_eq, Nat.reducePow, Nat.reduceMul, Nat.reduceSub]
      omega

theorem component?_restored (hn : n < Nat.pow 256 k.size) :
    ∃ c, k.component? (k.restored n) = some c := by
  rw [component?_isSome_iff]
  cases k with
  | bool => exact .inr (.inr ⟨rfl, _, rfl⟩)
  | f32 => exact .inr (.inl ⟨.inl rfl, trivial⟩)
  | f64 => exact .inr (.inl ⟨.inr rfl, trivial⟩)
  | u8 | u16 | u32 | u64 | i8 | i16 | i32 | i64 =>
    obtain ⟨x, hx, hadmits, -⟩ := restored_int (by decide) rfl hn
    exact .inl ⟨x, hx, hadmits⟩

theorem decoded_restored (hn : n < Nat.pow 256 k.size) :
    k.decoded (k.restored n) = k.restored n := by
  cases k with
  | bool => rfl
  | f32 => exact congrArg Value.f64 (FloatFormat.convert_stable FloatFormat.single_widens_double hn)
  | f64 => exact congrArg Value.f64 (Nat.mod_eq_of_lt hn)
  | u8 | u16 | u32 | u64 | i8 | i16 | i32 | i64 =>
    obtain ⟨x, hx, -, hdecoded⟩ := restored_int (by decide) rfl hn
    rw [hx, hdecoded]

end PrimitiveKind

namespace Value

/-- The values that readers decode. -/
inductive Canonical (s : Schema) : TypeId → Value → Prop
  | primitive {id : TypeId} {k : PrimitiveKind} {n : Nat} (ht : s.type? id = some (.primitive k))
      (hn : n < Nat.pow 256 k.size) : Canonical s id (k.restored n)
  | enum {id : TypeId} {e : EnumType} {n : Nat} (ht : s.type? id = some (.enum e))
      (hn : n < Nat.pow 256 e.width.toNat) : Canonical s id (.u64 n)
  | text {id : TypeId} {t : Bytes} (ht : s.type? id = some .string) (h0 : 0 ∉ t) : Canonical s id (.text t)
  | bytes {id elem : TypeId} {items : Bytes} (ht : s.type? id = some (.list elem))
      (hu : s.type? elem = some (.primitive .u8)) (hl : items.length ≤ maxListLength) : Canonical s id (.bytes items)
  | list {id elem : TypeId} {items : List Value} (ht : s.type? id = some (.list elem))
      (hu : s.type? elem ≠ some (.primitive .u8)) (hl : items.length ≤ maxListLength)
      (hi : ∀ v ∈ items, Canonical s elem v) : Canonical s id (.list items)
  | record {id : TypeId} {q : SequenceType} {fields : List (Bytes × Value)} (ht : s.type? id = some (.sequence q))
      (hnames : fields.map Prod.fst = q.fields.map Field.name)
      (hf : ∀ f ∈ q.fields, ∀ v, named? fields f.name = some v → Canonical s f.type v) : Canonical s id (.record fields)
  | variant {id : TypeId} {o : OneOfType} {member : Variant} {value : Value} (ht : s.type? id = some (.oneOf o))
      (hm : member ∈ o.variants) (hv : Canonical s member.type value) : Canonical s id (.variant member.name value)

end Value

/-! ### What is decoded -/

namespace Reader

variable {r : Reader}

theorem zero_notMem_text {t : Bytes} (hc : r.checked = true) (h : r.text = .ok t) : 0 ∉ t := by
  unfold text at h
  split at h
  · rw [if_pos hc] at h
    obtain ⟨_, -, h⟩ := exists_of_bind h
    obtain ⟨p, -, h⟩ := exists_of_bind h
    obtain ⟨_, -, h⟩ := exists_of_bind h
    split at h
    · cases h
    · rename_i stop hstop
      obtain ⟨t', hfree, rfl, hheld⟩ := Buffer.holds_of_zeroFromAux hstop
      have hslice := fetch_eq_ok h
      rw [Nat.cast_add, (Buffer.holds_append.1 hheld).1.slice?] at hslice
      cases hslice
      exact hfree
  · cases h

theorem length_listHeader {h : ListHeader} (hok : r.listHeader = .ok h) : h.length ≤ maxListLength := by
  obtain ⟨-, -, ⟨payload, hhead, -⟩, -⟩ := listHeader_eq_ok.1 hok
  obtain ⟨count, hcount, hhead⟩ := Option.bind_eq_some_iff.1 hhead
  obtain ⟨_, -, hhead⟩ := Option.bind_eq_some_iff.1 hhead
  cases hhead
  exact Nat.le_of_lt_succ (Buffer.readNat?_lt hcount)

end Reader

section

variable {r : Reader} {b left : Int} {v : Value}

theorem decodePrimitive_canonical {k : PrimitiveKind} (hc : r.checked = true) (ht : r.type? = some (.primitive k))
    (h : decodePrimitive r k b = .ok (v, left)) : v.Canonical r.schema r.id := by
  rcases Reader.check_cases hc r.addr k.size with ⟨hin, -⟩ | herr
  · obtain ⟨n, hn, hheld⟩ := Buffer.exists_holds hin
    rw [Reader.decodePrimitive_eq ht hheld, Nat.mod_eq_of_lt hn] at h
    cases h
    exact .primitive ht hn
  · exfalso
    cases k <;>
      simp only [PrimitiveKind.size] at herr <;>
      simp [decodePrimitive, PrimitiveKind.isFloat, PrimitiveKind.isSigned, PrimitiveKind.size, Reader.bool,
        Reader.float, Reader.int, Reader.uint, ht, herr, plain] at h

theorem decodeEnum_canonical {e : EnumType} (ht : r.type? = some (.enum e))
    (h : plain b .u64 r.uint = .ok (v, left)) : v.Canonical r.schema r.id := by
  obtain ⟨n, hn, rfl, -⟩ := plain_eq_ok.1 h
  simp only [Reader.uint, ht] at hn
  obtain ⟨_, -, hn⟩ := exists_of_bind hn
  exact .enum ht (Buffer.readNat?_lt (Reader.fetch_eq_ok hn))

/-- What checked readers of the schema decode is in canonical form. -/
def DecodesCanonical (decode : Reader → Int → Decoded) (s : Schema) : Prop :=
  ∀ (r : Reader) (b left : Int) (v : Value), r.schema = s → r.checked = true → decode r b = .ok (v, left) →
    v.Canonical s r.id

theorem decodeList_canonical {decode : Reader → Int → Decoded} {elem : TypeId} (hd : Shrinks decode)
    (ih : DecodesCanonical decode r.schema) (hc : r.checked = true) (ht : r.type? = some (.list elem))
    (h : decodeList decode r elem b = .ok (v, left)) : v.Canonical r.schema r.id := by
  unfold decodeList at h
  split_ifs at h with hu
  · split at h
    · cases h
    · rename_i items hitems
      obtain ⟨_, -, h⟩ := exists_of_bind h
      cases h
      obtain ⟨header, hhead, -, hslice⟩ := Reader.bytes_eq_ok.1 hitems
      refine .bytes ht hu ?_
      rw [(Buffer.holds_of_slice? hslice).2]
      exact Reader.length_listHeader hhead
  · split at h
    · cases h
    · rename_i header hhead
      obtain ⟨paid, -, h⟩ := exists_of_bind h
      obtain ⟨items, rfl, hlen, hitems⟩ := decodeItems_items hd h
      have helem : header.elem = elem := by
        have heq := (Reader.listHeader_eq_ok.1 hhead).1.symm.trans ht
        cases heq
        rfl
      refine .list ht hu (by simpa [hlen] using Reader.length_listHeader hhead) fun w hw => ?_
      obtain ⟨i, hi⟩ := List.getElem?_of_mem hw
      obtain ⟨rest, left', -, hw⟩ := hitems i w hi
      exact helem ▸ ih (r.element header (0 + i)) _ _ _ rfl hc hw

theorem decodeFields_canonical {decode : Reader → Int → Decoded} {q : SequenceType} (hd : Shrinks decode)
    (ih : DecodesCanonical decode r.schema) (hc : r.checked = true) (ht : r.type? = some (.sequence q))
    (hnodup : (q.fields.map Field.name).Nodup) (h : decodeFields decode r q q.fields b [] = .ok (v, left)) :
    v.Canonical r.schema r.id := by
  obtain ⟨entries, rfl, hentries⟩ := decodeFields_entries hd
    (P := fun e => ∃ f ∈ q.fields, f.name = e.1 ∧ e.2.Canonical r.schema f.type)
    (by simp) (fun f hmem rest left' w _ hw => ⟨f, hmem, rfl, ih (r.moved f.type _) _ _ _ rfl hc hw⟩) h
  refine .record ht (by simpa using decodeFields_names (by simpa using hnodup) h) fun f hf w hw => ?_
  obtain ⟨e, he, rfl⟩ := Option.map_eq_some_iff.1 hw
  obtain ⟨g, hg, hname, hcanonical⟩ := hentries e (List.mem_of_find?_eq_some he)
  have hsame : f = g := by
    have heq : e.1 = f.name := by simpa using List.find?_some he
    exact List.inj_on_of_nodup_map hnodup hf hg (heq.symm.trans hname.symm)
  exact hsame ▸ hcanonical

theorem decodeAux_canonical {s : Schema} (hs : s.Unambiguous) (fuel : Nat) :
    DecodesCanonical (decodeAux fuel) s := by
  induction fuel with
  | zero =>
    intro r b left v _ _ h
    cases h
  | succ fuel ih =>
    rintro r b left v rfl hc h
    rw [decodeAux] at h
    split at h
    · cases h
    · rename_i ht
      exact decodePrimitive_canonical hc ht h
    · rename_i ht
      exact decodeEnum_canonical ht h
    · rename_i ht
      split at h
      · cases h
      · rename_i t htext
        obtain ⟨_, -, h⟩ := exists_of_bind h
        cases h
        exact .text ht (Reader.zero_notMem_text hc htext)
    · rename_i elem ht
      exact decodeList_canonical (decodeAux_shrinks fuel) ih hc ht h
    · rename_i q ht
      exact decodeFields_canonical (decodeAux_shrinks fuel) ih hc ht (hs.fields _ q ht) h
    · obtain ⟨member, inner, paid, w, hv, -, hw, rfl⟩ := decodeVariant_eq_ok.1 h
      obtain ⟨o, tag, payload, hhead, hmember, rfl, -⟩ := Reader.variant_eq_ok.1 hv
      exact .variant (Reader.oneOfHeader_eq_ok.1 hhead).1 (List.mem_of_getElem? hmember)
        (ih (r.moved member.type payload) _ _ _ rfl hc hw)

end

/-! ### What is encoded again -/

theorem OneOfType.getElem?_of_mem {o : OneOfType}
    (htags : ∀ i : Fin o.variants.length, (o.variants.get i).tag.toNat = i) {member : Variant}
    (hm : member ∈ o.variants) : o.variants[member.tag.toNat]? = some member := by
  obtain ⟨j, hj, hget⟩ := List.getElem_of_mem hm
  have htag := htags ⟨j, hj⟩
  rw [List.get_eq_getElem, hget] at htag
  rw [htag, List.getElem?_eq_some_iff]
  exact ⟨hj, hget⟩

theorem entries_eq_map {fields : List (Bytes × Value)} {fs : List Field}
    (hnames : fields.map Prod.fst = fs.map Field.name) (hnodup : (fs.map Field.name).Nodup) :
    fields = fs.map fun f => (f.name, (named? fields f.name).getD .nil) := by
  have hself : ∀ e ∈ fields, (e.1, (named? fields e.1).getD .nil) = e := by
    intro e he
    rw [named?, find?_of_nodup (hnames ▸ hnodup) he]
    rfl
  calc fields = fields.map fun e => (e.1, (named? fields e.1).getD .nil) := by
        rw [List.map_congr_left hself, List.map_id']
    _ = (fields.map Prod.fst).map fun name => (name, (named? fields name).getD .nil) := by rw [List.map_map]; rfl
    _ = fs.map fun f => (f.name, (named? fields f.name).getD .nil) := by rw [hnames, List.map_map]; rfl

namespace Value

variable {s : Schema} {id : TypeId} {v : Value}

theorem draws_of_type {t : TypeDef} {i : Image} (ht : s.type? id = some t) (h : v.image? s id = some i) :
    Draws s t v i := by
  obtain ⟨t', ht', hd⟩ := image?_draws h
  cases ht.symm.trans ht'
  exact hd

theorem Canonical.image?_reads (hs : s.LaidOut) (hu : s.Unambiguous) (h : v.Canonical s id) :
    ∀ i, v.image? s id = some i → i.Reads s id v := by
  induction h with
  | @primitive id k n ht hn =>
    intro i hi
    cases draws_of_type ht hi with
    | primitive hm =>
      rw [← PrimitiveKind.decoded_restored hn, ← PrimitiveKind.restored_number? hm]
      exact Image.reads_number ht
  | @enum id e n ht hn =>
    intro i hi
    cases draws_of_type ht hi with
    | @enum _ _ m hm =>
      -- a number of more than 64 bits was cut down to them when it was read
      obtain ⟨x, hx, hvalue, -⟩ := uint?_eq_some_iff.1 (Option.filter_eq_some_iff.1 hm).1
      cases hx
      have hmn : UInt64.ofNat n = m := UInt64.toNat_inj.1 (Int.ofNat.inj hvalue)
      have hle : m.toNat ≤ n := by
        rw [← hmn, UInt64.toNat_ofNat']
        exact Nat.mod_le _ _
      have hsame : Value.u64 n = .u64 m.toNat := by rw [u64, u64, hmn, UInt64.ofNat_toNat]
      rw [hsame]
      exact Image.reads_enum ht (Nat.lt_of_le_of_lt hle hn)
  | text ht h0 =>
    intro i hi
    cases draws_of_type ht hi
    exact Image.reads_text ht h0
  | bytes ht hu8 hl =>
    intro i hi
    cases draws_of_type ht hi
    exact Image.reads_ofBytes ht hu8 hl
  | @list id elem items ht hne hl _ ih =>
    intro i hi
    cases draws_of_type ht hi with
    | @list _ _ is _ his =>
      refine Image.reads_list ht hne (by rw [← his.length_eq]; exact hl) (size_items hs his) ?_
      refine List.Forall₂.flip (List.forall₂_iff_get.2 ⟨his.length_eq, fun j h1 h2 => ?_⟩)
      exact ih _ (List.getElem_mem h1) _ (his.get h1 h2)
  | @record id q fields ht hnames _ ih =>
    intro i hi
    cases draws_of_type ht hi with
    | @record _ _ is his =>
      have hnodup := hu.fields id q ht
      rw [entries_eq_map hnames hnodup]
      refine Image.reads_record hs ht hnodup ?_
      refine List.forall₂_iff_get.2 ⟨his.length_eq, fun j h1 h2 => ?_⟩
      obtain ⟨w, hw, hi⟩ := his.get h1 h2
      rw [hw]
      exact ⟨size_image? hs _ _ _ hi, ih _ (List.getElem_mem h1) w hw _ hi⟩
  | @variant id o member value ht hm _ ih =>
    intro i hi
    cases draws_of_type ht hi with
    | @oneOf _ _ name value' member' i hv hfound hi =>
      obtain ⟨rfl, rfl⟩ : member.name = name ∧ value = value' := by
        rcases hv with hv | hv <;> cases hv
        exact ⟨rfl, rfl⟩
      have hsame : o.find? member.name = some member := find?_of_nodup (hu.variants id o ht) hm
      cases hsame.symm.trans hfound
      exact Image.reads_oneOf ht (OneOfType.getElem?_of_mem (hu.tags id o ht) hm) (size_image? hs _ _ _ hi) (ih i hi)

/-- The number stands in the value where the schema asks for the enum. -/
inductive EnumAt (s : Schema) (e : EnumType) (n : Int) : TypeId → Value → Prop
  | here {id : TypeId} {x : Integer} (ht : s.type? id = some (.enum e)) (hx : x.value = n) : EnumAt s e n id (.int x)
  | item {id elem : TypeId} {items : List Value} {v : Value} (ht : s.type? id = some (.list elem)) (hv : v ∈ items)
      (h : EnumAt s e n elem v) : EnumAt s e n id (.list items)
  | field {id : TypeId} {q : SequenceType} {fields : List (Bytes × Value)} {f : Field} {v : Value}
      (ht : s.type? id = some (.sequence q)) (hf : f ∈ q.fields) (hv : named? fields f.name = some v)
      (h : EnumAt s e n f.type v) : EnumAt s e n id (.record fields)
  | variant {id : TypeId} {o : OneOfType} {name : Bytes} {member : Variant} {value : Value}
      (ht : s.type? id = some (.oneOf o)) (hm : o.find? name = some member) (h : EnumAt s e n member.type value) :
      EnumAt s e n id (.variant name value)

/-- Every number that stands for a member of an enum is the number of one. -/
def Declared (s : Schema) (id : TypeId) (v : Value) : Prop :=
  ∀ e n, EnumAt s e n id v → ∃ member ∈ e.variants, (member.value.toNat : Int) = n

theorem declared_of_primitive {k : PrimitiveKind} (ht : s.type? id = some (.primitive k)) : v.Declared s id := by
  intro e n hat
  cases hat with
  | here ht' | item ht' | field ht' | variant ht' => cases ht.symm.trans ht'

theorem declared_enum_iff {e : EnumType} {x : Integer} (ht : s.type? id = some (.enum e)) :
    (Value.int x).Declared s id ↔ ∃ member ∈ e.variants, (member.value.toNat : Int) = x.value := by
  constructor
  · exact fun h => h e _ (.here ht rfl)
  · intro h e' n' hat
    cases hat with
    | here ht' hx =>
      cases ht.symm.trans ht'
      exact hx ▸ h

theorem declared_list_iff {elem : TypeId} {items : List Value} (ht : s.type? id = some (.list elem)) :
    (Value.list items).Declared s id ↔ ∀ w ∈ items, w.Declared s elem := by
  constructor
  · intro h w hw e n hat
    exact h e n (.item ht hw hat)
  · intro h e n hat
    cases hat with
    | item ht' hw hat =>
      cases ht.symm.trans ht'
      exact h _ hw e n hat

theorem declared_record_iff {q : SequenceType} {fields : List (Bytes × Value)}
    (ht : s.type? id = some (.sequence q)) : (Value.record fields).Declared s id ↔
      ∀ f ∈ q.fields, ∀ w, named? fields f.name = some w → w.Declared s f.type := by
  constructor
  · intro h f hf w hw e n hat
    exact h e n (.field ht hf hw hat)
  · intro h e n hat
    cases hat with
    | field ht' hf hw hat =>
      cases ht.symm.trans ht'
      exact h _ hf _ hw e n hat

theorem declared_variant_iff {o : OneOfType} {name : Bytes} {member : Variant} {value : Value}
    (ht : s.type? id = some (.oneOf o)) (hfound : o.find? name = some member) :
    (Value.variant name value).Declared s id ↔ value.Declared s member.type := by
  constructor
  · intro h e n hat
    exact h e n (.variant ht hfound hat)
  · intro h e n hat
    cases hat with
    | variant ht' hfound' hat =>
      cases ht.symm.trans ht'
      cases hfound.symm.trans hfound'
      exact h e n hat

theorem Canonical.plan_isOk_iff (hu : s.Unambiguous) (h : v.Canonical s id) :
    (∃ p, v.plan s id = .ok p) ↔ v.Declared s id := by
  induction h with
  | @primitive id k n ht hn =>
    rw [plan_primitive_isOk ht]
    exact iff_of_true (PrimitiveKind.component?_restored hn) (declared_of_primitive ht)
  | @enum id e n ht hn =>
    rw [plan_enum_isOk ht, EnumType.number?_isSome_iff, u64, declared_enum_iff ht]
    simp
  | @text id t ht h0 =>
    rw [plan_string_isOk ht]
    refine iff_of_true ⟨t, rfl, h0⟩ fun e n hat => ?_
    cases hat
  | bytes ht hu8 hl =>
    rw [plan_list_isOk ht]
    refine iff_of_true (.inl ⟨_, rfl, hu8, hl⟩) fun e n hat => ?_
    cases hat
  | @list id elem items ht hne hl _ ih =>
    rw [plan_list_isOk ht, declared_list_iff ht]
    constructor
    · rintro (⟨_, heq, -⟩ | ⟨_, heq, -, hall⟩)
      · cases heq
      · cases heq
        exact fun w hw => (ih w hw).1 (hall w hw)
    · intro hdeclared
      exact .inr ⟨items, rfl, hl, fun w hw => (ih w hw).2 (hdeclared w hw)⟩
  | @record id q fields ht hnames _ ih =>
    rw [plan_sequence_isOk ht (hu.fields id q ht), declared_record_iff ht]
    constructor
    · rintro ⟨_, heq, -, hall⟩ f hf w hw
      cases heq
      exact (ih f hf w hw).1 (hall f hf w hw)
    · intro hdeclared
      exact ⟨fields, rfl, fun name => by rw [hnames], fun f hf w hw => (ih f hf w hw).2 (hdeclared f hf w hw)⟩
  | @variant id o member value ht hm _ ih =>
    have hnodup := hu.variants id o ht
    rw [plan_oneOf_isOk ht hnodup, declared_variant_iff ht (find?_of_nodup hnodup hm), ← ih]
    constructor
    · rintro ⟨member', hm', _, hv | hv, hplan⟩
      · obtain ⟨hname, rfl⟩ := Value.variant.inj hv
        cases List.inj_on_of_nodup_map hnodup hm hm' hname
        exact hplan
      · cases hv
    · intro hplan
      exact ⟨member, hm, value, .inl rfl, hplan⟩

end Value

theorem Image.Reads.exists_decode {s : Schema} {id : TypeId} {t : TypeDef} {i : Image} {v : Value} (h : i.Reads s id v)
    (ht : s.type? id = some t) (hsize : i.size = t.staticSize) (hlen : i.bytes.length ≤ Buffer.maxSize) :
    ∃ r, Reader.ofBuffer s id i.bytes.toArray true = .ok r ∧ r.decode = .ok v := by
  have hbuf : i.size + i.payloads = i.bytes.toArray.size := by
    rw [← i.length_bytes]
    simp
  refine ⟨⟨s, i.bytes.toArray, #[], true, id, 0⟩, Reader.ofBuffer_eq_ok.2 ⟨t, ht, by omega, rfl⟩, ?_⟩
  have hheld : Buffer.Holds i.bytes.toArray 0 i.bytes := by simpa using Buffer.holds_start i.bytes []
  have hafford : Affords i.bytes.toArray.size i.payloads := .inr (by omega)
  have hread := h ⟨s, i.bytes.toArray, #[], true, id, 0⟩ i.size _ _ rfl rfl (Image.lies_of_holds hheld hlen)
    (Reader.steps_lt_depth _) hafford
  rw [Reader.decode, if_pos rfl, hread]
  rfl

/-- What a checked reader finds in a buffer, encoded. -/
def Schema.recode (s : Schema) (id : TypeId) (buf : Buffer) : Option Bytes := do
  let r ← (Reader.ofBuffer s id buf true).toOption
  let v ← r.decode.toOption
  (s.encode id v).toOption

theorem toOption_eq_some {ε α : Type} {x : Except ε α} {a : α} : x.toOption = some a ↔ x = .ok a := by
  cases x <;> simp [Except.toOption]

theorem Schema.recode_eq_some {s : Schema} {id : TypeId} {buf : Buffer} {b : Bytes} :
    s.recode id buf = some b ↔
      ∃ r v, Reader.ofBuffer s id buf true = .ok r ∧ r.decode = .ok v ∧ s.encode id v = .ok b := by
  simp [recode, Option.bind_eq_some_iff, toOption_eq_some]

/-- Where a checked reader decodes a value, nothing but an undeclared number of an enum keeps it from being planned
again. Encoded, it is decoded as the same value, so that another pass leaves the buffer as it is. -/
theorem Schema.recode_idempotent {s : Schema} (hs : s.LaidOut) (hu : s.Unambiguous) {id : TypeId} {buf : Buffer}
    {r : Reader} {v : Value} (hr : Reader.ofBuffer s id buf true = .ok r) (hv : r.decode = .ok v) :
    ((∃ p, v.plan s id = .ok p) ↔ v.Declared s id) ∧
      ∀ b, s.encode id v = .ok b →
        (∃ r', Reader.ofBuffer s id b.toArray true = .ok r' ∧ r'.decode = .ok v) ∧
        s.recode id buf = some b ∧ s.recode id b.toArray = some b := by
  obtain ⟨t, ht, -, rfl⟩ := Reader.ofBuffer_eq_ok.1 hr
  obtain ⟨fuel, budget, left, -, -, hwalk⟩ := Reader.exists_walk hv
  have hcanonical : v.Canonical s id := decodeAux_canonical hu _ _ _ _ v rfl rfl hwalk
  refine ⟨hcanonical.plan_isOk_iff hu, fun b hb => ?_⟩
  obtain ⟨p, i, -, hi, hd, hfit, rfl⟩ := (Schema.encode_eq_ok hs).1 hb
  have hlen : i.bytes.length ≤ Buffer.maxSize := hd.size ▸ hfit
  have hsize : i.size = t.staticSize := by rw [Value.size_image? hs v id i hi, Schema.staticSize_eq ht]
  obtain ⟨r', hr', hv'⟩ := (hcanonical.image?_reads hs hu i hi).exists_decode ht hsize hlen
  exact ⟨⟨r', hr', hv'⟩, Schema.recode_eq_some.2 ⟨_, v, hr, hv, hb⟩, Schema.recode_eq_some.2 ⟨r', v, hr', hv', hb⟩⟩

/-- A list of one node. Its empty list of children points anywhere, and its scale is no number, with the first bit of
the fraction clear. -/
theorem Schema.recode_idempotent_sample :
    let buf : Buffer := #[1, 0, 2, 0, 7, 5, 0, 0, 0, 0, 0, 0, 0, 44, 1, 1, 0, 160, 127, 13, 0, 2, 0, 11, 0,
      0, 0, 2, 0, 0, 6, 0, 110, 0, 4, 5, 255, 255, 255, 255, 255, 255, 255, 255, 1, 0]
    let b : Bytes := [1, 0, 2, 0, 7, 5, 0, 0, 0, 0, 0, 0, 0, 44, 1, 1, 0, 224, 127, 13, 0, 2, 0, 11, 0,
      0, 0, 9, 0, 0, 6, 0, 110, 0, 4, 5, 255, 255, 255, 255, 255, 255, 255, 255, 1, 0]
    ∃ r v, Reader.ofBuffer Schema.sample 6 buf true = .ok r ∧ r.decode = .ok v ∧ v.Declared Schema.sample 6 ∧
      (∃ r', Reader.ofBuffer Schema.sample 6 b.toArray true = .ok r' ∧ r'.decode = .ok v) ∧
      Schema.sample.recode 6 buf = some b ∧ Schema.sample.recode 6 b.toArray = some b := by
  intro buf b
  have hb : Schema.sample.recode 6 buf = some b := by decide +kernel
  obtain ⟨r, v, hr, hv, hencode⟩ := Schema.recode_eq_some.1 hb
  have hrecode := Schema.recode_idempotent Schema.sample_laidOut Schema.sample_lawful.unambiguous hr hv
  obtain ⟨p, i, hp, -⟩ := (Schema.encode_eq_ok Schema.sample_laidOut).1 hencode
  exact ⟨r, v, hr, hv, hrecode.1.1 ⟨p, hp⟩, hrecode.2 b hencode⟩

end Flatwire
