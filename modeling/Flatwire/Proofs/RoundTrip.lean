import Flatwire.Proofs.Encoding
import Flatwire.Proofs.Reading

/-! The round trip. Behind whatever is encoded any bytes may follow: a reader of the buffer gives back the value in its
decoded form, with or without checks. -/

namespace Flatwire

namespace Value

/-- The byte that a small number stands for. -/
def byte : Value → UInt8
  | int x => UInt8.ofNat x.value.toNat
  | _ => 0

mutual

/-- A value of a type as it is read back. Numbers stand for the names of an enum, lists of bytes are byte strings,
records have the fields of their sequence in order, and no variant is given by reference. -/
def decoded (s : Schema) (v : Value) (id : TypeId) : Value :=
  match s.type? id with
  | some (.primitive k) => k.decoded v
  | some (.enum e) => .u64 ((e.number? v).elim 0 fun n => n.toNat)
  | some (.list elem) =>
    match v with
    | .list items =>
      if s.type? elem = some (.primitive .u8) then .bytes (items.map byte) else .list (decodedItems s items elem)
    | v => v
  | some (.sequence q) =>
    match v with
    | .record fields => .record (q.fields.map fun f =>
        (f.name, (named? (decodedEntries s fields) f.name).elim .nil fun value => value f.type))
    | v => v
  | some (.oneOf o) =>
    match v with
    | .variant name value | .variantRef name value =>
      .variant name ((o.find? name).elim value fun member => value.decoded s member.type)
    | v => v
  | _ => v
  termination_by structural v

def decodedItems (s : Schema) (items : List Value) (elem : TypeId) : List Value :=
  match items with
  | [] => []
  | v :: vs => v.decoded s elem :: decodedItems s vs elem
  termination_by structural items

def decodedEntries (s : Schema) (fields : List (Bytes × Value)) : List (Bytes × (TypeId → Value)) :=
  match fields with
  | [] => []
  | (name, v) :: fs => (name, fun id => v.decoded s id) :: decodedEntries s fs
  termination_by structural fields

end

example : (sampleNode 7 []).decoded Schema.sample 5 = .record [
    ("id", .u64 7), ("at", .record [("x", .i64 (-2)), ("color", .u64 300)]),
    ("scale", .f64 0x3FB99999A0000000), ("name", .text "leaf"), ("data", .bytes [1, 255]), ("kids", .list []),
    ("extra", .variant "note" (.text "hi"))] := rfl

theorem decodedItems_eq (s : Schema) (items : List Value) (elem : TypeId) :
    decodedItems s items elem = items.map fun v => v.decoded s elem := by
  induction items with
  | nil => rw [decodedItems]; rfl
  | cons v vs ih => rw [decodedItems, ih, List.map_cons]

theorem decodedEntries_eq (s : Schema) (fields : List (Bytes × Value)) :
    decodedEntries s fields = fields.map fun f => (f.1, fun id => f.2.decoded s id) := by
  induction fields with
  | nil => rw [decodedEntries]; rfl
  | cons f fs ih => rw [decodedEntries, ih, List.map_cons]

theorem byte_of_number? {v : Value} {n : Nat} (h : PrimitiveKind.number? .u8 v = some n) : n = v.byte.toNat := by
  obtain ⟨m, hm, rfl⟩ := Option.map_eq_some_iff.1 (show (v.between? 0 255).map (unsigned 1) = some n from h)
  obtain ⟨x, rfl, rfl, h0, h255⟩ := between?_eq_some_iff.1 hm
  have hm256 : unsigned 1 x.value = (x.value % 256).toNat := rfl
  rw [byte, UInt8.toNat_ofNat', hm256]
  omega

end Value

theorem OneOfType.getElem?_tag {o : OneOfType} (ho : TypeDef.Distinct (.oneOf o)) {name : Bytes} {member : Variant}
    (h : o.find? name = some member) : member.name = name ∧ o.variants[member.tag.toNat]? = some member := by
  have hname : member.name = name := by simpa using List.find?_some h
  obtain ⟨j, hj, hget⟩ := List.getElem_of_mem (List.mem_of_find?_eq_some h)
  have htag := ho.2.2 ⟨j, hj⟩
  rw [List.get_eq_getElem, hget] at htag
  refine ⟨hname, ?_⟩
  rw [htag, List.getElem?_eq_some_iff]
  exact ⟨hj, hget⟩

namespace Value

variable {s : Schema}

theorem list_eq_ofBytes {elem : TypeId} (hu : s.type? elem = some (.primitive .u8)) {items : List Value}
    {is : List Image} (h : List.Forall₂ (fun v i => v.image? s elem = some i) items is) :
    Image.list is = .ofBytes (items.map byte) := by
  have his : is = (items.map byte).map fun b => Image.number 1 b.toNat := by
    induction h with
    | nil => rfl
    | @cons v i vs is hv _ ih =>
      obtain ⟨t, ht, hd⟩ := image?_draws hv
      rw [hu] at ht
      cases ht
      cases hd with
      | primitive hn => rw [List.map_cons, List.map_cons, ← ih, ← byte_of_number? hn]; rfl
  rw [his, Image.ofBytes]

theorem image?_reads (hs : s.Lawful) (v : Value) :
    ∀ (id : TypeId) (i : Image), v.image? s id = some i → i.Reads s id (v.decoded s id) := by
  induction v using parts_induction with
  | step v ih =>
    intro id i h
    obtain ⟨t, ht, hd⟩ := image?_draws h
    have hdistinct := hs.distinct id t ht
    rw [decoded.eq_def]
    cases hd with
    | primitive hn =>
      simp only [ht, ← PrimitiveKind.restored_number? hn]
      exact Image.reads_number ht
    | enum hn =>
      simp only [ht, hn]
      exact Image.reads_enum ht (EnumType.number?_lt hdistinct hn)
    | text h0 =>
      simp only [ht]
      exact Image.reads_text ht h0
    | bytes hu hl =>
      simp only [ht]
      exact Image.reads_ofBytes ht hu hl
    | @list elem items is hl his =>
      simp only [ht]
      split_ifs with hu
      -- numbers given one by one are stored like a byte string, and read as one
      · rw [list_eq_ofBytes hu his]
        exact Image.reads_ofBytes ht hu (by rw [List.length_map]; exact hl)
      · rw [decodedItems_eq]
        refine Image.reads_list ht hu (by rw [← his.length_eq]; exact hl) (size_items hs.toLaidOut his) ?_
        refine List.forall₂_map_right_iff.2 (List.Forall₂.flip ?_)
        exact List.forall₂_iff_get.2 ⟨his.length_eq, fun j h1 h2 => ih _ (List.getElem_mem h1) elem _ (his.get h1 h2)⟩
    | @record q fields is his =>
      simp only [ht]
      refine Image.reads_record hs.toLaidOut ht hdistinct (his.imp ?_)
      rintro f i ⟨w, hw, hi⟩
      obtain ⟨e, he, rfl⟩ := named?_mem hw
      have hvalue : (named? (decodedEntries s fields) f.name).elim Value.nil (fun value => value f.type) =
          e.2.decoded s f.type := by
        rw [decodedEntries_eq, named?_map fun (v : Value) id => v.decoded s id, hw]
        rfl
      rw [hvalue]
      exact ⟨size_image? hs.toLaidOut _ _ _ hi, ih e.2 (List.mem_map_of_mem he) f.type i hi⟩
    | @oneOf o v name value member i hv hm hi =>
      obtain ⟨rfl, htag⟩ := OneOfType.getElem?_tag hdistinct hm
      have hw : value ∈ v.parts := by rcases hv with rfl | rfl <;> simp [parts]
      have hread := Image.reads_oneOf ht htag (size_image? hs.toLaidOut _ _ _ hi) (ih value hw member.type i hi)
      rcases hv with rfl | rfl
      · simpa only [ht, hm, Option.elim_some] using hread
      · simpa only [ht, hm, Option.elim_some] using hread

end Value

/-- What was encoded is read back in its decoded form, whatever follows it in the buffer. -/
theorem Schema.decode_encode {s : Schema} (hs : s.Lawful) {id : TypeId} {v : Value} {b : Bytes}
    (h : s.encode id v = .ok b) (t : Bytes) (checked : Bool) :
    ∃ r, Reader.ofBuffer s id (b ++ t).toArray checked = .ok r ∧ r.decode = .ok (v.decoded s id) := by
  obtain ⟨p, i, -, hi, hd, hfit, rfl⟩ := (Schema.encode_eq_ok hs.toLaidOut).1 h
  obtain ⟨td, ht, -⟩ := Value.image?_draws hi
  have hlen : i.bytes.length ≤ Buffer.maxSize := hd.size ▸ hfit
  have hsize : i.size = td.staticSize := by
    rw [Value.size_image? hs.toLaidOut v id i hi, Schema.staticSize_eq ht]
  have hbuf : i.size + i.payloads ≤ (i.bytes ++ t).toArray.size := by
    rw [← i.length_bytes]
    simp
  refine ⟨⟨s, (i.bytes ++ t).toArray, #[], checked, id, 0⟩, ?_, ?_⟩
  · exact Reader.ofBuffer_eq_ok.2 ⟨td, ht, by omega, rfl⟩
  · have hafford : Affords (if checked then ((i.bytes ++ t).toArray.size : Int) else -1) i.payloads := by
      unfold Affords
      split_ifs <;> omega
    have hread := v.image?_reads hs id i hi ⟨s, (i.bytes ++ t).toArray, #[], checked, id, 0⟩ i.size _ _ rfl rfl
      (Image.lies_of_holds (Buffer.holds_start i.bytes t) hlen) (Reader.steps_lt_depth _) hafford
    rw [Reader.decode, hread]
    rfl

theorem Schema.decode_encode_sample :
    ∃ r, Reader.ofBuffer Schema.sample 5 (Value.sampleTreeBytes ++ [9, 9]).toArray true = .ok r ∧
      r.decode = .ok (Value.sampleTree.decoded Schema.sample 5) :=
  Schema.decode_encode Schema.sample_lawful Schema.encode_sampleTree [9, 9] true

end Flatwire
