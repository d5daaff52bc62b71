import Flatwire.Proofs.Relaxing
import Flatwire.Proofs.RoundTrip

/-! Parts of a value one by one. Where a reader decodes a value, its accessors lead to readers that decode the parts of
it, and tell the lengths, tags and numbers that stand in it. Parts are decoded with what those before them have left of
the budget, so a reader that starts afresh has enough. -/

namespace Flatwire

/-! ### What a walk leaves -/

theorem charge_shrinks {r : Reader} {n : Nat} {b left : Int} (h : charge r n b = .ok left) : Outlasts left b := by
  unfold charge at h
  split_ifs at h with hneg hmore
  · cases h
    exact .inl hneg
  · cases h
    exact .inr (by omega)

/-- No more is left than there was. -/
def Shrinks (decode : Reader → Int → Decoded) : Prop :=
  ∀ (r : Reader) (b left : Int) (v : Value), decode r b = .ok (v, left) → Outlasts left b

section Shrinks

variable {decode : Reader → Int → Decoded} {r : Reader} {b left : Int} {v : Value}
  {q : SequenceType} {fs : List Field} {done : List (Bytes × Value)}

theorem charged_shrinks {n : Nat} {w : Value} (h : (do return (w, ← charge r n b) : Decoded) = .ok (v, left)) :
    Outlasts left b := by
  obtain ⟨paid, hpaid, h⟩ := exists_of_bind h
  cases h
  exact charge_shrinks hpaid

theorem plain_shrinks {α : Type} {value : α → Value} {x : Except ReadError α} (h : plain b value x = .ok (v, left)) :
    Outlasts left b := by
  obtain ⟨a, -, -, rfl⟩ := plain_eq_ok.1 h
  exact .refl _

theorem decodePrimitive_shrinks {k : PrimitiveKind} (h : decodePrimitive r k b = .ok (v, left)) : Outlasts left b := by
  unfold decodePrimitive at h
  split_ifs at h <;> exact plain_shrinks h

theorem decodeFields_shrinks (hd : Shrinks decode) (h : decodeFields decode r q fs b done = .ok (v, left)) :
    Outlasts left b := by
  induction fs generalizing b done with
  | nil =>
    cases h
    exact .refl _
  | cons f fs ih =>
    obtain ⟨w, rest, hf, h⟩ := decodeFields_cons.1 h
    exact (ih h).trans (hd _ _ _ _ hf)

theorem decodeItems_shrinks (hd : Shrinks decode) {h : Reader.ListHeader} {i n : Nat} {done : List Value}
    (hok : decodeItems decode r h i n b done = .ok (v, left)) : Outlasts left b := by
  induction n generalizing i b done with
  | zero =>
    cases hok
    exact .refl _
  | succ n ih =>
    obtain ⟨w, rest, hi, hok⟩ := decodeItems_succ.1 hok
    exact (ih hok).trans (hd _ _ _ _ hi)

theorem decodeAux_shrinks (fuel : Nat) : Shrinks (decodeAux fuel) := by
  induction fuel with
  | zero =>
    intro r b left v h
    cases h
  | succ fuel ih =>
    intro r b left v h
    rw [decodeAux] at h
    split at h
    · cases h
    · exact decodePrimitive_shrinks h
    · exact plain_shrinks h
    · split at h
      · cases h
      · exact charged_shrinks h
    · unfold decodeList at h
      split_ifs at h
      · split at h
        · cases h
        · exact charged_shrinks h
      · split at h
        · cases h
        · obtain ⟨paid, hpaid, h⟩ := exists_of_bind h
          exact (decodeItems_shrinks ih h).trans (charge_shrinks hpaid)
    · exact decodeFields_shrinks ih h
    · obtain ⟨member, inner, paid, w, -, hpaid, hw, -⟩ := decodeVariant_eq_ok.1 h
      exact (ih _ _ _ _ hw).trans (charge_shrinks hpaid)

/-! ### The parts of a walk -/

theorem decodeFields_entries (hd : Shrinks decode) {q : SequenceType} {P : Bytes × Value → Prop} {fs : List Field}
    {done : List (Bytes × Value)} (hdone : ∀ e ∈ done, P e)
    (hstep : ∀ f ∈ fs, ∀ rest left' w, Outlasts rest b →
      decode (r.moved f.type (r.addr + f.offset.toNat)) rest = .ok (w, left') → P (f.name, w))
    (h : decodeFields decode r q fs b done = .ok (v, left)) : ∃ entries, v = .record entries ∧ ∀ e ∈ entries, P e := by
  induction fs generalizing b done with
  | nil =>
    cases h
    exact ⟨done, rfl, hdone⟩
  | cons f fs ih =>
    obtain ⟨w, rest, hf, h⟩ := decodeFields_cons.1 h
    have hrest := hd _ _ _ _ hf
    refine ih (fun e he => ?_) (fun g hg rest' left' u hout hu => ?_) h
    · rcases List.mem_append.1 he with he | he
      · exact hdone e (List.mem_filter.1 he).1
      · rw [List.mem_singleton.1 he]
        exact hstep f List.mem_cons_self b rest w (.refl b) hf
    · exact hstep g (List.mem_cons_of_mem _ hg) rest' left' u (hout.trans hrest) hu

theorem decodeFields_names {entries : List (Bytes × Value)} (hnames : (done.map Prod.fst ++ fs.map Field.name).Nodup)
    (h : decodeFields decode r q fs b done = .ok (.record entries, left)) :
    entries.map Prod.fst = done.map Prod.fst ++ fs.map Field.name := by
  induction fs generalizing b done with
  | nil =>
    cases h
    simp
  | cons f fs ih =>
    obtain ⟨w, rest, -, h⟩ := decodeFields_cons.1 h
    have hnew : f.name ∉ done.map Prod.fst := fun hmem =>
      (List.nodup_append.1 hnames).2.2 f.name hmem f.name (by simp) rfl
    rw [setField_new hnew] at h
    have hall := ih (by simpa using hnames) h
    simpa using hall

theorem decodeItems_items (hd : Shrinks decode) {h : Reader.ListHeader} {k n : Nat} {done : List Value}
    (hok : decodeItems decode r h k n b done = .ok (v, left)) :
    ∃ items, v = .list (done.reverse ++ items) ∧ items.length = n ∧ ∀ i w, items[i]? = some w →
      ∃ rest left', Outlasts rest b ∧ decode (r.element h (k + i)) rest = .ok (w, left') := by
  induction n generalizing k b done with
  | zero =>
    cases hok
    exact ⟨[], by simp, rfl, by simp⟩
  | succ n ih =>
    obtain ⟨w, rest, hi, hok⟩ := decodeItems_succ.1 hok
    obtain ⟨items, rfl, hlen, hitems⟩ := ih hok
    refine ⟨w :: items, by simp, by simp [hlen], fun i u hu => ?_⟩
    cases i with
    | zero =>
      obtain rfl : w = u := by simpa using hu
      exact ⟨b, rest, .refl b, hi⟩
    | succ i =>
      obtain ⟨rest', left', hout, hu⟩ := hitems i u (by simpa using hu)
      refine ⟨rest', left', hout.trans (hd _ _ _ _ hi), ?_⟩
      rwa [Nat.add_assoc, Nat.add_comm 1 i] at hu

end Shrinks

/-! ### Paths -/

/-- A step from a value to one of its parts. -/
inductive Access where
  | field (name : Bytes)
  | index (i : Nat)
  | variant
deriving DecidableEq, Repr

/-- The part that a step leads to. -/
def Value.part? : Value → Access → Option Value
  | .record fields, .field name => named? fields name
  | .list items, .index i => items[i]?
  | .bytes items, .index i => items[i]?.map fun b => .u64 b.toNat
  | .variant _ value, .variant => some value
  | _, _ => none

/-- The part at the end of a path. -/
def Value.at? (v : Value) (path : List Access) : Option Value := path.foldlM Value.part? v

namespace Reader

/-- The reader that a step leads to. -/
def access (r : Reader) : Access → Except ReadError Reader
  | .field name => r.field name
  | .index i => r.index i
  | .variant => do return (← r.variant).2

/-- The reader at the end of a path. -/
def follow (r : Reader) (path : List Access) : Except ReadError Reader := path.foldlM access r

/-- What the accessors tell, apart from the parts, is what the value has: its number, text or bytes, its length, the
names of its fields, or its variant with the tag of that name. -/
def Shows (r : Reader) : Value → Prop
  | .bool b => r.bool = .ok b
  | .int (.u64 n) => r.uint = .ok n.toNat
  | .int (.i64 n) => r.int = .ok n.toInt
  | .f64 bits => r.float = .ok bits
  | .text t => r.text = .ok t
  | .bytes items => r.bytes = .ok items ∧ r.length = .ok items.length
  | .list items => r.length = .ok items.length
  | .record fields => ∃ q, r.type? = some (.sequence q) ∧ fields.map Prod.fst = q.fields.map Field.name
  | .variant name _ => ∃ o member inner, r.type? = some (.oneOf o) ∧ o.find? name = some member ∧
      r.tag = .ok member.tag.toNat ∧ r.variant = .ok (member, inner)
  | _ => False

/-- What a decoded value says about its reader and about the readers of its parts. -/
inductive Opens (r : Reader) : Value → Prop
  | leaf {v : Value} (hleaf : ∀ a, v.part? a = none) (hshows : r.Shows v) : Opens r v
  | bytes {h : ListHeader} {items : Bytes} (hhead : r.listHeader = .ok h)
      (hu : r.schema.type? h.elem = some (.primitive .u8))
      (hslice : r.buf.sliceWith? r.spare h.payload (h.payload + h.length) = some items) : Opens r (.bytes items)
  | list {h : ListHeader} {items : List Value} (hhead : r.listHeader = .ok h) (hlen : items.length = h.length)
      (hparts : ∀ i w, items[i]? = some w → (r.element h i).decode = .ok w) : Opens r (.list items)
  | record {q : SequenceType} {fields : List (Bytes × Value)} (ht : r.type? = some (.sequence q))
      (hnames : fields.map Prod.fst = q.fields.map Field.name)
      (hparts : ∀ e ∈ fields, ∃ f ∈ q.fields,
        f.name = e.1 ∧ (r.moved f.type (r.addr + f.offset.toNat)).decode = .ok e.2) : Opens r (.record fields)
  | variant {member : Variant} {inner : Reader} {w : Value} (hv : r.variant = .ok (member, inner))
      (hpart : inner.decode = .ok w) : Opens r (.variant member.name w)

end Reader

/-- Fields and variants go by one name each, and the tag of a variant is its place. -/
structure Schema.Unambiguous (s : Schema) : Prop where
  fields : ∀ id q, s.type? id = some (.sequence q) → (q.fields.map Field.name).Nodup
  variants : ∀ id o, s.type? id = some (.oneOf o) → (o.variants.map Variant.name).Nodup
  tags : ∀ id o, s.type? id = some (.oneOf o) → ∀ i : Fin o.variants.length, (o.variants.get i).tag.toNat = i

theorem Schema.Lawful.unambiguous {s : Schema} (hs : s.Lawful) : s.Unambiguous where
  fields id _ ht := hs.distinct id _ ht
  variants id _ ht := (hs.distinct id _ ht).1
  tags id _ ht := (hs.distinct id _ ht).2.2

namespace Reader

variable {r : Reader} {v w : Value} {h : ListHeader}

theorem exists_walk (h : r.decode = .ok v) : ∃ fuel b left, fuel ≤ r.depth ∧
    Outlasts b (if r.checked then r.buf.size else -1) ∧ decodeAux (fuel + 1) r b = .ok (v, left) := by
  have hpos : 0 < r.depth := Nat.mul_pos (Nat.succ_pos _) (Nat.succ_pos _)
  obtain ⟨⟨w, left⟩, hwalk, hw⟩ := exists_of_bind h
  cases hw
  refine ⟨r.depth - 1, _, left, Nat.sub_le _ _, .refl _, ?_⟩
  rwa [Nat.sub_add_cancel hpos]

theorem length_of_listHeader (hhead : r.listHeader = .ok h) : r.length = .ok h.length := by
  rw [length, hhead]
  rfl

theorem index_of_listHeader (hhead : r.listHeader = .ok h) {i : Nat} (hi : i < h.length) :
    r.index i = .ok (r.element h i) := by
  rw [index, hhead, ok_bind, if_neg (by omega)]
  rfl

theorem Opens.shows (hs : r.schema.Lawful) (h : r.Opens v) : r.Shows v := by
  cases h with
  | leaf hleaf hshows => exact hshows
  | bytes hhead hu hslice =>
    refine ⟨bytes_eq_ok.2 ⟨_, hhead, hu, hslice⟩, ?_⟩
    rw [(Buffer.holds_of_slice? hslice).2]
    exact length_of_listHeader hhead
  | list hhead hlen hparts =>
    rw [Shows, hlen]
    exact length_of_listHeader hhead
  | record ht hnames hparts => exact ⟨_, ht, hnames⟩
  | @variant member inner w hv hpart =>
    obtain ⟨o, tag, payload, hhead, hmember, -, -⟩ := variant_eq_ok.1 hv
    have ht := (oneOfHeader_eq_ok.1 hhead).1
    obtain ⟨hlt, hget⟩ := List.getElem?_eq_some_iff.1 hmember
    have htag : member.tag.toNat = tag := by
      rw [← hget]
      exact hs.unambiguous.tags _ o ht ⟨tag, hlt⟩
    refine ⟨o, member, inner, ht, find?_of_nodup (hs.unambiguous.variants _ o ht) (List.mem_of_getElem? hmember), ?_, hv⟩
    rw [Reader.tag, hhead, htag]
    rfl

/-- A byte that lies past the end of the buffer. Without checks a list of bytes may reach that far, but not the reader of
one of them. -/
structure Beyond (r : Reader) : Prop where
  unchecked : r.checked = false
  byte : r.type? = some (.primitive .u8)
  past : r.buf.size ≤ r.addr
  spare : r.addr < (r.buf ++ r.spare).size

theorem Beyond.uint (h : r.Beyond) : r.uint = .error .outsideBuffer := by
  have hpast := h.past
  have hread : r.buf.readNat? r.addr 1 = none := by
    rw [Buffer.readNat?, Buffer.slice?, if_neg (by omega)]
    rfl
  have hcheck : r.check r.addr 1 = .ok () := by rw [check, h.unchecked, Bool.false_and, if_neg Bool.false_ne_true]
  simp only [Reader.uint, h.byte, PrimitiveKind.size, hcheck, hread]
  rfl

theorem decode_byte {items : Bytes} (hhead : r.listHeader = .ok h)
    (hu : r.schema.type? h.elem = some (.primitive .u8))
    (hslice : r.buf.sliceWith? r.spare h.payload (h.payload + h.length) = some items) {i : Nat} {b : UInt8}
    (hb : items[i]? = some b) : (r.element h i).decode = .ok (.u64 b.toNat) ∨ (r.element h i).Beyond := by
  have hone : r.schema.staticSize h.elem = 1 := Schema.staticSize_eq hu
  have haddr : (r.element h i).addr = h.payload + i := by
    change h.payload + i * r.schema.staticSize h.elem = _
    rw [hone, Nat.mul_one]
  have ht : (r.element h i).type? = some (.primitive .u8) := hu
  have hi := (List.getElem?_eq_some_iff.1 hb).1
  obtain ⟨hholds, hlen⟩ := Buffer.holds_of_slice? hslice
  by_cases hin : h.payload + i < r.buf.size
  · left
    have hbyte := (hholds.byte hb).of_append (by exact hin)
    have hbits : [b] = Bytes.ofNat 1 b.toNat := by simp [Bytes.ofNat]
    have hlt : b.toNat % Nat.pow 256 1 = b.toNat := Nat.mod_eq_of_lt b.toNat_lt
    rw [← haddr, hbits] at hbyte
    have hread (budget : Int) : decodeAux 1 (r.element h i) budget = .ok (.u64 b.toNat, budget) := by
      rw [decodeAux, ht]
      dsimp only
      rw [decodePrimitive_eq ht hbyte, PrimitiveKind.size, hlt]
      rfl
    exact decode_of_walk (Nat.mul_pos (Nat.succ_pos _) (Nat.succ_pos _)) (.refl _) (hread _)
  -- a checked reader has made sure that the list ends inside the buffer
  · right
    have hunchecked : r.checked = false := by
      by_contra hc
      have hend := list_payload (Bool.not_eq_false _ ▸ hc) hhead (by omega)
      rw [hone] at hend
      omega
    have hend := hholds.le
    refine ⟨hunchecked, ht, ?_, ?_⟩
    · rw [haddr]
      exact Nat.le_of_not_lt hin
    · rw [haddr]
      exact Nat.lt_of_lt_of_le (by omega) hend

theorem Opens.access (hs : r.schema.Lawful) (h : r.Opens v) {a : Access} (hw : v.part? a = some w) :
    ∃ id addr, r.access a = .ok (r.moved id addr) ∧
      ((r.moved id addr).decode = .ok w ∨ (r.moved id addr).Beyond ∧ ∀ a', w.part? a' = none) := by
  cases h with
  | leaf hleaf hshows =>
    rw [hleaf a] at hw
    cases hw
  | @bytes h items hhead hu hslice =>
    cases a with
    | index i =>
      obtain ⟨b, hb, rfl⟩ := Option.map_eq_some_iff.1 hw
      have hi := (List.getElem?_eq_some_iff.1 hb).1
      rw [(Buffer.holds_of_slice? hslice).2] at hi
      refine ⟨_, _, index_of_listHeader hhead hi, (decode_byte hhead hu hslice hb).imp_right fun hbeyond => ?_⟩
      exact ⟨hbeyond, fun _ => rfl⟩
    | _ => cases hw
  | @list h items hhead hlen hparts =>
    cases a with
    | index i =>
      have hi := (List.getElem?_eq_some_iff.1 hw).1
      rw [hlen] at hi
      exact ⟨_, _, index_of_listHeader hhead hi, .inl (hparts i w hw)⟩
    | _ => cases hw
  | @record q fields ht hnames hparts =>
    cases a with
    | field name =>
      obtain ⟨e, he, rfl⟩ := Option.map_eq_some_iff.1 hw
      obtain ⟨f, hf, hname, hpart⟩ := hparts e (List.mem_of_find?_eq_some he)
      have hfound : q.find? name = some f := by
        have heq : e.1 = name := by simpa using List.find?_some he
        rw [← heq, ← hname]
        exact find?_of_nodup (hs.unambiguous.fields _ q ht) hf
      refine ⟨f.type, r.addr + f.offset.toNat, ?_, .inl hpart⟩
      simp only [Reader.access, Reader.field, ht, hfound]
    | _ => cases hw
  | @variant member inner u hv hpart =>
    cases a with
    | variant =>
      cases hw
      obtain ⟨o, tag, payload, -, -, rfl, -⟩ := variant_eq_ok.1 hv
      refine ⟨member.type, payload, ?_, .inl hpart⟩
      rw [Reader.access, hv]
      rfl
    | _ => cases hw

end Reader

/-- The accessors of a reader can be followed along a path to where the value has a part, and tell what the part is. -/
def Reader.Agrees (r : Reader) (v : Value) (path : List Access) : Prop :=
  ∃ r' w, r.follow path = .ok r' ∧ v.at? path = some w ∧ r'.Shows w ∧ r'.decode = .ok w

end Flatwire
