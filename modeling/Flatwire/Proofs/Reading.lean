import Mathlib.Data.List.Forall2
import Flatwire.Proofs.Depth
import Flatwire.Proofs.Memory
import Flatwire.Proofs.Numbers

/-! Reading an image. Where an image lies in a buffer, the walk finds its value whatever stands around it, with or
without checks, and pays for exactly its payloads: one lemma for each kind of image. -/

namespace Flatwire

variable {n : Nat} {i : Image} {budget : Int} {elem : TypeId} {o : OneOfType}

/-- Whether a budget covers a payload of `n` bytes. -/
def Affords (budget : Int) (n : Nat) : Prop := budget < 0 ∨ n ≤ budget

/-- What a payload of `n` bytes leaves of a budget. -/
def spend (budget : Int) (n : Nat) : Int := if budget < 0 then budget else budget - n

theorem charge_eq (r : Reader) (h : Affords budget n) : charge r n budget = .ok (spend budget n) := by
  unfold charge spend
  unfold Affords at h
  split_ifs
  · rfl
  · omega
  · rfl

theorem spend_zero (budget : Int) : spend budget 0 = budget := by
  unfold spend
  split_ifs <;> omega

theorem Affords.split {m : Nat} (h : Affords budget (m + n)) :
    Affords budget m ∧ Affords (spend budget m) n ∧ spend (spend budget m) n = spend budget (m + n) := by
  unfold Affords spend at *
  split_ifs <;> omega

namespace Image

/-- The static section lies at the address and the payloads lie the given distance behind its first byte, so near that
every offset fits its slot. -/
structure Lies (i : Image) (buf : Buffer) (addr d : Nat) : Prop where
  static : buf.Holds addr (Cell.render (i.static d))
  dynamic : buf.Holds (addr + d) (Cell.render i.dynamic)
  size_le : i.size ≤ d
  reach : d + i.payloads ≤ Buffer.maxSize

variable {buf : Buffer} {addr d : Nat}

theorem lies_of_holds (h : buf.Holds addr i.bytes) (hr : i.bytes.length ≤ Buffer.maxSize) : i.Lies buf addr i.size := by
  rw [bytes_eq] at h
  obtain ⟨hs, hd⟩ := Buffer.holds_append.1 h
  rw [i.length_static] at hd
  exact ⟨hs, hd, Nat.le_refl _, i.length_bytes ▸ hr⟩

theorem Lies.addr_le (h : i.Lies buf addr d) : addr + d + i.payloads ≤ buf.size := h.dynamic.le

theorem Lies.append {a b : Image} (h : (a.append b).Lies buf addr d) :
    a.Lies buf addr d ∧ b.Lies buf (addr + a.size) (d + a.payloads - a.size) := by
  obtain ⟨hs, hd, hle, hr⟩ := h
  have hsize : a.size + b.size ≤ d := hle
  rw [payloads_append] at hr
  rw [Image.append, Cell.render_append] at hs hd
  obtain ⟨hsa, hsb⟩ := Buffer.holds_append.1 hs
  obtain ⟨hda, hdb⟩ := Buffer.holds_append.1 hd
  rw [a.length_static] at hsb
  refine ⟨⟨hsa, hda, by omega, by omega⟩, ⟨hsb, ?_, by omega, by omega⟩⟩
  have hat : addr + a.size + (d + a.payloads - a.size) = addr + d + (Cell.render a.dynamic).length := by
    rw [payloads]
    omega
  rw [hat]
  exact hdb

theorem Lies.tagged {width value : Nat} {payload : List Cell} {hp : Cell.Within (Cell.render payload).length payload}
    (h : (Image.tagged width value payload hp).Lies buf addr d) :
    buf.Holds addr (Bytes.ofNat width value) ∧ buf.deref? ((addr + width : Nat) : Int) = some ((addr + d : Nat) : Int) ∧
      buf.Holds (addr + d) (Cell.render payload) := by
  obtain ⟨hs, hd, hle, hr⟩ := h
  have hsize : width + 2 ≤ d := hle
  have hcells : Cell.render ((Image.tagged width value payload hp).static d) =
      Bytes.ofNat width value ++ Bytes.ofNat 2 (d - width) := by
    simp [Image.tagged, Cell.bytes]
  rw [hcells] at hs
  obtain ⟨hn, ho⟩ := Buffer.holds_append.1 hs
  rw [Bytes.length_ofNat] at ho
  refine ⟨hn, ?_, hd⟩
  rw [ho.deref? (by omega)]
  congr 2
  omega

end Image

namespace Reader

variable {r : Reader} {d : Nat}

theorem check_eq {a : Nat} (h : a + n ≤ r.buf.size) : r.check a n = .ok () := by
  have hin : (decide (a > r.buf.size) || decide (r.buf.size - a < n)) = false := by
    rw [Bool.or_eq_false_iff, decide_eq_false_iff_not, decide_eq_false_iff_not]
    omega
  rw [check, hin, Bool.and_false, if_neg Bool.false_ne_true]

theorem check_cases (hc : r.checked = true) (a n : Nat) :
    a + n ≤ r.buf.size ∧ r.check a n = .ok () ∨ r.check a n = .error (.outOfBounds n a r.buf.size) := by
  by_cases h : a + n ≤ r.buf.size
  · exact .inl ⟨h, check_eq h⟩
  · have hout : (decide (a > r.buf.size) || decide (r.buf.size - a < n)) = true := by
      rw [Bool.or_eq_true, decide_eq_true_iff, decide_eq_true_iff]
      omega
    exact .inr (by rw [check, hc, hout, Bool.and_true, if_pos rfl])

theorem le_of_check {a n : Nat} (hc : r.checked = true) (h : r.check a n = .ok ()) : a + n ≤ r.buf.size := by
  rcases check_cases hc a n with ⟨hin, -⟩ | herr
  · exact hin
  · rw [herr] at h
    cases h

theorem ofBuffer_eq_ok {s : Schema} {id : TypeId} {buf : Buffer} {checked : Bool}
    {spare : Buffer} : ofBuffer s id buf checked spare = .ok r ↔
      ∃ t, s.type? id = some t ∧ t.staticSize ≤ buf.size ∧ r = ⟨s, buf, spare, checked, id, 0⟩ := by
  unfold ofBuffer
  cases s.type? id with
  | none => simp
  | some t =>
    dsimp only
    split_ifs with h
    · simp [Nat.not_le.2 h]
    · simp [Nat.le_of_not_lt h, eq_comm]

theorem listHeader_eq {is : List Image} (ht : r.type? = some (.list elem)) (hn : is.length ≤ maxListLength)
    (hsize : ∀ i ∈ is, i.size = r.schema.staticSize elem) (hl : (Image.list is).Lies r.buf r.addr d) :
    r.listHeader = .ok ⟨elem, is.length, r.addr + d⟩ := by
  obtain ⟨hcount, hslot, hitems⟩ := hl.tagged
  have hroom : 4 ≤ d := hl.size_le
  have hend := hl.addr_le
  have hpay := hitems.le
  rw [← Image.bytes, Image.length_bytes, Image.size_concat _ _ hsize, Nat.mul_comm] at hpay
  have hhead := Buffer.listHeader?_eq (hcount.readNat? (by exact Nat.lt_succ_of_le hn)) hslot
  have hbody : r.check (r.addr + d) (is.length * r.schema.staticSize elem) = .ok () := check_eq (by omega)
  have hbehind : ¬ r.addr + d < r.addr + 4 := by omega
  simp only [listHeader, ht, check_eq (show r.addr + 4 ≤ r.buf.size by omega), hhead, fetch, ok_bind,
    Int.toNat_natCast, hbody, hbehind, if_false]
  split_ifs <;> rfl

theorem bytes_eq {items : Bytes} (ht : r.type? = some (.list elem)) (hu : r.schema.type? elem = some (.primitive .u8))
    (hn : items.length ≤ maxListLength) (hl : (Image.ofBytes items).Lies r.buf r.addr d) : r.bytes = .ok items := by
  have hsize : ∀ i ∈ items.map fun b => Image.number 1 b.toNat, i.size = r.schema.staticSize elem := by
    intro i hi
    obtain ⟨b, -, rfl⟩ := List.mem_map.1 hi
    rw [Schema.staticSize_eq hu]
    rfl
  have hhead := listHeader_eq ht (by rw [List.length_map]; exact hn) hsize hl
  have hitems := hl.tagged.2.2
  rw [Image.render_numbers] at hitems
  rw [bytes, hhead, ok_bind, if_pos hu, List.length_map, hitems.sliceWith?, fetch]

theorem oneOfHeader_eq {tag payload : Nat} (ht : r.type? = some (.oneOf o)) (hroom : r.addr + 3 ≤ r.buf.size)
    (hhead : r.buf.oneOfHeader? r.addr = some (tag, (payload : Int))) : r.oneOfHeader = .ok (o, tag, payload) := by
  simp only [oneOfHeader, ht, check_eq hroom, hhead, fetch, ok_bind, Int.toNat_natCast]
  rfl

theorem variant_eq {member : Variant} (ht : r.type? = some (.oneOf o))
    (hm : o.variants[member.tag.toNat]? = some member) (hsize : i.size = r.schema.staticSize member.type)
    (hl : (Image.oneOf member.tag i).Lies r.buf r.addr d) :
    r.variant = .ok (member, r.moved member.type (r.addr + d)) := by
  obtain ⟨htag, hslot, hvalue⟩ := hl.tagged
  have hroom : 3 ≤ d := hl.size_le
  have hend := hl.addr_le
  have hpay := hvalue.le
  rw [← Image.bytes, Image.length_bytes, hsize] at hpay
  have hheader := oneOfHeader_eq ht (by omega) (Buffer.oneOfHeader?_eq (htag.readNat? member.tag.toNat_lt) hslot)
  have hbody : r.check (r.addr + d) (r.schema.staticSize member.type) = .ok () := check_eq (by omega)
  have hbehind : ¬ r.addr + d < r.addr + 3 := by omega
  simp only [variant, hheader, ok_bind, hm, hbody, hbehind, if_false]
  split_ifs <;> rfl

theorem text_eq {t : Bytes} (ht : r.type? = some .string) (h0 : 0 ∉ t) (hl : (Image.text t).Lies r.buf r.addr d) :
    r.text = .ok t := by
  have hroom : 2 ≤ d := hl.size_le
  have hend := hl.addr_le
  have hslot : r.buf.Holds r.addr (Bytes.ofNat 2 d) := by simpa [Image.text, Cell.bytes] using hl.static
  have hpay : r.buf.Holds (r.addr + d) (t ++ [0]) := by simpa [Image.text, Cell.bytes] using hl.dynamic
  have hderef : r.buf.deref? r.addr = some ((r.addr + d : Nat) : Int) :=
    hslot.deref? (Nat.le_trans (Nat.le_add_right _ _) hl.reach)
  have hzero := hpay.zeroFrom? h0
  have hslice : r.buf.slice? ((r.addr + d : Nat) : Int) ((r.addr + d + t.length : Nat) : Int) = some t :=
    (Buffer.holds_append.1 hpay).1.slice?
  simp only [text, ht]
  split_ifs
  · simp only [check_eq (show r.addr + 2 ≤ r.buf.size by omega), check_eq (show r.addr + d + 0 ≤ r.buf.size by omega),
      hderef, fetch, ok_bind, Int.toNat_natCast, hzero, hslice]
  · have hread : r.buf.readText? r.addr = some t := by
      rw [Buffer.readText?, hderef]
      simp only [Option.bind_eq_bind, Option.bind_some, Int.toNat_natCast, hzero, Option.getD_some, hslice]
    rw [hread, fetch]

theorem uint_enum_eq {e : EnumType} (ht : r.type? = some (.enum e)) (hn : n < Nat.pow 256 e.width.toNat)
    (h : r.buf.Holds r.addr (Bytes.ofNat e.width.toNat n)) : r.uint = .ok n := by
  have hin := h.le
  rw [Bytes.length_ofNat] at hin
  simp only [uint, ht, check_eq hin, ok_bind, h.readNat? hn, fetch]

theorem decodePrimitive_eq {k : PrimitiveKind} (ht : r.type? = some (.primitive k))
    (h : r.buf.Holds r.addr (Bytes.ofNat k.size n)) (budget : Int) :
    decodePrimitive r k budget = .ok (k.restored (n % Nat.pow 256 k.size), budget) := by
  have hin := h.le
  rw [Bytes.length_ofNat] at hin
  have hcheck := check_eq hin
  have hread := h.readNat?_mod
  cases k <;>
    simp only [PrimitiveKind.size] at hcheck hread <;>
    simp [decodePrimitive, PrimitiveKind.restored, PrimitiveKind.isFloat, PrimitiveKind.isSigned, PrimitiveKind.size,
      bool, float, int, uint, ht, hcheck, Buffer.readBool?, Buffer.readInt?, hread, fetch, plain]

end Reader

theorem setField_new {fields : List (Bytes × Value)} {name : Bytes} (h : name ∉ fields.map Prod.fst) (v : Value) :
    setField fields name v = fields ++ [(name, v)] := by
  have hall : fields.filter (fun f => f.1 ≠ name) = fields := by
    apply List.filter_eq_self.2
    intro f hf
    have hne : f.1 ≠ name := fun he => h (List.mem_map.2 ⟨f, hf, he⟩)
    exact decide_eq_true hne
  rw [setField, hall]

section Steps

variable {decode : Reader → Int → Decoded} {r : Reader} {left : Int} {v : Value}

theorem decodeFields_cons {q : SequenceType} {f : Field} {fs : List Field} {done : List (Bytes × Value)} :
    decodeFields decode r q (f :: fs) budget done = .ok (v, left) ↔
      ∃ w rest, decode (r.moved f.type (r.addr + f.offset.toNat)) budget = .ok (w, rest) ∧
        decodeFields decode r q fs rest (setField done f.name w) = .ok (v, left) := by
  cases hf : decode (r.moved f.type (r.addr + f.offset.toNat)) budget with
  | error e => simp [decodeFields, hf, within]
  | ok out =>
    obtain ⟨w, rest⟩ := out
    simp [decodeFields, hf, within]

theorem decodeItems_succ {h : Reader.ListHeader} {k : Nat} {done : List Value} :
    decodeItems decode r h k (n + 1) budget done = .ok (v, left) ↔
      ∃ w rest, decode (r.element h k) budget = .ok (w, rest) ∧
        decodeItems decode r h (k + 1) n rest (w :: done) = .ok (v, left) := by
  cases hi : decode (r.element h k) budget with
  | error e => simp [decodeItems, hi, within]
  | ok out =>
    obtain ⟨w, rest⟩ := out
    simp [decodeItems, hi, within]

end Steps

namespace Image

variable {is : List Image}

/-- Wherever the image lies, a walk that is deep enough and has the means reads the value and pays for the payloads. -/
def Reads (i : Image) (s : Schema) (id : TypeId) (v : Value) : Prop :=
  ∀ (r : Reader) (d fuel : Nat) (budget : Int), r.schema = s → r.id = id → i.Lies r.buf r.addr d → r.steps < fuel →
    Affords budget i.payloads → decodeAux fuel r budget = .ok (v, spend budget i.payloads)

variable {s : Schema} {id : TypeId}

theorem reads_of_succ {i : Image} {v : Value}
    (h : ∀ (r : Reader) (d fuel : Nat) (budget : Int), r.schema = s → r.id = id → i.Lies r.buf r.addr d →
      r.steps ≤ fuel → Affords budget i.payloads →
      decodeAux (fuel + 1) r budget = .ok (v, spend budget i.payloads)) : i.Reads s id v := by
  intro r d fuel budget hs hid hl hf hb
  obtain ⟨n, rfl⟩ : ∃ n, fuel = n + 1 := ⟨fuel - 1, by omega⟩
  exact h r d n budget hs hid hl (Nat.le_of_lt_succ hf) hb

theorem reads_number {k : PrimitiveKind} (ht : s.type? id = some (.primitive k)) :
    (number k.size n).Reads s id (k.restored (n % Nat.pow 256 k.size)) := by
  apply reads_of_succ
  rintro r d fuel budget rfl rfl hl - -
  have htype : r.type? = some (.primitive k) := ht
  have hbytes : r.buf.Holds r.addr (Bytes.ofNat k.size n) := by simpa [number, Cell.bytes] using hl.static
  have hpay : (number k.size n).payloads = 0 := rfl
  simp only [decodeAux, htype, Reader.decodePrimitive_eq htype hbytes, hpay, spend_zero]

theorem reads_enum {e : EnumType} (ht : s.type? id = some (.enum e)) (hn : n < Nat.pow 256 e.width.toNat) :
    (number e.width.toNat n).Reads s id (.u64 n) := by
  apply reads_of_succ
  rintro r d fuel budget rfl rfl hl - -
  have htype : r.type? = some (.enum e) := ht
  have hbytes : r.buf.Holds r.addr (Bytes.ofNat e.width.toNat n) := by simpa [number, Cell.bytes] using hl.static
  have hpay : (number e.width.toNat n).payloads = 0 := rfl
  simp only [decodeAux, htype, Reader.uint_enum_eq htype hn hbytes, hpay, spend_zero]
  rfl

theorem reads_text {t : Bytes} (ht : s.type? id = some .string) (h0 : 0 ∉ t) : (text t).Reads s id (.text t) := by
  apply reads_of_succ
  rintro r d fuel budget rfl rfl hl - hb
  have htype : r.type? = some .string := ht
  have hpay : (text t).payloads = t.length + 1 := by simp [payloads, text, Cell.bytes]
  rw [hpay] at hb ⊢
  simp only [decodeAux, htype, Reader.text_eq htype h0 hl, charge_eq r hb, ok_bind]
  rfl

theorem reads_ofBytes {items : Bytes} (ht : s.type? id = some (.list elem))
    (hu : s.type? elem = some (.primitive .u8)) (hn : items.length ≤ maxListLength) :
    (ofBytes items).Reads s id (.bytes items) := by
  apply reads_of_succ
  rintro r d fuel budget rfl rfl hl - hb
  have htype : r.type? = some (.list elem) := ht
  rw [payloads_ofBytes] at hb ⊢
  simp only [decodeAux, htype, decodeList, hu, if_true, Reader.bytes_eq htype hu hn hl, charge_eq r hb, ok_bind]
  rfl

theorem decodeItems_eq {r : Reader} {h : Reader.ListHeader} {vs : List Value}
    (hread : List.Forall₂ (fun i v => i.Reads r.schema h.elem v) is vs)
    (hsize : ∀ i ∈ is, i.size = r.schema.staticSize h.elem) {k d fuel : Nat}
    (hl : (concat is).Lies r.buf (h.payload + k * r.schema.staticSize h.elem) d)
    (hf : ∀ j, (r.element h j).steps < fuel) (hb : Affords budget (concat is).payloads) (done : List Value) :
    decodeItems (decodeAux fuel) r h k is.length budget done =
      .ok (.list (done.reverse ++ vs), spend budget (concat is).payloads) := by
  induction hread generalizing k d budget done with
  | nil =>
    have hpay : (concat []).payloads = 0 := rfl
    rw [hpay, spend_zero, List.append_nil]
    rfl
  | @cons i v is vs hi _ ih =>
    have hsi := hsize i (by simp)
    obtain ⟨hli, hlis⟩ := hl.append
    rw [concat, payloads_append] at hb ⊢
    -- what the first element leaves of the budget covers the others
    obtain ⟨hb1, hb2, hspend⟩ := hb.split
    have hitem := hi (r.element h k) d fuel budget rfl rfl hli (hf k) hb1
    have hnext : h.payload + k * r.schema.staticSize h.elem + i.size =
        h.payload + (k + 1) * r.schema.staticSize h.elem := by
      rw [hsi, Nat.succ_mul, Nat.add_assoc]
    rw [hnext] at hlis
    have hrest := ih (fun j hj => hsize j (by simp [hj])) hlis hb2 (v :: done)
    rw [hspend, List.reverse_cons, List.append_assoc] at hrest
    rw [List.length_cons, decodeItems, hitem]
    exact hrest

theorem reads_list {vs : List Value} (ht : s.type? id = some (.list elem)) (hu : s.type? elem ≠ some (.primitive .u8))
    (hn : is.length ≤ maxListLength) (hsize : ∀ i ∈ is, i.size = s.staticSize elem)
    (hread : List.Forall₂ (fun i v => i.Reads s elem v) is vs) : (list is).Reads s id (.list vs) := by
  apply reads_of_succ
  rintro r d fuel budget rfl rfl hl hf hb
  have htype : r.type? = some (.list elem) := ht
  have hroom : 4 ≤ d := hl.size_le
  have hend := hl.addr_le
  have hcells : r.buf.Holds (r.addr + d) (concat is).bytes := hl.tagged.2.2
  -- the elements' static sections are paid for first, all at once
  have hpay : (list is).payloads = is.length * r.schema.staticSize elem + (concat is).payloads := by
    rw [Nat.mul_comm, ← size_concat _ _ hsize]
    exact (concat is).length_bytes
  have hfit : (concat is).bytes.length ≤ Buffer.maxSize := Nat.le_trans (Nat.le_add_left _ d) hl.reach
  have hdeep : ∀ j, (r.element ⟨elem, is.length, r.addr + d⟩ j).steps < fuel := by
    intro j
    have hstep : (r.element ⟨elem, is.length, r.addr + d⟩ j).steps < r.steps :=
      Reader.steps_payload (by omega) (Nat.lt_of_lt_of_le (by omega : r.addr < r.addr + d) (Nat.le_add_right _ _))
    omega
  rw [hpay] at hb ⊢
  obtain ⟨hb1, hb2, hspend⟩ := hb.split
  have hlies := lies_of_holds hcells hfit
  have hitems := decodeItems_eq (h := ⟨elem, is.length, r.addr + d⟩) (k := 0) hread hsize (by simpa using hlies) hdeep
    hb2 []
  rw [hspend] at hitems
  simp only [decodeAux, htype, decodeList, hu, if_false, Reader.listHeader_eq htype hn hsize hl, charge_eq r hb1,
    ok_bind]
  exact hitems

theorem decodeFields_eq {r : Reader} {q : SequenceType} {value : Field → Value} {fs : List Field}
    (hread : List.Forall₂ (fun f i => i.size = r.schema.staticSize f.type ∧ i.Reads r.schema f.type (value f)) fs is)
    (start : Nat) {d fuel : Nat} (done : List (Bytes × Value)) (ho : r.schema.Follows start fs)
    (hnames : (done.map Prod.fst ++ fs.map Field.name).Nodup) (hl : (concat is).Lies r.buf (r.addr + start) d)
    (hf : ∀ f ∈ fs, ∀ a, r.addr ≤ a → (r.moved f.type a).steps < fuel) (hb : Affords budget (concat is).payloads) :
    decodeFields (decodeAux fuel) r q fs budget done =
      .ok (.record (done ++ fs.map fun f => (f.name, value f)), spend budget (concat is).payloads) := by
  induction hread generalizing start d budget done with
  | nil =>
    have hpay : (concat []).payloads = 0 := rfl
    rw [hpay, spend_zero, List.map_nil, List.append_nil]
    rfl
  | @cons f i fs is hi _ ih =>
    obtain ⟨hli, hlis⟩ := hl.append
    rw [concat, payloads_append] at hb ⊢
    obtain ⟨hb1, hb2, hspend⟩ := hb.split
    obtain ⟨hoff, hoffs⟩ := ho
    rw [← hi.1] at hoffs
    have hfield := hi.2 (r.moved f.type (r.addr + start)) d fuel budget rfl rfl hli
      (hf f (by simp) _ (Nat.le_add_right _ _)) hb1
    have hnew : f.name ∉ done.map Prod.fst := by
      intro hmem
      exact (List.nodup_append.1 hnames).2.2 f.name hmem f.name (by simp) rfl
    rw [Nat.add_assoc] at hlis
    have hrest := ih (start + i.size) (done ++ [(f.name, value f)]) hoffs (by simpa using hnames) hlis
      (fun g hg => hf g (List.mem_cons_of_mem _ hg)) hb2
    rw [hspend, List.append_assoc] at hrest
    rw [decodeFields, hoff, hfield]
    dsimp only [within]
    rw [setField_new hnew, hrest]
    rfl

theorem reads_record {q : SequenceType} {value : Field → Value} (hs : s.LaidOut)
    (ht : s.type? id = some (.sequence q)) (hnames : (q.fields.map Field.name).Nodup)
    (hread : List.Forall₂ (fun f i => i.size = s.staticSize f.type ∧ i.Reads s f.type (value f)) q.fields is) :
    (concat is).Reads s id (.record (q.fields.map fun f => (f.name, value f))) := by
  apply reads_of_succ
  rintro r d fuel budget rfl rfl hl hf hb
  have htype : r.type? = some (.sequence q) := ht
  have hdeep : ∀ f ∈ q.fields, ∀ a, r.addr ≤ a → (r.moved f.type a).steps < fuel := by
    intro f hfield a ha
    have hstep := Reader.steps_field hs ⟨q, ht, f, hfield, rfl⟩ ha
    omega
  simp only [decodeAux, htype]
  exact decodeFields_eq hread 0 [] (hs.follows ht) hnames hl hdeep hb

theorem reads_oneOf {member : Variant} {v : Value} (ht : s.type? id = some (.oneOf o))
    (hm : o.variants[member.tag.toNat]? = some member) (hsize : i.size = s.staticSize member.type)
    (hread : i.Reads s member.type v) : (oneOf member.tag i).Reads s id (.variant member.name v) := by
  apply reads_of_succ
  rintro r d fuel budget rfl rfl hl hf hb
  have htype : r.type? = some (.oneOf o) := ht
  have hroom : 3 ≤ d := hl.size_le
  have hend := hl.addr_le
  have hcells : r.buf.Holds (r.addr + d) i.bytes := hl.tagged.2.2
  have hpay : (oneOf member.tag i).payloads = r.schema.staticSize member.type + i.payloads := by
    rw [← hsize]
    exact i.length_bytes
  have hfit : i.bytes.length ≤ Buffer.maxSize := Nat.le_trans (Nat.le_add_left _ d) hl.reach
  have hdeep : (r.moved member.type (r.addr + d)).steps < fuel := by
    have hstep : (r.moved member.type (r.addr + d)).steps < r.steps := Reader.steps_payload (by omega) (by omega)
    omega
  rw [hpay] at hb ⊢
  obtain ⟨hb1, hb2, hspend⟩ := hb.split
  have hvalue := hread (r.moved member.type (r.addr + d)) i.size fuel _ rfl rfl (lies_of_holds hcells hfit) hdeep hb2
  simp only [decodeAux, htype, decodeVariant, Reader.variant_eq htype hm hsize hl, charge_eq _ hb1, ok_bind, hvalue,
    within, hspend]
  rfl

end Image

end Flatwire
