import Flatwire.Proofs.Reading

/-! Walks that ask for less. What a walk reads it still reads when checks are dropped, when it may go deeper and when it
has more to spend: none of them has a say in the value. In particular an unchecked walk reads what a checked one does. -/

namespace Flatwire

variable {n : Nat} {α : Type}

/-- The second budget lasts wherever the first one does. -/
def Outlasts (b b' : Int) : Prop := b' < 0 ∨ 0 ≤ b ∧ b ≤ b'

theorem Outlasts.refl (b : Int) : Outlasts b b := by
  unfold Outlasts
  omega

theorem Outlasts.trans {a b c : Int} (h : Outlasts a b) (h' : Outlasts b c) : Outlasts a c := by
  unfold Outlasts at *
  omega

theorem charge_outlasts {r : Reader} {b b' left : Int} (hb : Outlasts b b') (h : charge r n b = .ok left)
    (r' : Reader) : ∃ left', charge r' n b' = .ok left' ∧ Outlasts left left' := by
  unfold Outlasts at hb
  unfold charge at h ⊢
  split_ifs at h with hneg hmore
  · cases h
    rw [if_pos (by omega)]
    exact ⟨b', rfl, .inl (by omega)⟩
  · cases h
    by_cases hneg' : b' < 0
    · rw [if_pos hneg']
      exact ⟨b', rfl, .inl hneg'⟩
    · rw [if_neg hneg', if_neg (by omega)]
      exact ⟨b' - n, rfl, .inr (by omega)⟩

namespace Reader

/-- The reader, which checks only if it did and should go on doing so. -/
def relax (r : Reader) (keep : Bool) : Reader := { r with checked := r.checked && keep }

variable {r : Reader}

theorem relax_true (r : Reader) : r.relax true = r := by
  rw [relax, Bool.and_true]

theorem fetch_eq_ok {x : Option α} {a : α} (h : fetch x = .ok a) : x = some a := by
  cases x with
  | none => cases h
  | some b =>
    cases h
    rfl

theorem check_relax {a : Nat} (h : r.check a n = .ok ()) (keep : Bool) : (r.relax keep).check a n = .ok () := by
  unfold check at h ⊢
  split_ifs at h with hbad
  refine if_neg fun hbad' => hbad ?_
  simp only [relax, Bool.and_eq_true] at hbad' ⊢
  exact ⟨hbad'.1.1, hbad'.2⟩

@[simp] theorem type?_relax (r : Reader) (keep : Bool) : (r.relax keep).type? = r.type? := rfl

@[simp] theorem addr_relax (r : Reader) (keep : Bool) : (r.relax keep).addr = r.addr := rfl

@[simp] theorem buf_relax (r : Reader) (keep : Bool) : (r.relax keep).buf = r.buf := rfl

@[simp] theorem schema_relax (r : Reader) (keep : Bool) : (r.relax keep).schema = r.schema := rfl

theorem checked_of_relax {keep : Bool} (h : (r.relax keep).checked = true) : r.checked = true :=
  (Bool.and_eq_true_iff.1 h).1

/-! ### Headers -/

theorem listHeader_eq_ok {h : ListHeader} : r.listHeader = .ok h ↔
    r.type? = some (.list h.elem) ∧ r.check r.addr 4 = .ok () ∧
      (∃ payload, r.buf.listHeader? r.addr = some (h.length, payload) ∧ h.payload = payload.toNat) ∧
      (r.checked = true → 0 < h.length →
        r.check h.payload (h.length * r.schema.staticSize h.elem) = .ok () ∧ r.addr + 4 ≤ h.payload) := by
  constructor
  · intro hok
    unfold listHeader at hok
    split at hok
    · rename_i elem ht
      obtain ⟨_, hcheck, hok⟩ := exists_of_bind hok
      obtain ⟨⟨length, payload⟩, hhead, hok⟩ := exists_of_bind hok
      dsimp only at hok
      split_ifs at hok with hfull hbefore
      · obtain ⟨_, -, hok⟩ := exists_of_bind hok
        cases hok
      · obtain ⟨_, hbody, hok⟩ := exists_of_bind hok
        cases hok
        exact ⟨ht, hcheck, ⟨payload, fetch_eq_ok hhead, rfl⟩, fun _ _ => ⟨hbody, Nat.le_of_not_lt hbefore⟩⟩
      · cases hok
        refine ⟨ht, hcheck, ⟨payload, fetch_eq_ok hhead, rfl⟩, fun hc hpos => absurd ?_ hfull⟩
        rw [hc, decide_eq_true hpos]
        rfl
    · cases hok
  · rintro ⟨ht, hcheck, ⟨payload, hhead, hpayload⟩, hbody⟩
    simp only [listHeader, ht, hcheck, hhead, fetch, ok_bind, ← hpayload]
    split_ifs with hfull hbefore
    · simp only [Bool.and_eq_true, decide_eq_true_eq] at hfull
      have := (hbody hfull.1 hfull.2).2
      omega
    · simp only [Bool.and_eq_true, decide_eq_true_eq] at hfull
      rw [(hbody hfull.1 hfull.2).1]
      rfl
    · rfl

theorem list_payload {h : ListHeader} (hc : r.checked = true) (hok : r.listHeader = .ok h) (hpos : 0 < h.length) :
    h.payload + h.length * r.schema.staticSize h.elem ≤ r.buf.size :=
  le_of_check hc ((listHeader_eq_ok.1 hok).2.2.2 hc hpos).1

theorem listHeader_relax {h : ListHeader} (hok : r.listHeader = .ok h) (keep : Bool) :
    (r.relax keep).listHeader = .ok h := by
  obtain ⟨ht, hcheck, hhead, hbody⟩ := listHeader_eq_ok.1 hok
  refine listHeader_eq_ok.2 ⟨ht, check_relax hcheck keep, hhead, fun hc hpos => ?_⟩
  obtain ⟨hroom, hbehind⟩ := hbody (checked_of_relax hc) hpos
  exact ⟨check_relax hroom keep, hbehind⟩

theorem bytes_eq_ok {items : Bytes} : r.bytes = .ok items ↔
    ∃ h, r.listHeader = .ok h ∧ r.schema.type? h.elem = some (.primitive .u8) ∧
      r.buf.sliceWith? r.spare h.payload (h.payload + h.length) = some items := by
  constructor
  · intro hok
    obtain ⟨h, hhead, hok⟩ := exists_of_bind hok
    split_ifs at hok with hu
    · exact ⟨h, hhead, hu, fetch_eq_ok hok⟩
    · cases hok
  · rintro ⟨h, hhead, hu, hslice⟩
    rw [bytes, hhead, ok_bind, if_pos hu, hslice]
    rfl

theorem bytes_relax {items : Bytes} (hok : r.bytes = .ok items) (keep : Bool) : (r.relax keep).bytes = .ok items := by
  obtain ⟨h, hhead, hu, hslice⟩ := bytes_eq_ok.1 hok
  exact bytes_eq_ok.2 ⟨h, listHeader_relax hhead keep, hu, hslice⟩

theorem oneOfHeader_eq_ok {o : OneOfType} {tag payload : Nat} : r.oneOfHeader = .ok (o, tag, payload) ↔
    r.type? = some (.oneOf o) ∧ r.check r.addr 3 = .ok () ∧
      ∃ p, r.buf.oneOfHeader? r.addr = some (tag, p) ∧ payload = p.toNat := by
  constructor
  · intro hok
    unfold oneOfHeader at hok
    split at hok
    · rename_i ht
      obtain ⟨_, hcheck, hok⟩ := exists_of_bind hok
      obtain ⟨⟨tag, p⟩, hhead, hok⟩ := exists_of_bind hok
      cases hok
      exact ⟨ht, hcheck, p, fetch_eq_ok hhead, rfl⟩
    · cases hok
  · rintro ⟨ht, hcheck, p, hhead, rfl⟩
    simp only [oneOfHeader, ht, hcheck, hhead, fetch, ok_bind]
    rfl

theorem variant_eq_ok {member : Variant} {inner : Reader} : r.variant = .ok (member, inner) ↔
    ∃ o tag payload, r.oneOfHeader = .ok (o, tag, payload) ∧ o.variants[tag]? = some member ∧
      inner = r.moved member.type payload ∧
      (r.checked = true → r.check payload (r.schema.staticSize member.type) = .ok () ∧ r.addr + 3 ≤ payload) := by
  constructor
  · intro hok
    obtain ⟨⟨o, tag, payload⟩, hhead, hok⟩ := exists_of_bind hok
    dsimp only at hok
    split at hok
    · cases hok
    · rename_i v hv
      split_ifs at hok with hc hbefore
      · obtain ⟨_, -, hok⟩ := exists_of_bind hok
        cases hok
      · obtain ⟨_, hbody, hok⟩ := exists_of_bind hok
        cases hok
        exact ⟨o, tag, payload, hhead, hv, rfl, fun _ => ⟨hbody, Nat.le_of_not_lt hbefore⟩⟩
      · cases hok
        exact ⟨o, tag, payload, hhead, hv, rfl, fun h => absurd h hc⟩
  · rintro ⟨o, tag, payload, hhead, hv, rfl, hbody⟩
    simp only [variant, hhead, ok_bind, hv]
    split_ifs with hc hbefore
    · have := (hbody hc).2
      omega
    · rw [(hbody hc).1]
      rfl
    · rfl

theorem oneOfHeader_relax {x : OneOfType × Nat × Nat} (hok : r.oneOfHeader = .ok x) (keep : Bool) :
    (r.relax keep).oneOfHeader = .ok x := by
  obtain ⟨ht, hcheck, hhead⟩ := oneOfHeader_eq_ok.1 hok
  exact oneOfHeader_eq_ok.2 ⟨ht, check_relax hcheck keep, hhead⟩

theorem variant_relax {member : Variant} {inner : Reader} (hok : r.variant = .ok (member, inner)) (keep : Bool) :
    (r.relax keep).variant = .ok (member, inner.relax keep) := by
  obtain ⟨o, tag, payload, hhead, hv, rfl, hbody⟩ := variant_eq_ok.1 hok
  refine variant_eq_ok.2 ⟨o, tag, payload, oneOfHeader_relax hhead keep, hv, rfl, fun hc => ?_⟩
  obtain ⟨hroom, hbehind⟩ := hbody (checked_of_relax hc)
  exact ⟨check_relax hroom keep, hbehind⟩

/-! ### Values -/

theorem check_bind_relax {a : Nat} {x : Except ReadError α} {y : α} (h : (r.check a n >>= fun _ => x) = .ok y)
    (keep : Bool) : ((r.relax keep).check a n >>= fun _ => x) = .ok y := by
  obtain ⟨_, hcheck, hx⟩ := exists_of_bind h
  rw [check_relax hcheck, ok_bind, hx]

theorem uint_relax (h : r.uint = .ok n) (keep : Bool) : (r.relax keep).uint = .ok n := by
  unfold uint at h ⊢
  split at h
  · rename_i ht
    simp only [type?_relax, ht]
    exact check_bind_relax h keep
  · rename_i ht
    simp only [type?_relax, ht]
    split_ifs at h ⊢
    · cases h
    · exact check_bind_relax h keep
  · cases h

theorem int_relax {n : Int} (h : r.int = .ok n) (keep : Bool) : (r.relax keep).int = .ok n := by
  unfold int at h ⊢
  split at h
  · rename_i ht
    simp only [type?_relax, ht]
    split_ifs at h ⊢
    · exact check_bind_relax h keep
    · cases h
  · cases h

theorem float_relax (h : r.float = .ok n) (keep : Bool) : (r.relax keep).float = .ok n := by
  unfold float at h ⊢
  split at h
  · rename_i ht
    simp only [type?_relax, ht]
    exact check_bind_relax h keep
  · rename_i ht
    simp only [type?_relax, ht]
    exact check_bind_relax h keep
  · cases h

theorem bool_relax {b : Bool} (h : r.bool = .ok b) (keep : Bool) : (r.relax keep).bool = .ok b := by
  unfold bool at h ⊢
  split at h
  · rename_i ht
    simp only [type?_relax, ht]
    exact check_bind_relax h keep
  · cases h

theorem text_relax {t : Bytes} (h : r.text = .ok t) (keep : Bool) : (r.relax keep).text = .ok t := by
  cases keep with
  | true => rwa [relax_true]
  | false =>
    unfold text at h
    split at h
    · rename_i ht
      have hmode : (r.relax false).checked = false := Bool.and_false _
      simp only [text, type?_relax, ht, hmode]
      split_ifs at h with hc
      · obtain ⟨_, -, h⟩ := exists_of_bind h
        obtain ⟨payload, hslot, h⟩ := exists_of_bind h
        obtain ⟨_, -, h⟩ := exists_of_bind h
        split at h
        · cases h
        · rename_i stop hstop
          have hderef := fetch_eq_ok hslot
          have hpos : 0 ≤ payload := by
            obtain ⟨_, hd, rfl⟩ := Option.map_eq_some_iff.1 hderef
            obtain ⟨d, -, hd⟩ := Option.bind_eq_some_iff.1 hd
            cases hd
            omega
          have hread : r.buf.readText? r.addr = some t := by
            rw [Buffer.readText?, hderef, Option.bind_eq_bind, Option.bind_some, hstop, ← fetch_eq_ok h,
              Int.toNat_of_nonneg hpos]
            rfl
          simp only [addr_relax, buf_relax, hread, fetch, Bool.false_eq_true, if_false]
      · exact h
    · cases h

end Reader

/-! ### Walks -/

section Walks

variable {decode decode' : Reader → Int → Decoded} {r : Reader} {b b' left : Int} {v : Value}

theorem plain_eq_ok {value : α → Value} {x : Except ReadError α} :
    plain b value x = .ok (v, left) ↔ ∃ a, x = .ok a ∧ v = value a ∧ left = b := by
  cases x with
  | error e => simp [plain]
  | ok a => simp [plain, eq_comm]

theorem decodeVariant_eq_ok : decodeVariant decode r b = .ok (v, left) ↔
    ∃ member inner paid w, r.variant = .ok (member, inner) ∧
      charge inner (r.schema.staticSize member.type) b = .ok paid ∧ decode inner paid = .ok (w, left) ∧
      v = .variant member.name w := by
  unfold decodeVariant
  cases hv : r.variant with
  | error e => simp
  | ok out =>
    obtain ⟨member, inner⟩ := out
    cases hc : charge inner (r.schema.staticSize member.type) b with
    | error e => simp [hc]
    | ok paid =>
      cases hd : decode inner paid with
      | error e => simp [hc, hd, within]
      | ok out =>
        obtain ⟨w, rest⟩ := out
        simp [hc, hd, within, eq_comm, and_comm]

/-- The second decoder reads from relaxed readers, and with more to spend, what the first one reads. -/
def Relaxes (keep : Bool) (decode decode' : Reader → Int → Decoded) : Prop :=
  ∀ (r : Reader) (b b' left : Int) (v : Value), Outlasts b b' → decode r b = .ok (v, left) →
    ∃ left', decode' (r.relax keep) b' = .ok (v, left') ∧ Outlasts left left'

variable {keep : Bool}

theorem plain_relax {value : α → Value} {x x' : Except ReadError α} (hb : Outlasts b b')
    (hx : ∀ a, x = .ok a → x' = .ok a) (h : plain b value x = .ok (v, left)) :
    ∃ left', plain b' value x' = .ok (v, left') ∧ Outlasts left left' := by
  obtain ⟨a, ha, rfl, rfl⟩ := plain_eq_ok.1 h
  exact ⟨b', plain_eq_ok.2 ⟨a, hx a ha, rfl, rfl⟩, hb⟩

theorem decodePrimitive_relax {k : PrimitiveKind} (hb : Outlasts b b') (h : decodePrimitive r k b = .ok (v, left)) :
    ∃ left', decodePrimitive (r.relax keep) k b' = .ok (v, left') ∧ Outlasts left left' := by
  unfold decodePrimitive at h ⊢
  split_ifs at h ⊢
  · exact plain_relax hb (fun _ ha => Reader.bool_relax ha keep) h
  · exact plain_relax hb (fun _ ha => Reader.float_relax ha keep) h
  · exact plain_relax hb (fun _ ha => Reader.int_relax ha keep) h
  · exact plain_relax hb (fun _ ha => Reader.uint_relax ha keep) h

theorem charged_relax {r' : Reader} {w : Value} (hb : Outlasts b b')
    (h : (do return (w, ← charge r n b) : Decoded) = .ok (v, left)) :
    ∃ left', (do return (w, ← charge r' n b') : Decoded) = .ok (v, left') ∧ Outlasts left left' := by
  obtain ⟨paid, hpaid, h⟩ := exists_of_bind h
  cases h
  obtain ⟨paid', hpaid', hout⟩ := charge_outlasts hb hpaid r'
  exact ⟨paid', by rw [hpaid']; rfl, hout⟩

theorem decodeFields_relax (hd : Relaxes keep decode decode') {q : SequenceType} {fs : List Field}
    {done : List (Bytes × Value)} (hb : Outlasts b b') (h : decodeFields decode r q fs b done = .ok (v, left)) :
    ∃ left', decodeFields decode' (r.relax keep) q fs b' done = .ok (v, left') ∧ Outlasts left left' := by
  induction fs generalizing b b' done with
  | nil =>
    cases h
    exact ⟨b', rfl, hb⟩
  | cons f fs ih =>
    obtain ⟨w, rest, hf, h⟩ := decodeFields_cons.1 h
    obtain ⟨rest', hf', hrest⟩ := hd _ _ _ _ _ hb hf
    obtain ⟨left', h', hleft⟩ := ih hrest h
    exact ⟨left', decodeFields_cons.2 ⟨w, rest', hf', h'⟩, hleft⟩

theorem decodeItems_relax (hd : Relaxes keep decode decode') {h : Reader.ListHeader} {i : Nat} {done : List Value}
    (hb : Outlasts b b') (hok : decodeItems decode r h i n b done = .ok (v, left)) :
    ∃ left', decodeItems decode' (r.relax keep) h i n b' done = .ok (v, left') ∧ Outlasts left left' := by
  induction n generalizing i b b' done with
  | zero =>
    cases hok
    exact ⟨b', rfl, hb⟩
  | succ n ih =>
    obtain ⟨w, rest, hi, hok⟩ := decodeItems_succ.1 hok
    obtain ⟨rest', hi', hrest⟩ := hd _ _ _ _ _ hb hi
    obtain ⟨left', hok', hleft⟩ := ih hrest hok
    exact ⟨left', decodeItems_succ.2 ⟨w, rest', hi', hok'⟩, hleft⟩

theorem decodeList_relax (hd : Relaxes keep decode decode') {elem : TypeId} (hb : Outlasts b b')
    (h : decodeList decode r elem b = .ok (v, left)) :
    ∃ left', decodeList decode' (r.relax keep) elem b' = .ok (v, left') ∧ Outlasts left left' := by
  unfold decodeList at h ⊢
  rw [Reader.schema_relax]
  split_ifs at h ⊢
  · split at h
    · cases h
    · rename_i items hitems
      rw [Reader.bytes_relax hitems]
      exact charged_relax hb h
  · split at h
    · cases h
    · rename_i header hheader
      obtain ⟨paid, hpaid, h⟩ := exists_of_bind h
      obtain ⟨paid', hpaid', hout⟩ := charge_outlasts hb hpaid (r.relax keep)
      obtain ⟨left', h', hleft⟩ := decodeItems_relax hd hout h
      refine ⟨left', ?_, hleft⟩
      simp only [Reader.listHeader_relax hheader, hpaid', ok_bind]
      exact h'

theorem decodeVariant_relax (hd : Relaxes keep decode decode') (hb : Outlasts b b')
    (h : decodeVariant decode r b = .ok (v, left)) :
    ∃ left', decodeVariant decode' (r.relax keep) b' = .ok (v, left') ∧ Outlasts left left' := by
  obtain ⟨member, inner, paid, w, hv, hpaid, hw, rfl⟩ := decodeVariant_eq_ok.1 h
  obtain ⟨paid', hpaid', hout⟩ := charge_outlasts hb hpaid (inner.relax keep)
  obtain ⟨left', hw', hleft⟩ := hd _ _ _ _ _ hout hw
  exact ⟨left', decodeVariant_eq_ok.2 ⟨member, _, paid', w, Reader.variant_relax hv keep, hpaid', hw', rfl⟩, hleft⟩

theorem decodeAux_relaxes (keep : Bool) {fuel fuel' : Nat} (hf : fuel ≤ fuel') :
    Relaxes keep (decodeAux fuel) (decodeAux fuel') := by
  induction fuel generalizing fuel' with
  | zero =>
    intro r b b' left v _ h
    cases h
  | succ fuel ih =>
    obtain ⟨n, rfl⟩ : ∃ n, fuel' = n + 1 := ⟨fuel' - 1, by omega⟩
    have hpart := ih (Nat.le_of_succ_le_succ hf)
    intro r b b' left v hb h
    rw [decodeAux] at h ⊢
    rw [Reader.type?_relax]
    split at h
    · cases h
    · exact decodePrimitive_relax hb h
    · exact plain_relax hb (fun _ ha => Reader.uint_relax ha keep) h
    · split at h
      · cases h
      · rename_i t ht
        rw [Reader.text_relax ht]
        exact charged_relax hb h
    · exact decodeList_relax hpart hb h
    · exact decodeFields_relax hpart hb h
    · exact decodeVariant_relax hpart hb h

end Walks

namespace Reader

theorem decode_of_walk {r : Reader} {fuel : Nat} {b left : Int} {v : Value} (hf : fuel ≤ r.depth)
    (hb : Outlasts b (if r.checked then r.buf.size else -1)) (h : decodeAux fuel r b = .ok (v, left)) :
    r.decode = .ok v := by
  obtain ⟨left', h', -⟩ := decodeAux_relaxes true hf _ _ _ _ _ hb h
  rw [relax_true] at h'
  rw [decode, h']
  rfl

end Reader

/-- Whatever bytes a checked reader decodes, the unchecked reader of the same buffer decodes to the same value and stays
inside the buffer. -/
theorem Schema.decode_unchecked {s : Schema} {id : TypeId} {buf : Buffer} {r : Reader} {v : Value}
    (hr : Reader.ofBuffer s id buf true = .ok r) (hv : r.decode = .ok v) :
    ∃ r', Reader.ofBuffer s id buf false = .ok r' ∧ r'.decode = .ok v := by
  obtain ⟨t, ht, hroom, rfl⟩ := Reader.ofBuffer_eq_ok.1 hr
  refine ⟨_, Reader.ofBuffer_eq_ok.2 ⟨t, ht, hroom, rfl⟩, ?_⟩
  obtain ⟨⟨w, left⟩, hwalk, hw⟩ := exists_of_bind hv
  cases hw
  obtain ⟨left', hwalk', -⟩ := decodeAux_relaxes false (Nat.le_refl _) _ _ (-1) _ _ (.inl (by decide)) hwalk
  exact congrArg (· >>= fun out => pure out.1) hwalk'

/-- Bytes that no value is encoded to: two of them lie between a union's slot and its payload. -/
theorem Schema.decode_unchecked_sample :
    let buf : Buffer := #[1, 4, 0, 9, 9, 2, 0, 104, 105, 0]
    ∃ r', Reader.ofBuffer Schema.sample 7 buf false = .ok r' ∧ r'.decode = .ok (.variant "note" (.text "hi")) := by
  have hv : (⟨Schema.sample, #[1, 4, 0, 9, 9, 2, 0, 104, 105, 0], #[], true, 7, 0⟩ : Reader).decode =
      .ok (.variant "note" (.text "hi")) := by rfl
  exact Schema.decode_unchecked (by rfl) hv

end Flatwire
