import Flatwire.Proofs.Reading

/-! Checked walks over arbitrary bytes. A checked walk always ends, and what it refuses it reports, with one exception:
an empty list of bytes is sliced at its payload without a look at where that is. -/

namespace Flatwire

variable {elem : TypeId} {q : SequenceType} {o : OneOfType}

/-- The failures that a checked walk reports. -/
def ReadError.Reported (e : ReadError) : Prop :=
  e.kind? = some .outOfBounds ∨ e.kind? = some .overlap ∨ e.kind? = some .unknownTag

/-- The walk fails for the given cause, here or at a part. -/
def FailsWith {α : Type} (x : Except (Located ReadError) α) (c : ReadError) : Prop := ∃ e, x = .error e ∧ e.cause = c

section Failures

variable {α : Type} {c : ReadError} {budget : Int}

theorem not_failsWith_ok (a : α) : ¬ FailsWith (.ok a) c := by
  rintro ⟨e, he, -⟩
  cases he

theorem failsWith_here {e : ReadError} : FailsWith (.error (.here e) : Except (Located ReadError) α) c ↔ e = c := by
  constructor
  · rintro ⟨_, he, rfl⟩
    cases he
    rfl
  · rintro rfl
    exact ⟨_, rfl, rfl⟩

theorem failsWith_within {p : Place} {x : Except (Located ReadError) α} : FailsWith (within p x) c ↔ FailsWith x c := by
  cases x with
  | ok a => exact iff_of_false (not_failsWith_ok a) (not_failsWith_ok a)
  | error e =>
    constructor
    · rintro ⟨_, he, rfl⟩
      cases he
      exact ⟨e, rfl, rfl⟩
    · rintro ⟨_, he, rfl⟩
      cases he
      exact ⟨_, rfl, rfl⟩

theorem failsWith_bind {β : Type} {x : Except (Located ReadError) α} {f : α → Except (Located ReadError) β} :
    FailsWith (x >>= f) c ↔ FailsWith x c ∨ ∃ a, x = .ok a ∧ FailsWith (f a) c := by
  cases x with
  | ok a => simp [not_failsWith_ok]
  | error e => simp [FailsWith]

theorem charge_failsWith {r : Reader} {n : Nat} (h : FailsWith (charge r n budget) c) : c.Reported := by
  obtain ⟨e, he, rfl⟩ := h
  unfold charge at he
  split_ifs at he
  cases he
  exact .inr (.inl rfl)

theorem charged_failsWith {r : Reader} {n : Nat} {v : Value}
    (h : FailsWith (charge r n budget >>= fun left => pure (v, left)) c) : c.Reported := by
  rcases failsWith_bind.1 h with hc | ⟨_, _, h⟩
  · exact charge_failsWith hc
  · exact absurd h (not_failsWith_ok _)

variable {decode : Reader → Int → Decoded} {r : Reader}

theorem failsWith_decodeFields_cons {f : Field} {fs : List Field} {done : List (Bytes × Value)} :
    FailsWith (decodeFields decode r q (f :: fs) budget done) c ↔
      FailsWith (decode (r.moved f.type (r.addr + f.offset.toNat)) budget) c ∨
      ∃ w rest, decode (r.moved f.type (r.addr + f.offset.toNat)) budget = .ok (w, rest) ∧
        FailsWith (decodeFields decode r q fs rest (setField done f.name w)) c := by
  rw [decodeFields]
  cases hf : decode (r.moved f.type (r.addr + f.offset.toNat)) budget with
  | error e => simp [within, FailsWith]
  | ok out =>
    obtain ⟨w, rest⟩ := out
    simp [within, not_failsWith_ok]

theorem decodeFields_failsWith {fs : List Field} {done : List (Bytes × Value)} :
    FailsWith (decodeFields decode r q fs budget done) c ↔
      ∃ before f after w left, fs = before ++ f :: after ∧ decodeFields decode r q before budget done = .ok (w, left) ∧
        FailsWith (decode (r.moved f.type (r.addr + f.offset.toNat)) left) c := by
  induction fs generalizing budget done with
  | nil =>
    refine iff_of_false (not_failsWith_ok _) ?_
    rintro ⟨before, f, after, _, _, h, -⟩
    simp at h
  | cons g gs ih =>
    rw [failsWith_decodeFields_cons]
    constructor
    · rintro (h | ⟨v, rest, hg, h⟩)
      · exact ⟨[], g, gs, .record done, budget, rfl, rfl, h⟩
      · obtain ⟨before, f, after, w, left, rfl, hok, hf⟩ := ih.1 h
        exact ⟨g :: before, f, after, w, left, rfl, decodeFields_cons.2 ⟨v, rest, hg, hok⟩, hf⟩
    · rintro ⟨_ | ⟨b, bs⟩, f, after, w, left, heq, hok, hf⟩
      · cases heq
        cases hok
        exact .inl hf
      · cases heq
        obtain ⟨v, rest, hg, hok⟩ := decodeFields_cons.1 hok
        exact .inr ⟨v, rest, hg, ih.2 ⟨bs, f, after, w, left, rfl, hok, hf⟩⟩

theorem failsWith_decodeItems_succ {h : Reader.ListHeader} {k n : Nat} {done : List Value} :
    FailsWith (decodeItems decode r h k (n + 1) budget done) c ↔
      FailsWith (decode (r.element h k) budget) c ∨ ∃ w rest, decode (r.element h k) budget = .ok (w, rest) ∧
        FailsWith (decodeItems decode r h (k + 1) n rest (w :: done)) c := by
  rw [decodeItems]
  cases hi : decode (r.element h k) budget with
  | error e => simp [within, FailsWith]
  | ok out =>
    obtain ⟨w, rest⟩ := out
    simp [within, not_failsWith_ok]

theorem decodeItems_failsWith {h : Reader.ListHeader} {k n : Nat} {done : List Value} :
    FailsWith (decodeItems decode r h k n budget done) c ↔
      ∃ m < n, ∃ w left, decodeItems decode r h k m budget done = .ok (w, left) ∧
        FailsWith (decode (r.element h (k + m)) left) c := by
  induction n generalizing k budget done with
  | zero =>
    refine iff_of_false (not_failsWith_ok _) ?_
    rintro ⟨m, hm, -⟩
    exact absurd hm (Nat.not_lt_zero m)
  | succ n ih =>
    rw [failsWith_decodeItems_succ]
    constructor
    · rintro (hf | ⟨v, rest, hg, hf⟩)
      · exact ⟨0, Nat.succ_pos n, .list done.reverse, budget, rfl, hf⟩
      · obtain ⟨m, hm, w, left, hok, hf⟩ := ih.1 hf
        rw [Nat.add_right_comm] at hf
        exact ⟨m + 1, Nat.succ_lt_succ hm, w, left, decodeItems_succ.2 ⟨v, rest, hg, hok⟩, hf⟩
    · rintro ⟨_ | m, hm, w, left, hok, hf⟩
      · cases hok
        exact .inl hf
      · obtain ⟨v, rest, hg, hok⟩ := decodeItems_succ.1 hok
        refine .inr ⟨v, rest, hg, ih.2 ⟨m, Nat.lt_of_succ_lt_succ hm, w, left, hok, ?_⟩⟩
        rwa [Nat.add_right_comm]

end Failures

theorem Buffer.exists_deref? {buf : Buffer} {a : Nat} (h : a + 2 ≤ buf.size) :
    ∃ payload : Nat, buf.deref? a = some (payload : Int) := by
  obtain ⟨v, hv, hh⟩ := Buffer.exists_holds h
  exact ⟨a + v, hh.deref? (Nat.le_of_lt_succ hv)⟩

namespace Reader

/-- A checked reader of a known type whose static section lies inside the buffer. -/
structure Inside (r : Reader) : Prop where
  laidOut : r.schema.LaidOut
  checked : r.checked = true
  known : r.id < r.schema.types.size
  room : r.addr + r.schema.staticSize r.id ≤ r.buf.size

/-- An empty list of bytes whose slot points past the end of the buffer. -/
def Dangling (r : Reader) : Prop :=
  ∃ elem payload, r.type? = some (.list elem) ∧ r.schema.type? elem = some (.primitive .u8) ∧
    r.buf.listHeader? r.addr = some (0, payload) ∧ (r.buf ++ r.spare).size < payload

variable {r : Reader}

theorem Inside.room_type (hr : r.Inside) {t : TypeDef} (ht : r.type? = some t) :
    r.addr + t.staticSize ≤ r.buf.size := by
  have h := hr.room
  rwa [Schema.staticSize_eq ht] at h

theorem listHeader_cases (hr : r.Inside) (ht : r.type? = some (.list elem)) :
    (∃ e, r.listHeader = .error e ∧ e.Reported) ∨
      ∃ h, r.listHeader = .ok h ∧ h.elem = elem ∧ r.buf.listHeader? r.addr = some (h.length, (h.payload : Int)) ∧
        (0 < h.length → r.addr + 4 ≤ h.payload ∧ h.payload + h.length * r.schema.staticSize elem ≤ r.buf.size) := by
  have hroom : r.addr + 4 ≤ r.buf.size := hr.room_type ht
  obtain ⟨count, hcount, hheld⟩ := Buffer.exists_holds (show r.addr + 2 ≤ r.buf.size by omega)
  obtain ⟨payload, hslot⟩ := Buffer.exists_deref? (show r.addr + 2 + 2 ≤ r.buf.size by omega)
  have hhead := Buffer.listHeader?_eq (hheld.readNat? hcount) hslot
  simp only [listHeader, ht, check_eq hroom, hhead, fetch, ok_bind, Int.toNat_natCast, hr.checked, Bool.true_and,
    decide_eq_true_eq]
  by_cases hpos : 0 < count
  · simp only [hpos, if_true]
    rcases check_cases hr.checked payload (count * r.schema.staticSize elem) with ⟨hin, hok⟩ | herr
    · simp only [hok, ok_bind]
      split_ifs with hbefore
      · exact .inl ⟨_, rfl, .inl rfl⟩
      · exact .inr ⟨⟨elem, count, payload⟩, rfl, rfl, rfl, fun _ => ⟨by simpa using hbefore, hin⟩⟩
    · rw [herr]
      exact .inl ⟨_, rfl, .inl rfl⟩
  · simp only [hpos, if_false]
    exact .inr ⟨⟨elem, count, payload⟩, rfl, rfl, rfl, fun h => absurd h hpos⟩

theorem variant_cases (hr : r.Inside) (ht : r.type? = some (.oneOf o)) :
    (∃ e, r.variant = .error e ∧ e.Reported) ∨
      ∃ member payload, r.variant = .ok (member, r.moved member.type payload) ∧ member ∈ o.variants ∧
        r.addr + 3 ≤ payload ∧ payload + r.schema.staticSize member.type ≤ r.buf.size := by
  have hroom : r.addr + 3 ≤ r.buf.size := hr.room_type ht
  obtain ⟨tag, htag, hheld⟩ := Buffer.exists_holds (show r.addr + 1 ≤ r.buf.size by omega)
  obtain ⟨payload, hslot⟩ := Buffer.exists_deref? (show r.addr + 1 + 2 ≤ r.buf.size by omega)
  have hheader := oneOfHeader_eq ht hroom (Buffer.oneOfHeader?_eq (hheld.readNat? htag) hslot)
  simp only [variant, hheader, ok_bind]
  cases hm : o.variants[tag]? with
  | none => exact .inl ⟨_, rfl, .inr (.inr rfl)⟩
  | some member =>
    simp only [hr.checked, if_true]
    rcases check_cases hr.checked payload (r.schema.staticSize member.type) with ⟨hin, hok⟩ | herr
    · simp only [hok, ok_bind]
      split_ifs with hbefore
      · exact .inl ⟨_, rfl, .inl rfl⟩
      · exact .inr ⟨member, payload, rfl, List.mem_of_getElem? hm, Nat.le_of_not_lt hbefore, hin⟩
    · rw [herr]
      exact .inl ⟨_, rfl, .inl rfl⟩

theorem text_cases (hr : r.Inside) (ht : r.type? = some .string) :
    (∃ e, r.text = .error e ∧ e.Reported) ∨ ∃ t, r.text = .ok t := by
  have hroom : r.addr + 2 ≤ r.buf.size := hr.room_type ht
  obtain ⟨payload, hslot⟩ := Buffer.exists_deref? hroom
  simp only [text, ht, hr.checked, if_true, check_eq hroom, hslot, fetch, ok_bind, Int.toNat_natCast]
  rcases check_cases hr.checked payload 0 with ⟨-, hok⟩ | herr
  · rw [hok, ok_bind]
    cases hz : r.buf.zeroFrom? payload with
    | none => exact .inl ⟨_, rfl, .inl rfl⟩
    | some stop =>
      obtain ⟨hle, hlt⟩ := Buffer.zeroFromAux_some hz
      have hslice := Buffer.slice?_eq r.buf payload (stop - payload) (by omega)
      rw [← Int.natCast_add, Nat.add_sub_cancel' hle] at hslice
      simp only [hslice]
      exact .inr ⟨_, rfl⟩
  · rw [herr]
    exact .inl ⟨_, rfl, .inl rfl⟩

theorem Dangling.bytes_eq (h : r.Dangling) : r.bytes = .error .outsideBuffer := by
  obtain ⟨elem, payload, ht, hu, hhead, hout⟩ := h
  have hroom : r.addr + 4 ≤ r.buf.size := by
    obtain ⟨count, hcount, hrest⟩ := Option.bind_eq_some_iff.1 hhead
    obtain ⟨p, hp, -⟩ := Option.bind_eq_some_iff.1 hrest
    obtain ⟨_, hp, -⟩ := Option.map_eq_some_iff.1 hp
    obtain ⟨d, hd, -⟩ := Option.bind_eq_some_iff.1 hp
    exact Buffer.le_of_readNat? (a := r.addr + 2) hd
  have hheader : r.listHeader = .ok ⟨elem, 0, payload.toNat⟩ := by
    simp only [listHeader, ht, check_eq hroom, hhead, fetch, ok_bind, Nat.lt_irrefl, decide_false, Bool.and_false,
      Bool.false_eq_true, if_false]
    rfl
  have hslice : r.buf.sliceWith? r.spare (payload.toNat : Int) ((payload.toNat : Int) + (0 : Nat)) = none := by
    rw [Buffer.sliceWith?, Buffer.slice?, if_neg (by omega)]
  rw [bytes, hheader, ok_bind, if_pos hu, hslice]
  rfl

theorem bytes_cases (hr : r.Inside) (ht : r.type? = some (.list elem))
    (hu : r.schema.type? elem = some (.primitive .u8)) :
    (∃ e, r.bytes = .error e ∧ e.Reported) ∨ r.Dangling ∨ ∃ items, r.bytes = .ok items := by
  rcases listHeader_cases hr ht with ⟨e, he, hrep⟩ | ⟨h, hok, rfl, hhead, hin⟩
  · exact .inl ⟨e, by rw [bytes, he]; rfl, hrep⟩
  -- the header vouches for the payload of a list that is not empty
  · by_cases hfit : h.payload + h.length ≤ (r.buf ++ r.spare).size
    · have hslice := Buffer.slice?_eq (r.buf ++ r.spare) h.payload h.length hfit
      exact .inr (.inr ⟨_, by rw [bytes, hok, ok_bind, if_pos hu, Buffer.sliceWith?, hslice]; rfl⟩)
    · have hone : r.schema.staticSize h.elem = 1 := Schema.staticSize_eq hu
      rw [hone, Nat.mul_one] at hin
      have hzero : h.length = 0 := by
        by_contra hne
        have hend := (hin (Nat.pos_of_ne_zero hne)).2
        rw [Array.size_append] at hfit
        omega
      rw [hzero] at hhead hfit
      exact .inr (.inl ⟨h.elem, h.payload, ht, hu, hhead, by omega⟩)

theorem Inside.field (hr : r.Inside) (ht : r.type? = some (.sequence q)) {f : Field} (hf : f ∈ q.fields) :
    (r.moved f.type (r.addr + f.offset.toNat)).Inside := by
  have hend := (hr.laidOut.follows ht).le_total hf
  have hsize : q.size.toNat = r.schema.total q.fields := (hr.laidOut.contiguous _ _ ht).2
  have hroom : r.addr + q.size.toNat ≤ r.buf.size := hr.room_type ht
  refine ⟨hr.laidOut, hr.checked, hr.laidOut.refs _ _ ht _ (List.mem_map_of_mem hf), ?_⟩
  change r.addr + f.offset.toNat + r.schema.staticSize f.type ≤ r.buf.size
  omega

theorem Inside.element (hr : r.Inside) {h : ListHeader} (ht : r.type? = some (.list h.elem)) {k : Nat}
    (hk : k < h.length) (hin : h.payload + h.length * r.schema.staticSize h.elem ≤ r.buf.size) :
    (r.element h k).Inside := by
  refine ⟨hr.laidOut, hr.checked, hr.laidOut.refs _ _ ht _ (List.mem_singleton_self _), ?_⟩
  have hmul : (k + 1) * r.schema.staticSize h.elem ≤ h.length * r.schema.staticSize h.elem := Nat.mul_le_mul_right _ hk
  rw [Nat.succ_mul] at hmul
  change h.payload + k * r.schema.staticSize h.elem + r.schema.staticSize h.elem ≤ r.buf.size
  omega

theorem Inside.variant (hr : r.Inside) (ht : r.type? = some (.oneOf o)) {member : Variant} (hm : member ∈ o.variants)
    {payload : Nat} (hin : payload + r.schema.staticSize member.type ≤ r.buf.size) :
    (r.moved member.type payload).Inside :=
  ⟨hr.laidOut, hr.checked, hr.laidOut.refs _ _ ht _ (List.mem_map_of_mem hm), hin⟩

end Reader

/-- A walk of at most so many steps down comes to the target, with the budget that the parts before it have left. -/
inductive Visits : Nat → Reader → Int → Reader → Prop
  | here {fuel : Nat} {r : Reader} {budget : Int} : Visits (fuel + 1) r budget r
  | field {fuel : Nat} {r target : Reader} {budget left : Int} {q : SequenceType} {before after : List Field}
      {f : Field} {w : Value} (ht : r.type? = some (.sequence q)) (hq : q.fields = before ++ f :: after)
      (hd : decodeFields (decodeAux fuel) r q before budget [] = .ok (w, left))
      (h : Visits fuel (r.moved f.type (r.addr + f.offset.toNat)) left target) : Visits (fuel + 1) r budget target
  | item {fuel : Nat} {r target : Reader} {budget paid left : Int} {elem : TypeId} {header : Reader.ListHeader}
      {k : Nat} {w : Value} (ht : r.type? = some (.list elem)) (hu : r.schema.type? elem ≠ some (.primitive .u8))
      (hh : r.listHeader = .ok header)
      (hc : charge r (header.length * r.schema.staticSize elem) budget = .ok paid) (hk : k < header.length)
      (hd : decodeItems (decodeAux fuel) r header 0 k paid [] = .ok (w, left))
      (h : Visits fuel (r.element header k) left target) : Visits (fuel + 1) r budget target
  | variant {fuel : Nat} {r inner target : Reader} {budget paid : Int} {o : OneOfType} {member : Variant}
      (ht : r.type? = some (.oneOf o)) (hv : r.variant = .ok (member, inner))
      (hc : charge inner (r.schema.staticSize member.type) budget = .ok paid) (h : Visits fuel inner paid target) :
      Visits (fuel + 1) r budget target

theorem Visits.failsWith {fuel : Nat} {r target : Reader} {budget : Int} (h : Visits fuel r budget target)
    (ht : target.Dangling) : FailsWith (decodeAux fuel r budget) .outsideBuffer := by
  induction h with
  | here =>
    have hbytes := ht.bytes_eq
    obtain ⟨elem, payload, htype, hu, -⟩ := ht
    simp only [decodeAux, htype, decodeList, hu, if_true, hbytes]
    exact failsWith_here.2 rfl
  | field htype hq hd _ ih =>
    simp only [decodeAux, htype]
    exact decodeFields_failsWith.2 ⟨_, _, _, _, _, hq, hd, ih ht⟩
  | @item fuel r target budget paid left elem header k w htype hu hh hc hk hd _ ih =>
    simp only [decodeAux, htype, decodeList, hu, if_false, hh, hc, ok_bind]
    refine decodeItems_failsWith.2 ⟨k, hk, w, left, hd, ?_⟩
    rw [Nat.zero_add]
    exact ih ht
  | variant htype hv hc _ ih =>
    simp only [decodeAux, htype, decodeVariant, hv, hc, ok_bind]
    exact failsWith_bind.2 (.inl (failsWith_within.2 (ih ht)))

namespace Reader

variable {r : Reader}

theorem Inside.decodePrimitive_ok (hr : r.Inside) {k : PrimitiveKind} (ht : r.type? = some (.primitive k))
    (budget : Int) : ∃ v, decodePrimitive r k budget = .ok (v, budget) := by
  obtain ⟨n, -, hn⟩ := Buffer.exists_holds (hr.room_type ht)
  exact ⟨_, decodePrimitive_eq ht hn budget⟩

theorem Inside.uint_ok (hr : r.Inside) {e : EnumType} (ht : r.type? = some (.enum e)) : ∃ n, r.uint = .ok n := by
  obtain ⟨n, hlt, hn⟩ := Buffer.exists_holds (hr.room_type ht)
  exact ⟨n, uint_enum_eq ht hlt hn⟩

end Reader

/-- The cause is reported, or it is a dangling list that the walk comes to. -/
def Explained (fuel : Nat) (r : Reader) (budget : Int) (c : ReadError) : Prop :=
  c.Reported ∨ c = .outsideBuffer ∧ ∃ target, Visits fuel r budget target ∧ target.Dangling

theorem Explained.of_part {fuel : Nat} {r part : Reader} {budget left : Int} {c : ReadError}
    (h : Explained fuel part left c)
    (hv : ∀ target, Visits fuel part left target → Visits (fuel + 1) r budget target) :
    Explained (fuel + 1) r budget c := by
  rcases h with hrep | ⟨rfl, target, hpart, hdangling⟩
  · exact .inl hrep
  · exact .inr ⟨rfl, target, hv target hpart, hdangling⟩

/-- Every failure of a walk of this depth is explained. -/
def ExplainedAt (fuel : Nat) : Prop :=
  ∀ (r : Reader) (budget : Int) (c : ReadError), r.Inside → r.steps < fuel → FailsWith (decodeAux fuel r budget) c →
    Explained fuel r budget c

section Step

variable {fuel : Nat} {r : Reader} {budget : Int} {c : ReadError}

theorem decodeText_explained (hr : r.Inside) (ht : r.type? = some .string)
    (h : FailsWith (decodeAux (fuel + 1) r budget) c) : Explained (fuel + 1) r budget c := by
  simp only [decodeAux, ht] at h
  rcases Reader.text_cases hr ht with ⟨e, he, hrep⟩ | ⟨t, hok⟩
  · rw [he] at h
    exact .inl (failsWith_here.1 h ▸ hrep)
  · rw [hok] at h
    exact .inl (charged_failsWith h)

theorem decodeBytes_explained (hr : r.Inside) (ht : r.type? = some (.list elem))
    (hu : r.schema.type? elem = some (.primitive .u8)) (h : FailsWith (decodeAux (fuel + 1) r budget) c) :
    Explained (fuel + 1) r budget c := by
  simp only [decodeAux, ht, decodeList, hu, if_true] at h
  rcases Reader.bytes_cases hr ht hu with ⟨e, he, hrep⟩ | hdangling | ⟨items, hok⟩
  · rw [he] at h
    exact .inl (failsWith_here.1 h ▸ hrep)
  · rw [hdangling.bytes_eq] at h
    exact .inr ⟨(failsWith_here.1 h).symm, r, .here, hdangling⟩
  · rw [hok] at h
    exact .inl (charged_failsWith h)

theorem decodeList_explained (hpart : ExplainedAt fuel) (hr : r.Inside) (hf : r.steps ≤ fuel)
    (ht : r.type? = some (.list elem)) (hu : r.schema.type? elem ≠ some (.primitive .u8))
    (h : FailsWith (decodeAux (fuel + 1) r budget) c) : Explained (fuel + 1) r budget c := by
  simp only [decodeAux, ht, decodeList, hu, if_false] at h
  rcases Reader.listHeader_cases hr ht with ⟨e, he, hrep⟩ | ⟨header, hok, rfl, -, hin⟩
  · rw [he] at h
    exact .inl (failsWith_here.1 h ▸ hrep)
  · rw [hok] at h
    rcases failsWith_bind.1 h with hc | ⟨paid, hc, h⟩
    · exact .inl (charge_failsWith hc)
    · obtain ⟨k, hk, w, left, hd, hitem⟩ := decodeItems_failsWith.1 h
      rw [Nat.zero_add] at hitem
      obtain ⟨hbehind, hroom⟩ := hin (Nat.lt_of_le_of_lt (Nat.zero_le k) hk)
      have haddr := hr.room
      have hstep : (r.element header k).steps < r.steps := Reader.steps_payload (by omega)
        (Nat.lt_of_lt_of_le (by omega : r.addr < header.payload) (Nat.le_add_right _ _))
      have hexp := hpart _ left c (hr.element ht hk hroom) (by omega) hitem
      exact hexp.of_part fun target hv => .item ht hu hok hc hk hd hv

theorem decodeRecord_explained (hpart : ExplainedAt fuel) (hr : r.Inside) (hf : r.steps ≤ fuel)
    (ht : r.type? = some (.sequence q)) (h : FailsWith (decodeAux (fuel + 1) r budget) c) :
    Explained (fuel + 1) r budget c := by
  simp only [decodeAux, ht] at h
  obtain ⟨before, f, after, w, left, hq, hd, hfield⟩ := decodeFields_failsWith.1 h
  have hmem : f ∈ q.fields := by rw [hq]; simp
  have hstep := Reader.steps_field hr.laidOut ⟨q, ht, f, hmem, rfl⟩ (Nat.le_add_right r.addr f.offset.toNat)
  have hexp := hpart _ left c (hr.field ht hmem) (by omega) hfield
  exact hexp.of_part fun target hv => .field ht hq hd hv

theorem decodeVariant_explained (hpart : ExplainedAt fuel) (hr : r.Inside) (hf : r.steps ≤ fuel)
    (ht : r.type? = some (.oneOf o)) (h : FailsWith (decodeAux (fuel + 1) r budget) c) :
    Explained (fuel + 1) r budget c := by
  simp only [decodeAux, ht, decodeVariant] at h
  rcases Reader.variant_cases hr ht with ⟨e, he, hrep⟩ | ⟨member, payload, hok, hmem, hbehind, hroom⟩
  · rw [he] at h
    exact .inl (failsWith_here.1 h ▸ hrep)
  · rw [hok] at h
    rcases failsWith_bind.1 h with hc | ⟨paid, hc, h⟩
    · exact .inl (charge_failsWith hc)
    · rcases failsWith_bind.1 h with hvalue | ⟨_, _, h⟩
      · have haddr := hr.room
        have hstep : (r.moved member.type payload).steps < r.steps := Reader.steps_payload (by omega) (by omega)
        have hexp := hpart _ paid c (hr.variant ht hmem hroom) (by omega) (failsWith_within.1 hvalue)
        exact hexp.of_part fun target hv => .variant ht hok hc hv
      · exact absurd h (not_failsWith_ok _)

end Step

theorem decodeAux_explained (fuel : Nat) : ExplainedAt fuel := by
  induction fuel with
  | zero => exact fun r _ _ _ hf _ => absurd hf (Nat.not_lt_zero _)
  | succ fuel ih =>
    intro r budget c hr hf h
    obtain ⟨t, ht⟩ : ∃ t, r.type? = some t := ⟨_, Array.getElem?_eq_getElem hr.known⟩
    have hdeep := Nat.le_of_lt_succ hf
    cases t with
    | primitive k =>
      obtain ⟨v, hv⟩ := hr.decodePrimitive_ok ht budget
      simp only [decodeAux, ht, hv] at h
      exact absurd h (not_failsWith_ok _)
    | enum e =>
      obtain ⟨n, hn⟩ := hr.uint_ok ht
      simp only [decodeAux, ht, hn] at h
      exact absurd h (not_failsWith_ok _)
    | string => exact decodeText_explained hr ht h
    | list elem =>
      by_cases hu : r.schema.type? elem = some (.primitive .u8)
      · exact decodeBytes_explained hr ht hu h
      · exact decodeList_explained ih hr hdeep ht hu h
    | sequence q => exact decodeRecord_explained ih hr hdeep ht h
    | oneOf o => exact decodeVariant_explained ih hr hdeep ht h

namespace Schema

variable {s : Schema} {id : TypeId} {buf : Buffer} {c : ReadError}

theorem validate_failsWith {r : Reader} (hr : Reader.ofBuffer s id buf true = .ok r) :
    FailsWith (s.validate id buf) c ↔ FailsWith (decodeAux r.depth r buf.size) c := by
  obtain ⟨t, -, -, rfl⟩ := Reader.ofBuffer_eq_ok.1 hr
  simp only [validate, hr, Reader.decode, if_true, failsWith_bind]
  constructor
  · rintro ((h | ⟨_, _, h⟩) | ⟨_, _, h⟩)
    · exact h
    · exact absurd h (not_failsWith_ok _)
    · exact absurd h (not_failsWith_ok _)
  · exact fun h => .inl (.inl h)

theorem inside_of_ofBuffer (hs : s.LaidOut) {r : Reader} (hr : Reader.ofBuffer s id buf true = .ok r) : r.Inside := by
  obtain ⟨t, ht, hroom, rfl⟩ := Reader.ofBuffer_eq_ok.1 hr
  refine ⟨hs, rfl, type?_lt ht, ?_⟩
  rwa [staticSize_eq ht, Nat.zero_add]

theorem ofBuffer_eq_error (h : Reader.ofBuffer s id buf true = .error c) :
    c.Reported ∨ s.type? id = none ∧ c = .noType id := by
  unfold Reader.ofBuffer at h
  split at h
  · rename_i ht
    cases h
    exact .inr ⟨ht, rfl⟩
  · split_ifs at h
    cases h
    exact .inl (.inl rfl)

/-- The walk over the whole buffer comes to a dangling list. -/
def Dangles (s : Schema) (id : TypeId) (buf : Buffer) : Prop :=
  ∃ r, Reader.ofBuffer s id buf true = .ok r ∧ ∃ target, Visits r.depth r buf.size target ∧ target.Dangling

theorem Dangles.failsWith (h : s.Dangles id buf) : FailsWith (s.validate id buf) .outsideBuffer := by
  obtain ⟨r, hr, target, hv, hd⟩ := h
  exact (validate_failsWith hr).2 (hv.failsWith hd)

theorem validate_cause (hs : s.LaidOut) (h : FailsWith (s.validate id buf) c) :
    c.Reported ∨ c = .outsideBuffer ∧ s.Dangles id buf ∨ s.type? id = none ∧ c = .noType id := by
  cases hr : Reader.ofBuffer s id buf true with
  | error e =>
    rw [validate, hr] at h
    obtain rfl := failsWith_here.1 h
    exact (ofBuffer_eq_error hr).imp_right .inr
  | ok r =>
    have hwalk := (validate_failsWith hr).1 h
    rcases decodeAux_explained _ r _ c (inside_of_ofBuffer hs hr) r.steps_lt_depth hwalk with hrep | ⟨rfl, hd⟩
    · exact .inl hrep
    · exact .inr (.inl ⟨rfl, r, hr, hd⟩)

/-- Validation of any bytes comes to an end, and accepts them or reports a failure, except exactly where the walk comes
to a dangling list. -/
theorem validate_unless_dangling (hs : s.LaidOut) (id : TypeId) (buf : Buffer) :
    (∀ e, s.validate id buf = .error e →
      e.cause.Reported ∨ e.cause = .outsideBuffer ∨ s.type? id = none ∧ e.cause = .noType id) ∧
    (FailsWith (s.validate id buf) .outsideBuffer ↔ s.Dangles id buf) := by
  refine ⟨fun e he => ?_, fun h => ?_, Dangles.failsWith⟩
  · rcases validate_cause hs ⟨e, he, rfl⟩ with hrep | ⟨hout, -⟩ | hnone
    · exact .inl hrep
    · exact .inr (.inl hout)
    · exact .inr (.inr hnone)
  · rcases validate_cause hs h with hrep | ⟨-, hd⟩ | ⟨-, hno⟩
    · rcases hrep with hk | hk | hk <;> cases hk
    · exact hd
    · cases hno

/-- Four bytes that are neither accepted nor refused: no elements, and a slot that points far past the end. -/
theorem validate_dangling :
    Schema.sample.Lawful ∧ Schema.sample.validate 2 #[0, 0, 255, 255] = .error (.here .outsideBuffer) :=
  ⟨Schema.sample_lawful, by decide +kernel⟩

theorem validate_unless_dangling_sample : Schema.sample.Dangles 2 #[0, 0, 255, 255] :=
  (Schema.validate_unless_dangling Schema.sample_laidOut 2 #[0, 0, 255, 255]).2.1
    ⟨.here .outsideBuffer, by decide +kernel, rfl⟩

end Schema

end Flatwire
