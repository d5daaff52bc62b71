import Flatwire.Proofs.Encoding
import Flatwire.Proofs.Numbers

/-! Lists of bytes, written in one piece or element by element. Both ways check and write in different orders, but they
use the same room and end with the same bytes, alone and in whatever value they are a part of. -/

namespace Flatwire

variable {buf : Buffer} {fs : List Field} {q : SequenceType}

theorem Buffer.getElem?_overwrite {a i : Nat} {bs : Bytes} (h : i < a ∨ a + bs.length ≤ i) :
    (buf.overwrite a bs)[i]? = buf[i]? := by
  induction bs generalizing buf a with
  | nil => rfl
  | cons b bs ih =>
    rw [List.length_cons] at h
    rw [Buffer.overwrite, ih (by omega), Array.getElem?_setIfInBounds_ne (by omega)]

namespace Component

/-! ### The component alone -/

/-- A list of unsigned one-byte numbers, written like any other list. -/
def u8s (items : Bytes) : Component := .list (items.map fun b => .int 1 b.toNat)

/-- A list of signed one-byte numbers, written like any other list. -/
def i8s (items : List Int8) : Component := .list (items.map fun x => .int 1 x.toInt)

theorem int_byte (b : UInt8) : Component.int 1 b.toNat = .scalar 1 b.toNat := by
  have hb : unsigned 1 (b.toNat : Int) = b.toNat :=
    Int.ofNat.inj (unsigned_of_nonneg (Int.natCast_nonneg _) (Int.ofNat_lt.2 b.toNat_lt))
  rw [Component.int, hb]

theorem int_signed_byte (x : Int8) : Component.int 1 x.toInt = .int 1 x.toUInt8.toNat := by
  have hall : ∀ n : Fin 256, unsigned 1 (UInt8.ofFin n).toInt8.toInt = unsigned 1 (UInt8.ofFin n).toNat := by
    decide +kernel
  exact congrArg (Component.scalar 1) (hall x.toUInt8.toFin)

theorem i8s_eq (items : List Int8) : i8s items = u8s (items.map Int8.toUInt8) := by
  rw [i8s, u8s, List.map_map]
  exact congrArg Component.list (List.map_congr_left fun x _ => int_signed_byte x)

theorem writes_u8s (items : Bytes) (hl : items.length ≤ maxListLength) : Writes (u8s items) (.ofBytes items) := by
  refine writes_list 1 ?_ ?_ (by rw [List.length_map]; exact hl)
  · rw [List.forall₂_map_left_iff, List.forall₂_map_right_iff]
    refine List.forall₂_same.2 fun b _ => ?_
    rw [int_byte]
    exact writes_scalar 1 b.toNat
  · intro i hi
    obtain ⟨b, -, rfl⟩ := List.mem_map.1 hi
    rfl

/-- Two ways to write a list of `count` elements, each of one byte, that the caller cannot tell apart. A caller has no
room to reserve at a `dest` below zero. -/
structure WrittenAlike (count : Nat) (fast generic : Component) (buf : Buffer) (dest cursor : Int) : Prop where
  same : 0 ≤ dest → fast.write buf dest cursor = generic.write buf dest cursor
  inside : 0 ≤ dest → fast.write buf dest cursor ≠ .error .outsideBuffer
  complete : 0 ≤ dest → ((∃ out, fast.write buf dest cursor = .ok out) ↔
    count ≤ maxListLength ∧ cursor + count ≤ buf.size)
  unreserved : dest < 0 → ∀ out, fast.write buf dest cursor ≠ .ok out ∧ generic.write buf dest cursor ≠ .ok out
  /-- Only the slot and the bytes up to the new cursor may change. -/
  frame : ∀ out stop, fast.write buf dest cursor = .ok (out, stop) → out.size = buf.size ∧ stop = cursor + count ∧
    ∀ i : Nat, ¬ (dest ≤ i ∧ i < dest + 4) → ¬ (cursor ≤ i ∧ i < stop) → out[i]? = buf[i]?

theorem write_tooLong {items : Bytes} (h : maxListLength < items.length) (buf : Buffer) (dest cursor : Int) :
    (Component.bytes items).write buf dest cursor = .error .listTooLong ∧
      (u8s items).write buf dest cursor = .error .listTooLong := by
  constructor
  · rw [Component.write, if_pos h]
    rfl
  · rw [u8s, Component.write, if_pos (by rw [List.length_map]; exact h)]
    rfl

theorem putNat?_neg {dest : Int} (h : dest < 0) (buf : Buffer) (n v : Nat) : buf.putNat? dest n v = none :=
  if_neg fun hin => absurd hin.1 (Int.not_le.2 h)

theorem write_unreserved (items : Bytes) {dest : Int} (h : dest < 0) (buf : Buffer) (cursor : Int)
    (out : Buffer × Int) : (Component.bytes items).write buf dest cursor ≠ .ok out ∧
      (u8s items).write buf dest cursor ≠ .ok out := by
  constructor
  · intro hwrite
    rw [Component.write] at hwrite
    split_ifs at hwrite
    · cases hwrite
    · obtain ⟨stop, -, hwrite⟩ := exists_of_bind hwrite
      rw [putNat?_neg h] at hwrite
      cases hwrite
  · intro hwrite
    rw [u8s, Component.write] at hwrite
    split_ifs at hwrite
    · cases hwrite
    · rw [putNat?_neg h] at hwrite
      cases hwrite

theorem write_bytes_eq {items : Bytes} (hl : items.length ≤ maxListLength) {dest cursor : Nat}
    (hd : dest + 4 ≤ cursor) (hc : cursor ≤ buf.size) :
    (Component.bytes items).write buf dest cursor = (Image.ofBytes items).drawn buf dest cursor ∧
      (u8s items).write buf dest cursor = (Image.ofBytes items).drawn buf dest cursor :=
  ⟨(writes_bytes items hl).write buf dest cursor hd hc, (writes_u8s items hl).write buf dest cursor hd hc⟩

theorem bytes_writtenAlike (items : Bytes) {dest cursor : Int} (hd : dest + 4 ≤ cursor) (hc : cursor ≤ buf.size) :
    WrittenAlike items.length (.bytes items) (u8s items) buf dest cursor := by
  rcases Int.lt_or_le dest 0 with hneg | hpos
  · have hnone := write_unreserved items hneg buf cursor
    exact ⟨fun h => by omega, fun h => by omega, fun h => by omega, fun _ => hnone,
      fun out stop h => absurd h (hnone _).1⟩
  rcases Nat.lt_or_ge maxListLength items.length with hlong | hl
  · obtain ⟨hfast, hgeneric⟩ := write_tooLong hlong buf dest cursor
    refine ⟨fun _ => hfast.trans hgeneric.symm, fun _ => ?_, fun _ => ?_, fun h => by omega, fun out stop h => ?_⟩
    · rw [hfast]
      intro h
      cases h
    · rw [hfast]
      constructor
      · rintro ⟨out, h⟩
        cases h
      · intro h
        omega
    · cases hfast.symm.trans h
  · obtain ⟨d, rfl⟩ := Int.eq_ofNat_of_zero_le hpos
    obtain ⟨c, rfl⟩ := Int.eq_ofNat_of_zero_le (show 0 ≤ cursor by omega)
    have hcount := Image.payloads_ofBytes items
    obtain ⟨hfast, hgeneric⟩ := write_bytes_eq hl (show d + 4 ≤ c by omega) (Int.ofNat_le.1 hc)
    rw [Image.drawn, hcount] at hfast
    refine ⟨fun _ => hfast.trans ?_, fun _ => ?_, fun _ => ?_, fun h => by omega, fun out stop h => ?_⟩
    · rw [hgeneric, Image.drawn, hcount]
    · rw [hfast]
      split_ifs <;> simp
    · rw [hfast]
      split_ifs with hroom
      · exact ⟨fun _ => ⟨hl, by omega⟩, fun _ => ⟨_, rfl⟩⟩
      · constructor
        · rintro ⟨out, h⟩
          cases h
        · intro h
          omega
    · rw [hfast] at h
      split_ifs at h with hroom
      cases h
      refine ⟨Image.size_placed _ _ _ _, by omega, fun i hslot hpayload => ?_⟩
      have hstatic : (Cell.render ((Image.ofBytes items).static (c - d))).length = 4 := Image.length_static _ _
      have hdynamic : (Cell.render (Image.ofBytes items).dynamic).length = items.length := hcount
      rw [Image.placed, Buffer.getElem?_overwrite (by omega), Buffer.getElem?_overwrite (by omega)]

theorem writeTo_u8s (items : Bytes) (buf : Buffer) : (Component.bytes items).writeTo buf = (u8s items).writeTo buf := by
  rcases Nat.lt_or_ge maxListLength items.length with hlong | hl
  · obtain ⟨hfast, hgeneric⟩ := write_tooLong hlong (buf.extract 0 Buffer.maxSize) 0 4
    have hsize : (Component.bytes items).staticSize = 4 ∧ (u8s items).staticSize = 4 := ⟨rfl, rfl⟩
    rw [writeTo_eq, writeTo_eq, hsize.1, hsize.2]
    rw [show ((4 : Nat) : Int) = 4 from rfl, hfast, hgeneric]
  · rw [(writes_bytes items hl).writeTo, (writes_u8s items hl).writeTo]

end Component

/-! ### Plans -/

namespace Plan

variable {buf : Buffer}

/-- Two plans of one size that write the same wherever there is room for the payloads, and use up just that room. -/
structure Agrees (p q : Plan) : Prop where
  staticSize : p.component.staticSize = q.component.staticSize
  payloads : p.payloads = q.payloads
  write : ∀ (buf : Buffer) (dest : Int) (cursor : Nat), cursor + p.payloads ≤ buf.size →
    p.component.write buf dest cursor = q.component.write buf dest cursor
  uses : ∀ (buf : Buffer) (dest : Int) (cursor : Nat), cursor + p.payloads ≤ buf.size →
    ∀ out stop, p.component.write buf dest cursor = .ok (out, stop) →
      out.size = buf.size ∧ stop = (cursor + p.payloads : Nat)

theorem Agrees.symm {p q : Plan} (h : p.Agrees q) : q.Agrees p := by
  refine ⟨h.staticSize.symm, h.payloads.symm, fun buf dest cursor hroom => ?_, fun buf dest cursor hroom => ?_⟩
  · rw [← h.payloads] at hroom
    exact (h.write buf dest cursor hroom).symm
  · rw [← h.payloads] at hroom ⊢
    rw [← h.write buf dest cursor hroom]
    exact h.uses buf dest cursor hroom

theorem Agrees.trans {p q r : Plan} (h : p.Agrees q) (h' : q.Agrees r) : p.Agrees r := by
  refine ⟨h.staticSize.trans h'.staticSize, h.payloads.trans h'.payloads, fun buf dest cursor hroom => ?_, h.uses⟩
  rw [h.write buf dest cursor hroom, h'.write buf dest cursor (by rwa [← h.payloads])]

theorem size_of_put? {out : Buffer} {addr : Int} {bs : Bytes} (h : buf.put? addr bs = some out) :
    out.size = buf.size := by
  unfold Buffer.put? at h
  split_ifs at h
  cases h
  exact Buffer.size_overwrite _ _ _

theorem inBuffer_eq_ok {α : Type} {x : Option α} {a : α} (h : inBuffer x = .ok a) : x = some a := by
  cases x with
  | none => cases h
  | some b =>
    cases h
    rfl

theorem inBuffer_bind_congr {α β : Type} {x : Option α} {f g : α → Except WriteError β}
    (h : ∀ a, x = some a → f a = g a) : (inBuffer x >>= f) = (inBuffer x >>= g) := by
  cases x with
  | none => rfl
  | some a => exact h a rfl

theorem agrees_scalar (width v : Nat) : Agrees ⟨.scalar width v, 0⟩ ⟨.scalar width v, 0⟩ := by
  refine ⟨rfl, rfl, fun _ _ _ _ => rfl, fun buf dest cursor _ out stop h => ?_⟩
  rw [Component.write] at h
  obtain ⟨b, hb, h⟩ := exists_of_bind h
  cases h
  exact ⟨size_of_put? (inBuffer_eq_ok hb), rfl⟩

theorem agrees_text (t : Bytes) : Agrees ⟨.text t, t.length + 1⟩ ⟨.text t, t.length + 1⟩ := by
  refine ⟨rfl, rfl, fun _ _ _ _ => rfl, fun buf dest cursor hroom out stop h => ?_⟩
  rw [Component.write, reserve_eq, if_pos hroom, ok_bind] at h
  obtain ⟨b, hb, h⟩ := exists_of_bind h
  obtain ⟨b', hb', h⟩ := exists_of_bind h
  cases h
  exact ⟨(size_of_put? (inBuffer_eq_ok hb')).trans (size_of_put? (inBuffer_eq_ok hb)), rfl⟩

theorem writeItems_bytes (items : Bytes) {start : Nat} (stop : Int) (h : start + items.length ≤ buf.size) :
    Component.writeItems 1 (items.map fun b => .int 1 b.toNat) buf start stop =
      .ok (buf.overwrite start items, stop) := by
  induction items generalizing buf start with
  | nil => rfl
  | cons b items ih =>
    rw [List.length_cons] at h
    have hbyte : Bytes.ofNat 1 b.toNat = [b] := by rw [Bytes.ofNat, Bytes.ofNat, UInt8.ofNat_toNat]
    have hput : buf.putNat? start 1 b.toNat = some (buf.overwrite start [b]) := by
      rw [Buffer.putNat?, hbyte]
      exact Buffer.put?_eq _ _ _ (by rw [List.length_singleton]; omega)
    have hfirst : (Component.int 1 b.toNat).write buf start stop = .ok (buf.overwrite start [b], stop) := by
      rw [Component.int_byte, Component.write, hput]
      rfl
    rw [List.map_cons, Component.writeItems, hfirst]
    exact ih (by rw [Buffer.size_overwrite]; omega)

/-- Both ways fail alike if there is no slot, and else fill the room that both of them find. -/
theorem agrees_bytes (items : Bytes) (hl : items.length ≤ maxListLength) :
    Agrees ⟨.bytes items, items.length⟩ ⟨Component.u8s items, items.length⟩ := by
  have hfast : ∀ (buf : Buffer) (dest : Int) (cursor : Nat), cursor + items.length ≤ buf.size →
      (Component.bytes items).write buf dest cursor = (do
        let buf ← inBuffer (buf.putNat? dest 2 items.length)
        let buf ← inBuffer (buf.putOffset? (dest + 2) cursor)
        return (buf.overwrite cursor items, ((cursor + items.length : Nat) : Int))) := by
    intro buf dest cursor hroom
    rw [Component.write, if_neg (Nat.not_lt.2 hl), reserve_eq, if_pos hroom]
    refine inBuffer_bind_congr fun counted hcounted => inBuffer_bind_congr fun headed hheaded => ?_
    have hsize : headed.size = buf.size := (size_of_put? hheaded).trans (size_of_put? hcounted)
    rw [Buffer.put?_eq _ _ _ (by omega)]
    rfl
  refine ⟨rfl, rfl, fun buf dest cursor hroom => (hfast buf dest cursor hroom).trans ?_, ?_⟩
  · cases items with
    | nil =>
      rw [Component.u8s, List.map_nil, Component.write_list_nil]
      rfl
    | cons b items =>
      rw [Component.u8s, List.map_cons, Component.write_list_cons _ _ (by rw [List.length_map]; exact hl),
        List.length_map, List.length_cons]
      refine inBuffer_bind_congr fun counted hcounted => ?_
      have hcount : counted.size = buf.size := size_of_put? hcounted
      rw [show (Component.int 1 b.toNat).staticSize = 1 from rfl, Nat.one_mul, hcount, reserve_eq,
        if_pos (show cursor + (items.length + 1) ≤ buf.size from hroom), ok_bind]
      refine inBuffer_bind_congr fun headed hheaded => ?_
      have hsize : headed.size = buf.size := (size_of_put? hheaded).trans hcount
      exact (writeItems_bytes (b :: items) _ (by rw [hsize]; exact hroom)).symm
  · intro buf dest cursor hroom out stop h
    rw [hfast buf dest cursor hroom] at h
    obtain ⟨counted, hcounted, h⟩ := exists_of_bind h
    obtain ⟨headed, hheaded, h⟩ := exists_of_bind h
    cases h
    rw [Buffer.size_overwrite]
    exact ⟨(size_of_put? (inBuffer_eq_ok hheaded)).trans (size_of_put? (inBuffer_eq_ok hcounted)), rfl⟩

variable {ps qs : List Plan}

theorem sum_payloads_eq (h : List.Forall₂ Agrees ps qs) : (ps.map payloads).sum = (qs.map payloads).sum := by
  induction h with
  | nil => rfl
  | cons hpq _ ih => rw [List.map_cons, List.map_cons, List.sum_cons, List.sum_cons, ih, hpq.payloads]

theorem writeItems_agrees (h : List.Forall₂ Agrees ps qs) (size : Nat) (dest : Int) {cursor : Nat}
    (hroom : cursor + (ps.map payloads).sum ≤ buf.size) :
    Component.writeItems size (ps.map component) buf dest cursor =
        Component.writeItems size (qs.map component) buf dest cursor ∧
      ∀ out stop, Component.writeItems size (ps.map component) buf dest cursor = .ok (out, stop) →
        out.size = buf.size ∧ stop = (cursor + (ps.map payloads).sum : Nat) := by
  induction h generalizing buf dest cursor with
  | nil =>
    refine ⟨rfl, fun out stop h => ?_⟩
    cases h
    exact ⟨rfl, rfl⟩
  | @cons p q ps qs hpq _ ih =>
    rw [List.map_cons, List.sum_cons] at hroom
    have hfirst : cursor + p.payloads ≤ buf.size := by omega
    rw [List.map_cons, List.map_cons, Component.writeItems, Component.writeItems, ← hpq.write buf dest cursor hfirst]
    cases hwrite : p.component.write buf dest cursor with
    | error e =>
      refine ⟨rfl, fun out stop h => ?_⟩
      cases h
    | ok r =>
      obtain ⟨next, stop⟩ := r
      obtain ⟨hsize, rfl⟩ := hpq.uses buf dest cursor hfirst _ _ hwrite
      have hnext : cursor + p.payloads + (ps.map payloads).sum ≤ next.size := by omega
      obtain ⟨hsame, huses⟩ := ih (dest + size) hnext
      refine ⟨hsame, fun out stop h => ?_⟩
      obtain ⟨hout, rfl⟩ := huses out stop h
      rw [List.map_cons, List.sum_cons, ← Nat.add_assoc]
      exact ⟨hout.trans hsize, rfl⟩

theorem agrees_list {size : Nat} (h : List.Forall₂ Agrees ps qs) (hsize : ∀ p ∈ ps, p.component.staticSize = size)
    (hl : ps.length ≤ maxListLength) :
    Agrees ⟨.list (ps.map component), ps.length * size + (ps.map payloads).sum⟩
      ⟨.list (qs.map component), ps.length * size + (qs.map payloads).sum⟩ := by
  cases h with
  | nil =>
    refine ⟨rfl, rfl, fun _ _ _ _ => rfl, fun buf dest cursor _ out stop h => ?_⟩
    rw [List.map_nil, Component.write_list_nil] at h
    obtain ⟨counted, hcounted, h⟩ := exists_of_bind h
    obtain ⟨headed, hheaded, h⟩ := exists_of_bind h
    cases h
    refine ⟨(size_of_put? (inBuffer_eq_ok hheaded)).trans (size_of_put? (inBuffer_eq_ok hcounted)), ?_⟩
    simp
  | @cons p q ps qs hpq htail =>
    obtain rfl : p.component.staticSize = size := hsize p List.mem_cons_self
    have hall : List.Forall₂ Agrees (p :: ps) (q :: qs) := .cons hpq htail
    have hlen := htail.length_eq
    rw [List.length_cons] at hl ⊢
    -- behind the slot the elements have the room that is left
    have hopen : ∀ (r : Plan) (rs : List Plan), r.component.staticSize = p.component.staticSize →
        rs.length = ps.length → ∀ (buf : Buffer) (dest : Int) (cursor : Nat),
        cursor + (ps.length + 1) * p.component.staticSize ≤ buf.size →
        (Component.list ((r :: rs).map component)).write buf dest cursor = (do
          let buf ← inBuffer (buf.putNat? dest 2 (ps.length + 1))
          let buf ← inBuffer (buf.putOffset? (dest + 2) cursor)
          Component.writeItems p.component.staticSize ((r :: rs).map component) buf cursor
            ((cursor + (ps.length + 1) * p.component.staticSize : Nat) : Int)) := by
      intro r rs hr hrs buf dest cursor hroom
      rw [List.map_cons, Component.write_list_cons _ _ (by rw [List.length_map, hrs]; exact hl), List.length_map, hrs,
        hr]
      refine inBuffer_bind_congr fun counted hcounted => ?_
      rw [show counted.size = buf.size from size_of_put? hcounted, reserve_eq, Nat.mul_comm, if_pos hroom, ok_bind]
    refine ⟨rfl, by rw [sum_payloads_eq hall], fun buf dest cursor hroom => ?_,
      fun buf dest cursor hroom out stop h => ?_⟩
    · dsimp only at hroom
      rw [hopen p ps rfl rfl _ _ _ (by omega), hopen q qs hpq.staticSize.symm hlen.symm _ _ _ (by omega)]
      refine inBuffer_bind_congr fun counted hcounted => inBuffer_bind_congr fun headed hheaded => ?_
      have hkept : headed.size = buf.size := (size_of_put? hheaded).trans (size_of_put? hcounted)
      exact (writeItems_agrees hall _ _ (by omega)).1
    · dsimp only at hroom h
      rw [hopen p ps rfl rfl _ _ _ (by omega)] at h
      obtain ⟨counted, hcounted, h⟩ := exists_of_bind h
      obtain ⟨headed, hheaded, h⟩ := exists_of_bind h
      have hkept : headed.size = buf.size :=
        (size_of_put? (inBuffer_eq_ok hheaded)).trans (size_of_put? (inBuffer_eq_ok hcounted))
      obtain ⟨hout, rfl⟩ := (writeItems_agrees hall _ _ (by omega)).2 out stop h
      exact ⟨hout.trans hkept, by rw [Nat.add_assoc]⟩

theorem agrees_oneOf {p q : Plan} (h : p.Agrees q) (tag : UInt8) :
    Agrees ⟨.oneOf tag (some p.component), p.payloads + p.component.staticSize⟩
      ⟨.oneOf tag (some q.component), q.payloads + q.component.staticSize⟩ := by
  refine ⟨rfl, by rw [h.payloads, h.staticSize], fun buf dest cursor hroom => ?_,
    fun buf dest cursor hroom out stop hw => ?_⟩
  · dsimp only at hroom
    rw [Component.write, Component.write, ← h.staticSize, reserve_eq, if_pos (by omega)]
    refine inBuffer_bind_congr fun tagged htagged => inBuffer_bind_congr fun headed hheaded => ?_
    have hkept : headed.size = buf.size := (size_of_put? hheaded).trans (size_of_put? htagged)
    exact h.write headed cursor _ (by omega)
  · dsimp only at hroom hw
    rw [Component.write, reserve_eq, if_pos (by omega), ok_bind] at hw
    obtain ⟨tagged, htagged, hw⟩ := exists_of_bind hw
    obtain ⟨headed, hheaded, hw⟩ := exists_of_bind hw
    have hkept : headed.size = buf.size :=
      (size_of_put? (inBuffer_eq_ok hheaded)).trans (size_of_put? (inBuffer_eq_ok htagged))
    obtain ⟨hout, rfl⟩ := h.uses headed cursor _ (by omega) out stop hw
    refine ⟨hout.trans hkept, ?_⟩
    dsimp only
    omega

/-- The fields of a sequence with the components that are planned for them. -/
def fieldsOf (fs : List Field) (ps : List Plan) : List (UInt16 × Component) :=
  (fs.zip ps).map fun e => (e.1.offset, e.2.component)

theorem writeFields_agrees (h : List.Forall₂ Agrees ps qs) (hl : fs.length = ps.length) (dest : Int) {cursor : Nat}
    (hroom : cursor + (ps.map payloads).sum ≤ buf.size) :
    Component.writeFields (fieldsOf fs ps) buf dest cursor = Component.writeFields (fieldsOf fs qs) buf dest cursor ∧
      ∀ out stop, Component.writeFields (fieldsOf fs ps) buf dest cursor = .ok (out, stop) →
        out.size = buf.size ∧ stop = (cursor + (ps.map payloads).sum : Nat) := by
  induction h generalizing fs buf cursor with
  | nil =>
    cases fs with
    | cons => cases hl
    | nil =>
      refine ⟨rfl, fun out stop h => ?_⟩
      cases h
      exact ⟨rfl, rfl⟩
  | @cons p q ps qs hpq _ ih =>
    cases fs with
    | nil => cases hl
    | cons f fs =>
      rw [List.map_cons, List.sum_cons] at hroom
      have hfirst : cursor + p.payloads ≤ buf.size := by omega
      have hcons : ∀ r rs, fieldsOf (f :: fs) (r :: rs) = (f.offset, r.component) :: fieldsOf fs rs := fun _ _ => rfl
      rw [hcons, hcons, Component.writeFields, Component.writeFields, ← hpq.write buf _ cursor hfirst]
      cases hwrite : p.component.write buf (dest + f.offset.toNat) cursor with
      | error e =>
        refine ⟨rfl, fun out stop h => ?_⟩
        cases h
      | ok r =>
        obtain ⟨next, stop⟩ := r
        obtain ⟨hsize, rfl⟩ := hpq.uses buf _ cursor hfirst _ _ hwrite
        have hnext : cursor + p.payloads + (ps.map payloads).sum ≤ next.size := by omega
        obtain ⟨hsame, huses⟩ := ih (Nat.succ.inj hl) hnext
        refine ⟨hsame, fun out stop h => ?_⟩
        obtain ⟨hout, rfl⟩ := huses out stop h
        rw [List.map_cons, List.sum_cons, ← Nat.add_assoc]
        exact ⟨hout.trans hsize, rfl⟩

theorem agrees_record (h : List.Forall₂ Agrees ps qs) (hl : fs.length = ps.length) (size : UInt16) :
    Agrees ⟨.record size (fieldsOf fs ps), (ps.map payloads).sum⟩
      ⟨.record size (fieldsOf fs qs), (qs.map payloads).sum⟩ := by
  refine ⟨rfl, sum_payloads_eq h, fun buf dest cursor hroom => ?_, fun buf dest cursor hroom out stop hw => ?_⟩
  · rw [Component.write, Component.write]
    exact (writeFields_agrees h hl dest hroom).1
  · rw [Component.write] at hw
    exact (writeFields_agrees h hl dest hroom).2 out stop hw

end Plan

/-! ### Values -/

/-- Two plannings with one outcome: the same error, or plans that agree. -/
def Planned.Agree (a b : Planned) : Prop :=
  (∃ e, a = .error e ∧ b = .error e) ∨ ∃ p q, a = .ok p ∧ b = .ok q ∧ p.Agrees q

theorem Planned.Agree.symm {a b : Planned} (h : Agree a b) : Agree b a := by
  rcases h with ⟨e, ha, hb⟩ | ⟨p, q, ha, hb, hpq⟩
  · exact .inl ⟨e, hb, ha⟩
  · exact .inr ⟨q, p, hb, ha, hpq.symm⟩

theorem Planned.Agree.trans {a b c : Planned} (h : Agree a b) (h' : Agree b c) : Agree a c := by
  rcases h with ⟨e, ha, hb⟩ | ⟨p, q, ha, hb, hpq⟩
  · rwa [ha, ← hb]
  · rcases h' with ⟨e, hb', -⟩ | ⟨q', r, hb', hc, hqr⟩
    · cases hb.symm.trans hb'
    · cases hb.symm.trans hb'
      exact .inr ⟨p, r, ha, hc, hpq.trans hqr⟩

theorem planFields_agree {q : SequenceType} {es es' : List (Bytes × (TypeId → Planned))} {fs : List Field}
    (h : ∀ f ∈ fs, named? es f.name = none ∧ named? es' f.name = none ∨ ∃ plan plan', named? es f.name = some plan ∧
      named? es' f.name = some plan' ∧ Planned.Agree (plan f.type) (plan' f.type))
    (n : Nat) (done done' : List (UInt16 × Component)) :
    (∃ e, planFields q es fs n done = .error e ∧ planFields q es' fs n done' = .error e) ∨
      ∃ ps qs, List.Forall₂ Plan.Agrees ps qs ∧ fs.length = ps.length ∧
        planFields q es fs n done = .ok (done.reverse ++ Plan.fieldsOf fs ps, n + (ps.map Plan.payloads).sum) ∧
        planFields q es' fs n done' = .ok (done'.reverse ++ Plan.fieldsOf fs qs, n + (qs.map Plan.payloads).sum) := by
  induction fs generalizing n done done' with
  | nil => exact .inr ⟨[], [], .nil, rfl, by simp [planFields, Plan.fieldsOf], by simp [planFields, Plan.fieldsOf]⟩
  | cons f fs ih =>
    have hopen : ∀ (es : List (Bytes × (TypeId → Planned))) (done : List (UInt16 × Component)),
        planFields q es (f :: fs) n done = (named? es f.name).elim (.error (.here (.missingField q.name f.name)))
          fun plan => (within (.field q.name f.name) (plan f.type)) >>= fun p =>
            planFields q es fs (n + p.payloads) ((f.offset, p.component) :: done) := by
      intro es done
      rw [planFields, named?]
      cases es.find? fun e => e.1 = f.name with
      | none => rfl
      | some e =>
        dsimp only [Option.map_some, Option.elim_some]
        cases within (.field q.name f.name) (e.2 f.type) <;> rfl
    rw [hopen, hopen]
    rcases h f List.mem_cons_self with ⟨hnone, hnone'⟩ | ⟨plan, plan', hplan, hplan', hagree⟩
    · rw [hnone, hnone']
      exact .inl ⟨_, rfl, rfl⟩
    rw [hplan, hplan']
    rcases hagree with ⟨e, hp, hp'⟩ | ⟨p, p', hp, hp', hpp⟩
    · dsimp only [Option.elim_some]
      rw [hp, hp']
      exact .inl ⟨_, rfl, rfl⟩
    · dsimp only [Option.elim_some]
      rw [hp, hp']
      simp only [within, ok_bind]
      rw [← hpp.payloads]
      rcases ih (fun g hg => h g (List.mem_cons_of_mem f hg)) (n + p.payloads) ((f.offset, p.component) :: done)
        ((f.offset, p'.component) :: done') with ⟨e, he, he'⟩ | ⟨ps, qs, hpqs, hlen, hps, hqs⟩
      · exact .inl ⟨e, he, he'⟩
      · refine .inr ⟨p :: ps, p' :: qs, .cons hpp hpqs, by simp [hlen], ?_, ?_⟩
        · rw [hps]
          simp [Plan.fieldsOf, Nat.add_assoc]
        · rw [hqs]
          simp [Plan.fieldsOf, Nat.add_assoc, hpp.payloads]

namespace Value

variable {s : Schema} {id elem : TypeId}

theorem staticSize_plan {v : Value} {p : Plan} (h : v.plan s id = .ok p) :
    p.component.staticSize = s.staticSize id := by
  obtain ⟨t, ht, hp⟩ := plan_plans h
  rw [Schema.staticSize_eq ht]
  cases hp <;> rfl

theorem planItems_agree {vs ws : List Value} (hl : vs.length = ws.length)
    (h : ∀ p ∈ vs.zip ws, Planned.Agree (p.1.plan s elem) (p.2.plan s elem)) (i n : Nat) (done done' : List Component) :
    (∃ e, planItems s vs elem i n done = .error e ∧ planItems s ws elem i n done' = .error e) ∨
      ∃ ps qs, List.Forall₂ Plan.Agrees ps qs ∧ ps.length = vs.length ∧
        (∀ p ∈ ps, p.component.staticSize = s.staticSize elem) ∧
        planItems s vs elem i n done =
          .ok ⟨.list (done.reverse ++ ps.map Plan.component), n + (ps.map Plan.payloads).sum⟩ ∧
        planItems s ws elem i n done' =
          .ok ⟨.list (done'.reverse ++ qs.map Plan.component), n + (qs.map Plan.payloads).sum⟩ := by
  induction vs generalizing ws i n done done' with
  | nil =>
    obtain rfl := List.length_eq_zero_iff.1 hl.symm
    exact .inr ⟨[], [], .nil, rfl, by simp, by simp [planItems], by simp [planItems]⟩
  | cons v vs ih =>
    cases ws with
    | nil => cases hl
    | cons w ws =>
      rw [planItems, planItems]
      rcases h (v, w) List.mem_cons_self with ⟨e, hv, hw⟩ | ⟨p, q, hv, hw, hpq⟩
      · dsimp only at hv hw
        rw [hv, hw]
        exact .inl ⟨_, rfl, rfl⟩
      · dsimp only at hv hw
        rw [hv, hw]
        simp only [within]
        rw [← hpq.payloads]
        rcases ih (Nat.succ.inj hl) (fun e he => h e (List.mem_cons_of_mem _ he)) (i + 1) (n + p.payloads)
          (p.component :: done) (q.component :: done') with ⟨e, he, he'⟩ | ⟨ps, qs, hpqs, hlen, hsize, hps, hqs⟩
        · exact .inl ⟨e, he, he'⟩
        · refine .inr ⟨p :: ps, q :: qs, .cons hpq hpqs, by simp [hlen], ?_, ?_, ?_⟩
          · rw [List.forall_mem_cons]
            exact ⟨staticSize_plan hv, hsize⟩
          · rw [hps]
            simp [Nat.add_assoc]
          · rw [hqs]
            simp [Nat.add_assoc, hpq.payloads]

theorem plan_list (ht : s.type? id = some (.list elem)) (items : List Value) :
    (Value.list items).plan s id = if items.length > maxListLength then .error (.here (.write .listTooLong))
      else planItems s items elem 0 (items.length * s.staticSize elem) [] := by
  rw [plan.eq_def]
  simp only [ht]

theorem plan_bytes (ht : s.type? id = some (.list elem)) (he : s.type? elem = some (.primitive .u8)) (items : Bytes) :
    (Value.bytes items).plan s id =
      if items.length > maxListLength then .error (.here (.write .listTooLong))
      else .ok ⟨.bytes items, items.length⟩ := by
  rw [plan.eq_def]
  simp only [ht, he, if_true]

theorem plan_record (ht : s.type? id = some (.sequence q)) (fields : List (Bytes × Value)) :
    (Value.record fields).plan s id = planRecord q (planEntries s fields) := by
  rw [plan.eq_def]
  simp only [ht]

theorem plan_variant {o : OneOfType} (ht : s.type? id = some (.oneOf o)) (name : Bytes) (v : Value) :
    (Value.variant name v).plan s id = planVariant o (s.typeName id) name (fun id => v.plan s id) ∧
      (Value.variantRef name v).plan s id = planVariant o (s.typeName id) name (fun id => v.plan s id) := by
  constructor <;> rw [plan.eq_def] <;> simp only [ht]

theorem plan_list_agree (ht : s.type? id = some (.list elem)) {vs ws : List Value} (hl : vs.length = ws.length)
    (h : ∀ p ∈ vs.zip ws, Planned.Agree (p.1.plan s elem) (p.2.plan s elem)) :
    Planned.Agree ((Value.list vs).plan s id) ((Value.list ws).plan s id) := by
  rw [plan_list ht, plan_list ht, ← hl]
  split_ifs with hlong
  · exact .inl ⟨_, rfl, rfl⟩
  rcases planItems_agree hl h 0 (vs.length * s.staticSize elem) [] [] with hsame | ⟨ps, qs, hpqs, hlen, hsize, hps, hqs⟩
  · exact .inl hsame
  · rw [hps, hqs, ← hlen]
    exact .inr ⟨_, _, rfl, rfl, Plan.agrees_list hpqs hsize (by rw [hlen]; exact Nat.not_lt.1 hlong)⟩

theorem named?_zip {fs gs : List (Bytes × Value)} (h : fs.map Prod.fst = gs.map Prod.fst) (name : Bytes) :
    named? fs name = none ∧ named? gs name = none ∨
      ∃ p ∈ fs.zip gs, p.1.1 = name ∧ named? fs name = some p.1.2 ∧ named? gs name = some p.2.2 := by
  induction fs generalizing gs with
  | nil =>
    obtain rfl := List.map_eq_nil_iff.1 h.symm
    exact .inl ⟨rfl, rfl⟩
  | cons f fs ih =>
    cases gs with
    | nil => cases h
    | cons g gs =>
      rw [List.map_cons, List.map_cons, List.cons.injEq] at h
      by_cases hname : f.1 = name
      · refine .inr ⟨(f, g), List.mem_cons_self, hname, ?_, ?_⟩
        · rw [named?, List.find?_cons_of_pos (by simpa using hname)]
          rfl
        · rw [named?, List.find?_cons_of_pos (by simpa [← h.1] using hname)]
          rfl
      · have hf : named? (f :: fs) name = named? fs name := by
          rw [named?, List.find?_cons_of_neg (by simpa using hname)]
          rfl
        have hg : named? (g :: gs) name = named? gs name := by
          rw [named?, List.find?_cons_of_neg (by simpa [← h.1] using hname)]
          rfl
        rw [hf, hg]
        rcases ih h.2 with hnone | ⟨p, hp, hfound⟩
        · exact .inl hnone
        · exact .inr ⟨p, List.mem_cons_of_mem _ hp, hfound⟩

theorem plan_record_agree (ht : s.type? id = some (.sequence q)) {fs gs : List (Bytes × Value)}
    (hnames : fs.map Prod.fst = gs.map Prod.fst)
    (h : ∀ p ∈ fs.zip gs, ∀ f ∈ q.fields, f.name = p.1.1 → Planned.Agree (p.1.2.plan s f.type) (p.2.2.plan s f.type)) :
    Planned.Agree ((Value.record fs).plan s id) ((Value.record gs).plan s id) := by
  have hentries : ∀ f ∈ q.fields, named? (planEntries s fs) f.name = none ∧ named? (planEntries s gs) f.name = none ∨
      ∃ plan plan', named? (planEntries s fs) f.name = some plan ∧ named? (planEntries s gs) f.name = some plan' ∧
        Planned.Agree (plan f.type) (plan' f.type) := by
    intro f hf
    rw [planEntries_eq, planEntries_eq, named?_map fun (v : Value) id => v.plan s id,
      named?_map fun (v : Value) id => v.plan s id]
    rcases named?_zip hnames f.name with ⟨hnone, hnone'⟩ | ⟨p, hp, hname, hsome, hsome'⟩
    · rw [hnone, hnone']
      exact .inl ⟨rfl, rfl⟩
    · rw [hsome, hsome']
      exact .inr ⟨_, _, rfl, rfl, h p hp f hf hname.symm⟩
  have hstranger : (planEntries s fs).map (·.1) = (planEntries s gs).map (·.1) := by
    rw [planEntries_eq, planEntries_eq, List.map_map, List.map_map]
    exact hnames
  rw [plan_record ht, plan_record ht, planRecord, planRecord, hstranger]
  rcases planFields_agree hentries 0 [] [] with ⟨e, he, he'⟩ | ⟨ps, qs, hpqs, hlen, hps, hqs⟩
  · rw [he, he']
    exact .inl ⟨e, rfl, rfl⟩
  · rw [hps, hqs, ok_bind, ok_bind]
    cases q.stranger? ((planEntries s gs).map (·.1)) with
    | some name => exact .inl ⟨_, rfl, rfl⟩
    | none =>
      refine .inr ⟨_, _, rfl, rfl, ?_⟩
      rw [List.reverse_nil, List.nil_append, List.nil_append, Nat.zero_add, Nat.zero_add]
      exact Plan.agrees_record hpqs hlen q.size

theorem planVariant_agree {o : OneOfType} {name : Bytes} {v w : Value}
    (h : ∀ m ∈ o.variants, m.name = name → Planned.Agree (v.plan s m.type) (w.plan s m.type)) (typeName : Bytes) :
    Planned.Agree (planVariant o typeName name fun id => v.plan s id)
      (planVariant o typeName name fun id => w.plan s id) := by
  unfold planVariant
  cases hfind : o.find? name with
  | none => exact .inl ⟨_, rfl, rfl⟩
  | some m =>
    have hname : m.name = name := by simpa using List.find?_some hfind
    dsimp only
    rcases h m (List.mem_of_find?_eq_some hfind) hname with ⟨e, hv, hw⟩ | ⟨p, q, hv, hw, hpq⟩
    · rw [hv, hw]
      exact .inl ⟨_, rfl, rfl⟩
    · rw [hv, hw]
      exact .inr ⟨_, _, rfl, rfl, Plan.agrees_oneOf hpq m.tag⟩

theorem forall_mem_of_forall₂ {α β : Type} {R : α → β → Prop} {P : β → Prop} {as : List α} {bs : List β}
    (h : List.Forall₂ R as bs) (step : ∀ a ∈ as, ∀ b, R a b → P b) : ∀ b ∈ bs, P b := by
  induction h with
  | nil => exact nofun
  | @cons a b as bs hab _ ih =>
    rw [List.forall_mem_cons]
    exact ⟨step a List.mem_cons_self b hab, ih fun c hc => step c (List.mem_cons_of_mem a hc)⟩

theorem plan_agrees_self (v : Value) : ∀ (id : TypeId) (p : Plan), v.plan s id = .ok p → p.Agrees p := by
  induction v using Value.parts_induction with
  | step v ih =>
    intro id p h
    obtain ⟨t, -, hp⟩ := plan_plans h
    cases hp with
    | primitive => exact Plan.agrees_scalar _ _
    | enum => exact Plan.agrees_scalar _ _
    | text => exact Plan.agrees_text _
    | bytes _ hl => exact (Plan.agrees_bytes _ hl).trans (Plan.agrees_bytes _ hl).symm
    | @list elem items ps hl hps =>
      have hself : ∀ p ∈ ps, p.Agrees p := forall_mem_of_forall₂ hps fun w hw p => ih w hw elem p
      have hsize : ∀ p ∈ ps, p.component.staticSize = s.staticSize elem :=
        forall_mem_of_forall₂ hps fun w _ p => staticSize_plan
      rw [hps.length_eq] at hl ⊢
      exact Plan.agrees_list (List.forall₂_same.2 hself) hsize hl
    | @record q fields ps hps =>
      refine Plan.agrees_record (List.forall₂_same.2 (forall_mem_of_forall₂ hps ?_)) hps.length_eq q.size
      rintro f - p ⟨w, hw, hp⟩
      obtain ⟨e, he, rfl⟩ := named?_mem hw
      exact ih e.2 (List.mem_map_of_mem he) f.type p hp
    | @oneOf o _ name value member p hv hm hp =>
      refine Plan.agrees_oneOf (ih value ?_ member.type p hp) member.tag
      rcases hv with rfl | rfl <;> exact List.mem_singleton_self value

theorem planItems_ints (he : s.type? elem = some (.primitive .u8)) {xs : List Integer}
    (hxs : ∀ x ∈ xs, 0 ≤ x.value ∧ x.value ≤ 255) (i m : Nat) (done : List Component) :
    planItems s (xs.map .int) elem i m done = .ok ⟨.list (done.reverse ++ xs.map fun x => .int 1 x.value), m⟩ := by
  induction xs generalizing i done with
  | nil => simp [planItems]
  | cons x xs ih =>
    rw [List.forall_mem_cons] at hxs
    have hcomponent : PrimitiveKind.component? .u8 (.int x) = some (.int 1 x.value) := by
      rw [PrimitiveKind.component?_integer (by decide) rfl, between?, if_pos (by exact hxs.1)]
      rfl
    have hplan : (Value.int x).plan s elem = .ok ⟨.int 1 x.value, 0⟩ := by
      rw [plan.eq_def]
      simp only [he, hcomponent]
    rw [List.map_cons, planItems, hplan]
    refine (ih hxs.2 (i + 1) (.int 1 x.value :: done)).trans ?_
    simp

theorem plan_bytes_agree (ht : s.type? id = some (.list elem)) (he : s.type? elem = some (.primitive .u8))
    {xs : List Integer} (hxs : ∀ x ∈ xs, 0 ≤ x.value ∧ x.value ≤ 255) :
    Planned.Agree ((Value.bytes (xs.map fun x => .ofNat x.value.toNat)).plan s id)
      ((Value.list (xs.map .int)).plan s id) := by
  have hitems : Component.u8s (xs.map fun x => .ofNat x.value.toNat) = .list (xs.map fun x => .int 1 x.value) := by
    rw [Component.u8s, List.map_map]
    refine congrArg Component.list (List.map_congr_left fun x hx => ?_)
    obtain ⟨h0, h255⟩ := hxs x hx
    have hbyte : ((UInt8.ofNat x.value.toNat).toNat : Int) = x.value := by
      rw [UInt8.toNat_ofNat']
      omega
    exact congrArg (Component.int 1) hbyte
  have hsize : s.staticSize elem = 1 := Schema.staticSize_eq he
  rw [plan_bytes ht he, plan_list ht, List.length_map, List.length_map, hsize, Nat.mul_one]
  split_ifs with hlong
  · exact .inl ⟨_, rfl, rfl⟩
  · have hl : (xs.map fun x => UInt8.ofNat x.value.toNat).length ≤ maxListLength := by
      rw [List.length_map]
      exact Nat.not_lt.1 hlong
    have hagrees := Plan.agrees_bytes _ hl
    rw [hitems, List.length_map] at hagrees
    rw [planItems_ints he hxs]
    exact .inr ⟨_, _, rfl, rfl, hagrees⟩

end Value

/-- Two values of a type that differ only in how lists of bytes are given: in one piece or as integers, each of which
fits a byte. -/
inductive Schema.Interchangeable (s : Schema) : TypeId → Value → Value → Prop where
  | refl (id : TypeId) (v : Value) : Interchangeable s id v v
  | symm {id : TypeId} {v w : Value} : Interchangeable s id v w → Interchangeable s id w v
  | trans {id : TypeId} {u v w : Value} : Interchangeable s id u v → Interchangeable s id v w → Interchangeable s id u w
  | bytes {id elem : TypeId} {xs : List Integer} : s.type? id = some (.list elem) →
      s.type? elem = some (.primitive .u8) → (∀ x ∈ xs, 0 ≤ x.value ∧ x.value ≤ 255) →
      Interchangeable s id (.bytes (xs.map fun x => .ofNat x.value.toNat)) (.list (xs.map .int))
  | list {id elem : TypeId} {vs ws : List Value} : s.type? id = some (.list elem) → vs.length = ws.length →
      (∀ p ∈ vs.zip ws, Interchangeable s elem p.1 p.2) → Interchangeable s id (.list vs) (.list ws)
  | record {id : TypeId} {q : SequenceType} {fs gs : List (Bytes × Value)} : s.type? id = some (.sequence q) →
      fs.map Prod.fst = gs.map Prod.fst →
      (∀ p ∈ fs.zip gs, ∀ f ∈ q.fields, f.name = p.1.1 → Interchangeable s f.type p.1.2 p.2.2) →
      Interchangeable s id (.record fs) (.record gs)
  | variant {id : TypeId} {o : OneOfType} {name : Bytes} {v w : Value} : s.type? id = some (.oneOf o) →
      (∀ m ∈ o.variants, m.name = name → Interchangeable s m.type v w) →
      Interchangeable s id (.variant name v) (.variant name w)
  | variantRef {id : TypeId} {o : OneOfType} {name : Bytes} {v w : Value} : s.type? id = some (.oneOf o) →
      (∀ m ∈ o.variants, m.name = name → Interchangeable s m.type v w) →
      Interchangeable s id (.variantRef name v) (.variantRef name w)

namespace Schema

variable {s : Schema} {id : TypeId} {v w : Value}

theorem Interchangeable.plan (h : s.Interchangeable id v w) : Planned.Agree (v.plan s id) (w.plan s id) := by
  induction h with
  | refl id v =>
    cases hplan : v.plan s id with
    | error e => exact .inl ⟨e, rfl, rfl⟩
    | ok p => exact .inr ⟨p, p, rfl, rfl, Value.plan_agrees_self v id p hplan⟩
  | symm _ ih => exact ih.symm
  | trans _ _ ih ih' => exact ih.trans ih'
  | bytes ht he hxs => exact Value.plan_bytes_agree ht he hxs
  | list ht hl _ ih => exact Value.plan_list_agree ht hl ih
  | record ht hnames _ ih => exact Value.plan_record_agree ht hnames ih
  | variant ht _ ih =>
    rw [(Value.plan_variant ht _ _).1, (Value.plan_variant ht _ _).1]
    exact Value.planVariant_agree ih _
  | variantRef ht _ ih =>
    rw [(Value.plan_variant ht _ _).2, (Value.plan_variant ht _ _).2]
    exact Value.planVariant_agree ih _

end Schema

theorem Plan.Agrees.writeTo {p q : Plan} (h : p.Agrees q) (hsize : p.size ≤ Buffer.maxSize) :
    p.component.writeTo (Array.replicate p.size 0) = q.component.writeTo (Array.replicate p.size 0) := by
  have hroom : (Array.extract (Array.replicate p.size (0 : UInt8)) 0 Buffer.maxSize).size = p.size := by
    rw [Array.size_extract, Array.size_replicate, Nat.sub_zero, Nat.min_eq_right hsize]
  have hwrite := h.write (Array.extract (Array.replicate p.size 0) 0 Buffer.maxSize) 0 p.component.staticSize
    (by rw [hroom]; exact Nat.le_refl _)
  rw [Component.writeTo_eq, Component.writeTo_eq, ← h.staticSize, hwrite]

theorem Schema.encode_eq_of_agree {s : Schema} {id : TypeId} {v w : Value}
    (h : Planned.Agree (v.plan s id) (w.plan s id)) : s.encode id v = s.encode id w := by
  unfold Schema.encode
  rcases h with ⟨e, hv, hw⟩ | ⟨p, q, hv, hw, hpq⟩
  · rw [hv, hw]
  · have hsize : q.size = p.size := by rw [Plan.size, Plan.size, hpq.staticSize, hpq.payloads]
    rw [hv, hw, ok_bind, ok_bind, hsize]
    split_ifs with hlarge
    · rfl
    · rw [hpq.writeTo (Nat.not_lt.1 hlarge)]

/-- A list of bytes is written in one piece just as it is element by element: by itself at any place that the caller
reserved, in a buffer of its own, and as a part of any value of any schema. -/
theorem byte_lists_written_alike :
    (∀ (items : Bytes) (buf : Buffer) (dest cursor : Int), dest + 4 ≤ cursor → cursor ≤ buf.size →
      Component.WrittenAlike items.length (.bytes items) (.u8s items) buf dest cursor) ∧
    (∀ (items : List Int8) (buf : Buffer) (dest cursor : Int), dest + 4 ≤ cursor → cursor ≤ buf.size →
      Component.WrittenAlike items.length (.int8s items) (.i8s items) buf dest cursor) ∧
    (∀ (items : Bytes) (buf : Buffer), (Component.bytes items).writeTo buf = (Component.u8s items).writeTo buf) ∧
    (∀ (items : List Int8) (buf : Buffer), (Component.int8s items).writeTo buf = (Component.i8s items).writeTo buf) ∧
    ∀ (s : Schema) (id : TypeId) (v w : Value), s.Interchangeable id v w → s.encode id v = s.encode id w := by
  refine ⟨fun items _ _ _ => Component.bytes_writtenAlike items, fun items buf dest cursor hd hc => ?_,
    Component.writeTo_u8s, fun items buf => ?_, fun s id v w h => Schema.encode_eq_of_agree h.plan⟩
  · rw [Component.i8s_eq, Component.int8s, ← List.length_map Int8.toUInt8]
    exact Component.bytes_writtenAlike _ hd hc
  · rw [Component.i8s_eq]
    exact Component.writeTo_u8s _ buf

/-- A sequence with a list of lists of bytes, each given in one of two ways, and a slot inside a larger buffer. -/
theorem byte_lists_written_alike_nested :
    let s : Schema :=
      ⟨"nested", #[.primitive .u8, .list 0, .list 1, .sequence ⟨"Pages", 4, [⟨"pages", 0, 2⟩]⟩], [3], []⟩
    let v : Value := .record [("pages", .list [.bytes [1, 2], .list [.int (.i64 3)]])]
    let w : Value := .record [("pages", .list [.list [.int (.int 1), .int (.u16 2)], .bytes [3]])]
    s.Interchangeable 3 v w ∧ s.encode 3 v = s.encode 3 w ∧
      (s.encode 3 w).toOption = some [2, 0, 2, 0, 2, 0, 6, 0, 1, 0, 4, 0, 1, 2, 3] ∧
      Component.WrittenAlike 2 (.bytes [7, 8]) (.u8s [7, 8]) (Array.replicate 12 0) 1 9 ∧
      Component.WrittenAlike 2 (.int8s [-1, 8]) (.i8s [-1, 8]) (Array.replicate 12 0) 1 9 := by
  intro s v w
  have hv : s.Interchangeable 3 v w := by
    refine .record rfl rfl fun p hp f hf _ => ?_
    cases List.mem_singleton.1 hp
    cases List.mem_singleton.1 hf
    refine .list rfl rfl fun p hp => ?_
    rcases List.mem_cons.1 hp with rfl | hp
    · exact @Schema.Interchangeable.bytes s 1 0 [.int 1, .u16 2] rfl rfl (by decide)
    · cases List.mem_singleton.1 hp
      exact .symm (@Schema.Interchangeable.bytes s 1 0 [.i64 3] rfl rfl (by decide))
  exact ⟨hv, byte_lists_written_alike.2.2.2.2 s 3 v w hv, by decide +kernel,
    byte_lists_written_alike.1 [7, 8] _ 1 9 (by decide) (by decide),
    byte_lists_written_alike.2.1 [-1, 8] _ 1 9 (by decide) (by decide)⟩

end Flatwire
