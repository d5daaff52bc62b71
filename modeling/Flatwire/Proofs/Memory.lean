import Flatwire.Wire.Buffer

/-! Buffers as memory. Byte strings written side by side are one string written, and strings written apart can be
written in either order. A buffer that holds a string holds its parts, and the reading functions find them there. -/

namespace Flatwire

@[simp] theorem ok_bind {ε α β : Type} (a : α) (f : α → Except ε β) : ((.ok a : Except ε α) >>= f) = f a := rfl

@[simp] theorem error_bind {ε α β : Type} (e : ε) (f : α → Except ε β) :
    ((.error e : Except ε α) >>= f) = .error e := rfl

theorem exists_of_bind {ε α β : Type} {x : Except ε α} {f : α → Except ε β} {b : β} (h : (x >>= f) = .ok b) :
    ∃ a, x = .ok a ∧ f a = .ok b := by
  cases x with
  | error e => cases h
  | ok a => exact ⟨a, rfl, h⟩

theorem Bytes.ofNat_mod (n v : Nat) : Bytes.ofNat n (v % Nat.pow 256 n) = Bytes.ofNat n v := by
  induction n generalizing v with
  | zero => rfl
  | succ n ih =>
    have hp : Nat.pow 256 (n + 1) = 256 * Nat.pow 256 n := Nat.mul_comm _ _
    rw [Bytes.ofNat, Bytes.ofNat, hp, Nat.mod_mul_right_div_self, ih]
    congr 1
    apply UInt8.toNat_inj.1
    rw [UInt8.toNat_ofNat', UInt8.toNat_ofNat', Nat.mod_mul_right_mod]

theorem Bytes.ofNat_toNat (bs : Bytes) : Bytes.ofNat bs.length (Bytes.toNat bs) = bs := by
  induction bs with
  | nil => rfl
  | cons b bs ih =>
    have hb := b.toNat_lt
    have hlow : UInt8.ofNat (b.toNat + 256 * Bytes.toNat bs) = b := by
      apply UInt8.toNat_inj.1
      rw [UInt8.toNat_ofNat']
      omega
    have hrest : (b.toNat + 256 * Bytes.toNat bs) / 256 = Bytes.toNat bs := by omega
    rw [List.length_cons, Bytes.ofNat, Bytes.toNat, hlow, hrest, ih]

namespace Buffer

theorem overwrite_append (buf : Buffer) (i : Nat) (xs ys : Bytes) :
    overwrite buf i (xs ++ ys) = overwrite (overwrite buf i xs) (i + xs.length) ys := by
  induction xs generalizing buf i with
  | nil => rfl
  | cons x xs ih =>
    rw [List.cons_append, overwrite, ih, overwrite, List.length_cons]
    congr 1
    omega

theorem setIfInBounds_overwrite (buf : Buffer) (i j : Nat) (x : UInt8) (ys : Bytes) (h : i < j) :
    (overwrite buf j ys).setIfInBounds i x = overwrite (buf.setIfInBounds i x) j ys := by
  induction ys generalizing buf j with
  | nil => rfl
  | cons y ys ih =>
    rw [overwrite, ih _ _ (by omega), overwrite, Array.setIfInBounds_comm _ _ (by omega)]

theorem overwrite_comm (buf : Buffer) (i j : Nat) (xs ys : Bytes) (h : i + xs.length ≤ j) :
    overwrite (overwrite buf j ys) i xs = overwrite (overwrite buf i xs) j ys := by
  induction xs generalizing buf i with
  | nil => rfl
  | cons x xs ih =>
    rw [List.length_cons] at h
    rw [overwrite, setIfInBounds_overwrite _ _ _ _ _ (by omega), ih _ _ (by omega), overwrite]

theorem toList_overwrite (buf : Buffer) (i : Nat) (bs : Bytes) (h : i + bs.length ≤ buf.size) :
    (overwrite buf i bs).toList = buf.toList.take i ++ bs ++ buf.toList.drop (i + bs.length) := by
  induction bs generalizing buf i with
  | nil => simp [overwrite]
  | cons b bs ih =>
    rw [List.length_cons] at h
    have hi : i < buf.toList.length := by rw [Array.length_toList]; omega
    rw [overwrite, ih _ _ (by rw [Array.size_setIfInBounds]; omega), Array.toList_setIfInBounds,
      List.drop_set_of_lt (by omega), List.set_eq_take_append_cons_drop, if_pos hi, List.length_cons,
      List.take_append, List.length_take, Nat.min_eq_left (by omega),
      List.take_of_length_le (by rw [List.length_take]; omega), Nat.add_sub_cancel_left, Nat.add_right_comm,
      Nat.add_assoc]
    simp

theorem overwrite_room (buf : Buffer) (bs : Bytes) (h : bs.length ≤ min buf.size maxSize) :
    overwrite (buf.extract 0 maxSize) 0 bs ++ buf.extract maxSize buf.size =
      (bs ++ buf.toList.drop bs.length).toArray := by
  have hsize : (buf.extract 0 maxSize).size = min buf.size maxSize := by
    rw [Array.size_extract, Nat.min_comm, Nat.sub_zero]
  have hroom : (buf.extract 0 maxSize).toList = buf.toList.take maxSize := by
    rw [Array.toList_extract, List.extract_eq_take_drop, List.drop_zero, Nat.sub_zero]
  have hrest : (buf.extract maxSize buf.size).toList = buf.toList.drop maxSize := by
    rw [Array.toList_extract, List.extract_eq_take_drop, List.take_of_length_le (by simp)]
  have hback : buf.toList.drop bs.length = (buf.toList.take maxSize).drop bs.length ++ buf.toList.drop maxSize := by
    rw [← List.drop_append_of_le_length (by simp; omega), List.take_append_drop]
  apply Array.toList_inj.1
  rw [Array.toList_append, toList_overwrite _ _ _ (by omega), hroom, hrest, hback, List.take_zero, List.nil_append,
    Nat.zero_add, List.append_assoc]

theorem put?_eq (buf : Buffer) (i : Nat) (bs : Bytes) (h : i + bs.length ≤ buf.size) :
    buf.put? i bs = some (overwrite buf i bs) := by
  rw [put?, if_pos ⟨Int.natCast_nonneg i, h⟩, Int.toNat_natCast]

theorem putOffset?_eq (buf : Buffer) (slot target : Nat) (hs : slot + 2 ≤ buf.size) (ht : slot ≤ target) :
    buf.putOffset? slot target = some (overwrite buf slot (Bytes.ofNat 2 (target - slot))) := by
  have hd : unsigned 2 ((target : Int) - slot) = (target - slot) % Nat.pow 256 2 := by
    rw [← Int.ofNat_sub ht]
    rfl
  rw [putOffset?, putNat?, hd, Bytes.ofNat_mod, put?_eq _ _ _ (by rw [Bytes.length_ofNat]; exact hs)]

/-- The buffer holds the bytes from address `a` on. -/
def Holds (buf : Buffer) (a : Nat) (bs : Bytes) : Prop := a ≤ buf.size ∧ bs <+: buf.toList.drop a

variable {buf : Buffer} {a : Nat} {bs xs ys : Bytes}

theorem Holds.le (h : buf.Holds a bs) : a + bs.length ≤ buf.size := by
  have hl := h.2.length_le
  have hb : buf.toList.length = buf.size := Array.length_toList
  have := h.1
  rw [List.length_drop] at hl
  omega

theorem holds_append : buf.Holds a (xs ++ ys) ↔ buf.Holds a xs ∧ buf.Holds (a + xs.length) ys := by
  constructor
  · intro h
    have hl := h.le
    rw [List.length_append] at hl
    obtain ⟨rest, hr⟩ := h.2
    rw [List.append_assoc] at hr
    refine ⟨⟨h.1, ⟨ys ++ rest, hr⟩⟩, by omega, ⟨rest, ?_⟩⟩
    rw [← List.drop_drop, ← hr, List.drop_left]
  · rintro ⟨h1, h2⟩
    obtain ⟨r1, hr1⟩ := h1.2
    obtain ⟨r2, hr2⟩ := h2.2
    rw [← List.drop_drop, ← hr1, List.drop_left] at hr2
    exact ⟨h1.1, ⟨r2, by rw [List.append_assoc, hr2, hr1]⟩⟩

theorem holds_start (bs rest : Bytes) : Holds (bs ++ rest).toArray 0 bs :=
  ⟨Nat.zero_le _, ⟨rest, rfl⟩⟩

theorem slice?_eq (buf : Buffer) (a n : Nat) (h : a + n ≤ buf.size) :
    buf.slice? a (a + n) = some ((buf.toList.drop a).take n) := by
  rw [slice?, if_pos ⟨by omega, by omega, by omega⟩, Array.toList_extract, List.extract_eq_take_drop]
  congr 2
  omega

theorem Holds.slice? (h : buf.Holds a bs) : buf.slice? a (a + bs.length) = some bs := by
  rw [slice?_eq _ _ _ h.le, ← List.prefix_iff_eq_take.1 h.2]

theorem Holds.append (h : buf.Holds a bs) (spare : Buffer) : Holds (buf ++ spare) a bs := by
  refine ⟨by rw [Array.size_append]; exact Nat.le_add_right_of_le h.1, ?_⟩
  rw [Array.toList_append, List.drop_append_of_le_length (by exact h.1)]
  exact h.2.trans (List.prefix_append _ _)

theorem Holds.of_append {spare : Buffer} (h : Holds (buf ++ spare) a bs) (hin : a + bs.length ≤ buf.size) :
    buf.Holds a bs := by
  refine ⟨by omega, ?_⟩
  have hrest := h.2
  rw [Array.toList_append, List.drop_append_of_le_length (by exact Nat.le_of_add_right_le hin)] at hrest
  have hlen : bs.length ≤ (buf.toList.drop a).length := by
    rw [List.length_drop]
    exact Nat.le_sub_of_add_le' hin
  exact List.prefix_of_prefix_length_le hrest (List.prefix_append _ _) hlen

theorem Holds.sliceWith? (h : buf.Holds a bs) (spare : Buffer) : buf.sliceWith? spare a (a + bs.length) = some bs :=
  (h.append spare).slice?

theorem holds_of_slice? {n : Nat} (h : buf.slice? a (a + n) = some bs) : buf.Holds a bs ∧ bs.length = n := by
  have hin : a + n ≤ buf.size := by
    unfold slice? at h
    split at h
    · omega
    · cases h
  rw [slice?_eq _ _ _ hin] at h
  cases h
  refine ⟨⟨by omega, List.take_prefix _ _⟩, ?_⟩
  simp
  omega

theorem Holds.byte {i : Nat} {c : UInt8} (h : buf.Holds a bs) (hc : bs[i]? = some c) : buf.Holds (a + i) [c] := by
  obtain ⟨hi, rfl⟩ := List.getElem?_eq_some_iff.1 hc
  rw [← List.take_append_drop i bs, List.drop_eq_getElem_cons hi] at h
  have hrest := (holds_append.1 h).2
  rw [List.length_take_of_le (Nat.le_of_lt hi), ← List.singleton_append] at hrest
  exact (holds_append.1 hrest).1

theorem Holds.readNat?_mod {n v : Nat} (h : buf.Holds a (Bytes.ofNat n v)) :
    buf.readNat? a n = some (v % Nat.pow 256 n) := by
  have hs := h.slice?
  rw [Bytes.length_ofNat] at hs
  rw [Buffer.readNat?, hs, Option.map_some, Bytes.toNat_ofNat]

theorem Holds.readNat? {n v : Nat} (h : buf.Holds a (Bytes.ofNat n v)) (hv : v < Nat.pow 256 n) :
    buf.readNat? a n = some v := by
  rw [h.readNat?_mod, Nat.mod_eq_of_lt hv]

theorem Holds.deref? {d : Nat} (h : buf.Holds a (Bytes.ofNat 2 d)) (hd : d ≤ maxSize) :
    buf.deref? a = some ((a + d : Nat) : Int) := by
  rw [Buffer.deref?, h.readNat? (by exact Nat.lt_succ_of_le hd)]
  rfl

theorem listHeader?_eq {count : Nat} {payload : Int} (hc : buf.readNat? a 2 = some count)
    (hp : buf.deref? ((a + 2 : Nat) : Int) = some payload) : buf.listHeader? a = some (count, payload) := by
  rw [listHeader?, hc]
  exact congrArg (Option.bind · _) hp

theorem oneOfHeader?_eq {tag : Nat} {payload : Int} (ht : buf.readNat? a 1 = some tag)
    (hp : buf.deref? ((a + 1 : Nat) : Int) = some payload) : buf.oneOfHeader? a = some (tag, payload) := by
  rw [oneOfHeader?, ht]
  exact congrArg (Option.bind · _) hp

theorem Holds.getElem? {c : UInt8} (h : buf.Holds a (c :: bs)) : buf[a]? = some c := by
  obtain ⟨rest, hr⟩ := h.2
  have hg : (buf.toList.drop a)[0]? = some c := by rw [← hr]; rfl
  rw [List.getElem?_drop] at hg
  simpa using hg

theorem Holds.zeroFromAux {t : Bytes} (h : buf.Holds a (t ++ [0])) (ht : 0 ∉ t) (fuel : Nat) (hf : t.length < fuel) :
    zeroFromAux buf fuel a = some (a + t.length) := by
  induction t generalizing a fuel with
  | nil =>
    obtain ⟨n, rfl⟩ : ∃ n, fuel = n + 1 := ⟨fuel - 1, by simp at hf; omega⟩
    rw [Buffer.zeroFromAux, if_pos (Holds.getElem? h)]
    rfl
  | cons c t ih =>
    rw [List.length_cons] at hf
    obtain ⟨n, rfl⟩ : ∃ n, fuel = n + 1 := ⟨fuel - 1, by omega⟩
    rw [List.cons_append] at h
    have hc : ¬ buf[a]? = some 0 := by
      rw [h.getElem?]
      intro h0
      exact ht (by simp [Option.some.inj h0])
    have htail : buf.Holds (a + 1) (t ++ [0]) := (holds_append.1 (show buf.Holds a ([c] ++ (t ++ [0])) from h)).2
    rw [Buffer.zeroFromAux, if_neg hc, ih htail (fun h0 => ht (List.mem_cons_of_mem _ h0)) n (by omega),
      List.length_cons]
    congr 1
    omega

theorem Holds.zeroFrom? {t : Bytes} (h : buf.Holds a (t ++ [0])) (ht : 0 ∉ t) :
    buf.zeroFrom? a = some (a + t.length) := by
  have hl := h.le
  rw [List.length_append, List.length_singleton] at hl
  exact h.zeroFromAux ht _ (by omega)

theorem exists_holds {n : Nat} (h : a + n ≤ buf.size) : ∃ v, v < Nat.pow 256 n ∧ buf.Holds a (Bytes.ofNat n v) := by
  have hb : buf.toList.length = buf.size := Array.length_toList
  have hlen : ((buf.toList.drop a).take n).length = n := by
    rw [List.length_take, List.length_drop]
    omega
  have hlt := Bytes.toNat_lt ((buf.toList.drop a).take n)
  have hbytes := Bytes.ofNat_toNat ((buf.toList.drop a).take n)
  rw [hlen] at hlt hbytes
  refine ⟨_, hlt, by omega, ?_⟩
  rw [hbytes]
  exact List.take_prefix _ _

theorem le_of_readNat? {n v : Nat} (h : buf.readNat? a n = some v) : a + n ≤ buf.size := by
  rw [Buffer.readNat?, Buffer.slice?] at h
  split at h
  · rename_i hin
    omega
  · cases h

theorem readNat?_lt {n v : Nat} (h : buf.readNat? a n = some v) : v < Nat.pow 256 n := by
  obtain ⟨w, hw, hheld⟩ := exists_holds (le_of_readNat? h)
  rw [hheld.readNat? hw] at h
  cases h
  exact hw

theorem zeroFromAux_some {fuel i j : Nat} (h : zeroFromAux buf fuel i = some j) : i ≤ j ∧ j < buf.size := by
  induction fuel generalizing i with
  | zero => cases h
  | succ fuel ih =>
    rw [Buffer.zeroFromAux] at h
    split at h
    · rename_i h0
      cases h
      exact ⟨Nat.le_refl _, (Array.getElem?_eq_some_iff.1 h0).1⟩
    · have := ih h
      omega

theorem holds_singleton {c : UInt8} (h : buf[a]? = some c) : buf.Holds a [c] := by
  obtain ⟨hlt, rfl⟩ := Array.getElem?_eq_some_iff.1 h
  refine ⟨Nat.le_of_lt hlt, buf.toList.drop (a + 1), ?_⟩
  rw [List.drop_eq_getElem_cons (i := a) (by simpa using hlt)]
  simp

theorem holds_of_zeroFromAux {fuel i j : Nat} (h : zeroFromAux buf fuel i = some j) :
    ∃ t : Bytes, 0 ∉ t ∧ j = i + t.length ∧ buf.Holds i (t ++ [0]) := by
  induction fuel generalizing i with
  | zero => cases h
  | succ fuel ih =>
    rw [Buffer.zeroFromAux] at h
    split at h
    · rename_i h0
      cases h
      exact ⟨[], List.not_mem_nil, rfl, holds_singleton h0⟩
    · rename_i h0
      obtain ⟨t, ht, rfl, hheld⟩ := ih h
      have hlt : i < buf.size := by
        have := hheld.1
        have := zeroFromAux_some h
        omega
      refine ⟨buf[i] :: t, ?_, by rw [List.length_cons]; omega, ?_⟩
      · rw [List.mem_cons]
        rintro (hz | hz)
        · exact h0 (by rw [Array.getElem?_eq_getElem hlt, ← hz])
        · exact ht hz
      · have hone : buf.Holds i [buf[i]] := holds_singleton (Array.getElem?_eq_getElem hlt)
        rw [List.cons_append, ← List.singleton_append]
        exact holds_append.2 ⟨hone, hheld⟩

theorem zeroFromAux_none {fuel i : Nat} (h : zeroFromAux buf fuel i = none) {k : Nat} (hi : i ≤ k)
    (hk : k < i + fuel) : buf[k]? ≠ some 0 := by
  induction fuel generalizing i with
  | zero => omega
  | succ fuel ih =>
    rw [Buffer.zeroFromAux] at h
    split at h
    · cases h
    · rename_i h0
      rcases Nat.eq_or_lt_of_le hi with rfl | hlt
      · exact h0
      · exact ih h hlt (by omega)

end Buffer

end Flatwire
