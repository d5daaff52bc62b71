import Mathlib.Tactic.SplitIfs
import Flatwire.Text.Utf8

/-! Reading UTF-8 undoes writing it: the first character of a text is the one whose bytes stand in front, and a text is
valid exactly when it is written as a string of characters. -/

namespace Flatwire.Utf8

section Bytes

variable {b0 b1 b2 b3 : UInt8} {r : Bytes}

theorem isContinuation_iff : isContinuation b1 = true ↔ 0x80 ≤ b1.toNat ∧ b1.toNat ≤ 0xBF := by
  simp [isContinuation, UInt8.le_iff_toNat_le]

theorem secondInRange_iff : secondInRange b0 b1 = true ↔
    (if b0.toNat = 0xE0 then 0xA0 else if b0.toNat = 0xF0 then 0x90 else 0x80) ≤ b1.toNat ∧
      b1.toNat ≤ if b0.toNat = 0xED then 0x9F else if b0.toNat = 0xF4 then 0x8F else 0xBF := by
  simp only [secondInRange, Bool.and_eq_true, decide_eq_true_eq, UInt8.le_iff_toNat_le, ← UInt8.toNat_inj]
  constructor <;> intro h <;> constructor <;> split_ifs at h ⊢ <;> simp_all

theorem first?_one (h0 : b0.toNat < 0x80) : first? (b0 :: r) = some (Char.ofNat b0.toNat, 1) := by
  unfold first?
  simp only [UInt8.lt_iff_toNat_lt, UInt8.reduceToNat]
  rw [if_pos h0]

theorem first?_two (h0 : 0xC2 ≤ b0.toNat ∧ b0.toNat < 0xE0) (h1 : isContinuation b1) :
    first? (b0 :: b1 :: r) = some (Char.ofNat (b0.toNat % 32 * 64 + low6 b1), 2) := by
  unfold first?
  simp only [UInt8.lt_iff_toNat_lt, UInt8.reduceToNat, Bool.or_eq_true, decide_eq_true_eq, h1]
  rw [if_neg (by omega), if_neg (by omega), if_pos h0.2]
  rfl

theorem first?_three (h0 : 0xE0 ≤ b0.toNat ∧ b0.toNat < 0xF0) (h1 : secondInRange b0 b1) (h2 : isContinuation b2) :
    first? (b0 :: b1 :: b2 :: r) = some (Char.ofNat ((b0.toNat % 16 * 64 + low6 b1) * 64 + low6 b2), 3) := by
  unfold first?
  simp only [UInt8.lt_iff_toNat_lt, UInt8.reduceToNat, Bool.or_eq_true, decide_eq_true_eq, h1, h2]
  rw [if_neg (by omega), if_neg (by omega), if_neg (by omega), if_pos h0.2]
  rfl

theorem first?_four (h0 : 0xF0 ≤ b0.toNat ∧ b0.toNat ≤ 0xF4) (h1 : secondInRange b0 b1) (h2 : isContinuation b2)
    (h3 : isContinuation b3) : first? (b0 :: b1 :: b2 :: b3 :: r) =
      some (Char.ofNat (((b0.toNat % 8 * 64 + low6 b1) * 64 + low6 b2) * 64 + low6 b3), 4) := by
  unfold first?
  simp only [UInt8.lt_iff_toNat_lt, UInt8.reduceToNat, Bool.or_eq_true, decide_eq_true_eq, h1, h2, h3]
  rw [if_neg (by omega), if_neg (by omega), if_neg (by omega), if_neg (by omega)]
  rfl

end Bytes

section Characters

variable {n : Nat}

/-- The numbers of characters: below the surrogates, or above them and at most U+10FFFF. -/
theorem toNat_valid (c : Char) : c.toNat < 0xD800 ∨ 0xDFFF < c.toNat ∧ c.toNat < 0x110000 := c.valid

theorem toNat_ofNat (h : n < 0xD800 ∨ 0xDFFF < n ∧ n < 0x110000) : (Char.ofNat n).toNat = n := by
  have hn : n.isValidChar := h
  rw [Char.ofNat, dif_pos hn]
  rfl

theorem utf8Size_ofNat (h : n < 0xD800 ∨ 0xDFFF < n ∧ n < 0x110000) : (Char.ofNat n).utf8Size =
    if n ≤ 0x7F then 1 else if n ≤ 0x7FF then 2 else if n ≤ 0xFFFF then 3 else 4 := by
  have hval : (Char.ofNat n).val.toNat = n := toNat_ofNat h
  simp only [Char.utf8Size, UInt32.le_iff_toNat_le, hval]
  rfl

theorem utf8EncodeChar_ofNat (h : n < 0xD800 ∨ 0xDFFF < n ∧ n < 0x110000) :
    String.utf8EncodeChar (Char.ofNat n) =
      if n ≤ 0x7F then [UInt8.ofNat n]
      else if n ≤ 0x7FF then [UInt8.ofNat (n / 64 % 32 + 192), UInt8.ofNat (n % 64 + 128)]
      else if n ≤ 0xFFFF then
        [UInt8.ofNat (n / 4096 % 16 + 224), UInt8.ofNat (n / 64 % 64 + 128), UInt8.ofNat (n % 64 + 128)]
      else [UInt8.ofNat (n / 262144 % 8 + 240), UInt8.ofNat (n / 4096 % 64 + 128), UInt8.ofNat (n / 64 % 64 + 128),
        UInt8.ofNat (n % 64 + 128)] := by
  have hval : (Char.ofNat n).val.toNat = n := toNat_ofNat h
  simp only [String.utf8EncodeChar, hval]

theorem byte_toNat (h : n < 0x100) : (UInt8.ofNat n).toNat = n := UInt8.toNat_ofNat_of_lt' h

theorem isContinuation_ofNat : isContinuation (UInt8.ofNat (n % 64 + 128)) = true := by
  rw [isContinuation_iff, byte_toNat (by omega)]
  omega

theorem low6_ofNat : low6 (UInt8.ofNat (n % 64 + 128)) = n % 64 := by
  rw [low6, byte_toNat (by omega)]
  omega

theorem first?_utf8EncodeChar (c : Char) (r : Bytes) :
    first? (String.utf8EncodeChar c ++ r) = some (c, c.utf8Size) := by
  obtain ⟨n, hn⟩ : ∃ n, c.toNat = n := ⟨_, rfl⟩
  have hv := toNat_valid c
  obtain rfl : c = Char.ofNat n := by rw [← hn, Char.ofNat_toNat]
  rw [hn] at hv
  rw [utf8EncodeChar_ofNat hv, utf8Size_ofNat hv]
  split_ifs with h1 h2 h3
  · have hb0 : (UInt8.ofNat n).toNat = n := byte_toNat (by omega)
    rw [List.singleton_append, first?_one (by omega), hb0]
  · have hb0 : (UInt8.ofNat (n / 64 % 32 + 192)).toNat = n / 64 % 32 + 192 := byte_toNat (by omega)
    have hnum : (n / 64 % 32 + 192) % 32 * 64 + n % 64 = n := by omega
    rw [List.cons_append, List.singleton_append, first?_two (by omega) isContinuation_ofNat, hb0, low6_ofNat, hnum]
  · have hb0 : (UInt8.ofNat (n / 4096 % 16 + 224)).toNat = n / 4096 % 16 + 224 := byte_toNat (by omega)
    have hb1 : (UInt8.ofNat (n / 64 % 64 + 128)).toNat = n / 64 % 64 + 128 := byte_toNat (by omega)
    have hsecond : secondInRange (UInt8.ofNat (n / 4096 % 16 + 224)) (UInt8.ofNat (n / 64 % 64 + 128)) = true := by
      rw [secondInRange_iff, hb0, hb1]
      constructor <;> split_ifs <;> omega
    have hnum : ((n / 4096 % 16 + 224) % 16 * 64 + n / 64 % 64) * 64 + n % 64 = n := by omega
    rw [List.cons_append, List.cons_append, List.singleton_append,
      first?_three (by omega) hsecond isContinuation_ofNat, hb0, low6_ofNat, low6_ofNat, hnum]
  · have hb0 : (UInt8.ofNat (n / 262144 % 8 + 240)).toNat = n / 262144 % 8 + 240 := byte_toNat (by omega)
    have hb1 : (UInt8.ofNat (n / 4096 % 64 + 128)).toNat = n / 4096 % 64 + 128 := byte_toNat (by omega)
    have hsecond : secondInRange (UInt8.ofNat (n / 262144 % 8 + 240)) (UInt8.ofNat (n / 4096 % 64 + 128)) = true := by
      rw [secondInRange_iff, hb0, hb1]
      constructor <;> split_ifs <;> omega
    have hnum : (((n / 262144 % 8 + 240) % 8 * 64 + n / 4096 % 64) * 64 + n / 64 % 64) * 64 + n % 64 = n := by omega
    rw [List.cons_append, List.cons_append, List.cons_append, List.singleton_append,
      first?_four (by omega) hsecond isContinuation_ofNat isContinuation_ofNat, hb0, low6_ofNat, low6_ofNat, low6_ofNat,
      hnum]

theorem ofNat_eq_byte {b : UInt8} (h : n = b.toNat) : UInt8.ofNat n = b := by rw [h, UInt8.ofNat_toNat]

theorem utf8EncodeChar_of_first? {bs : Bytes} {c : Char} {w : Nat} (h : first? bs = some (c, w)) :
    bs = String.utf8EncodeChar c ++ bs.drop w := by
  unfold first? at h
  split at h
  · cases h
  rename_i b0 r
  simp only [UInt8.lt_iff_toNat_lt, UInt8.reduceToNat, Bool.or_eq_true, decide_eq_true_eq] at h
  split_ifs at h with h1 h2 h3 h4
  · cases h
    rw [utf8EncodeChar_ofNat (by omega), if_pos (by omega), UInt8.ofNat_toNat]
    rfl
  · split at h
    · rename_i b1 t
      split_ifs at h with hb1
      rw [isContinuation_iff] at hb1
      cases h
      simp only [low6]
      rw [utf8EncodeChar_ofNat (by omega), if_neg (by omega), if_pos (by omega), ofNat_eq_byte (b := b0) (by omega),
        ofNat_eq_byte (b := b1) (by omega)]
      rfl
    · cases h
  · split at h
    · rename_i b1 b2 t
      split_ifs at h with hb
      rw [Bool.and_eq_true, secondInRange_iff, isContinuation_iff] at hb
      obtain ⟨hb1, hb2⟩ := hb
      have hmin : 0x80 ≤ b1.toNat ∧ b1.toNat ≤ 0xBF := by split_ifs at hb1 <;> omega
      have hover : 32 ≤ b0.toNat % 16 * 64 + b1.toNat % 64 := by split_ifs at hb1 <;> omega
      have hsurrogate : b0.toNat % 16 * 64 + b1.toNat % 64 < 0x360 ∨ 0x37F < b0.toNat % 16 * 64 + b1.toNat % 64 := by
        split_ifs at hb1 <;> omega
      cases h
      simp only [low6]
      rw [utf8EncodeChar_ofNat (by omega), if_neg (by omega), if_neg (by omega), if_pos (by omega),
        ofNat_eq_byte (b := b0) (by omega), ofNat_eq_byte (b := b1) (by omega), ofNat_eq_byte (b := b2) (by omega)]
      rfl
    · cases h
  · split at h
    · rename_i b1 b2 b3 t
      split_ifs at h with hb
      rw [Bool.and_eq_true, Bool.and_eq_true, secondInRange_iff, isContinuation_iff, isContinuation_iff] at hb
      obtain ⟨⟨hb1, hb2⟩, hb3⟩ := hb
      have hmin : 0x80 ≤ b1.toNat ∧ b1.toNat ≤ 0xBF := by split_ifs at hb1 <;> omega
      have hrange : 16 ≤ b0.toNat % 8 * 64 + b1.toNat % 64 ∧ b0.toNat % 8 * 64 + b1.toNat % 64 < 0x110 := by
        split_ifs at hb1 <;> omega
      cases h
      simp only [low6]
      rw [utf8EncodeChar_ofNat (by omega), if_neg (by omega), if_neg (by omega), if_neg (by omega),
        ofNat_eq_byte (b := b0) (by omega), ofNat_eq_byte (b := b1) (by omega), ofNat_eq_byte (b := b2) (by omega),
        ofNat_eq_byte (b := b3) (by omega)]
      rfl
    · cases h

end Characters

section Units

variable {bs r : Bytes} {acc : List Unit}

theorem unitsAux_acc (n : Nat) (bs : Bytes) (acc : List Unit) : unitsAux n bs acc = acc.reverse ++ unitsAux n bs [] := by
  induction n generalizing bs acc with
  | zero => simp [unitsAux]
  | succ n ih =>
    cases bs with
    | nil => simp [unitsAux]
    | cons b r =>
      simp only [unitsAux]
      split
      · rw [ih _ (_ :: acc), ih _ [_]]
        simp
      · rw [ih _ (_ :: acc), ih _ [_]]
        simp

theorem unitsAux_fuel {n m : Nat} (hn : bs.length ≤ n) (hm : bs.length ≤ m) : unitsAux n bs [] = unitsAux m bs [] := by
  induction n generalizing m bs with
  | zero =>
    obtain rfl := List.length_eq_zero_iff.1 (Nat.le_zero.1 hn)
    cases m <;> rfl
  | succ n ih =>
    cases bs with
    | nil => cases m <;> rfl
    | cons b r =>
      obtain ⟨m, rfl⟩ : ∃ k, m = k + 1 := ⟨m - 1, by rw [List.length_cons] at hm; omega⟩
      simp only [List.length_cons, Nat.add_le_add_iff_right] at hn hm
      simp only [unitsAux]
      split
      · rw [unitsAux_acc n, unitsAux_acc m, ih (m := m) (by rw [List.length_drop]; omega) (by rw [List.length_drop]; omega)]
      · rw [unitsAux_acc n, unitsAux_acc m, ih hn hm]

theorem units_char {c : Char} {w : Nat} (h : first? bs = some (c, w)) (hw : 0 < w) :
    units bs = .char c :: units (bs.drop w) := by
  cases bs with
  | nil => cases h
  | cons b r =>
    obtain ⟨w, rfl⟩ : ∃ k, w = k + 1 := ⟨w - 1, by omega⟩
    rw [units, List.length_cons, unitsAux, h]
    simp only [Nat.add_sub_cancel, List.drop_succ_cons]
    rw [unitsAux_acc, units, unitsAux_fuel (m := (r.drop w).length) (by rw [List.length_drop]; omega) (Nat.le_refl _)]
    rfl

theorem units_bad {b : UInt8} (h : first? (b :: r) = none) : units (b :: r) = .bad b :: units r := by
  rw [units, List.length_cons, unitsAux, h]
  simp only
  rw [unitsAux_acc]
  rfl

theorem units_utf8EncodeChar (c : Char) (r : Bytes) : units (String.utf8EncodeChar c ++ r) = .char c :: units r := by
  rw [units_char (first?_utf8EncodeChar c r) c.utf8Size_pos, ← String.length_utf8EncodeChar, List.drop_left]

theorem valid_of_chars (cs : List Char) : valid (cs.flatMap String.utf8EncodeChar) = true := by
  rw [valid]
  induction cs with
  | nil => rfl
  | cons c cs ih => rw [List.flatMap_cons, units_utf8EncodeChar, List.all_cons, ih]; rfl

theorem chars_of_valid (h : valid bs = true) : ∃ cs : List Char, bs = cs.flatMap String.utf8EncodeChar := by
  induction hn : bs.length using Nat.strongRecOn generalizing bs with
  | ind n ih =>
    cases bs with
    | nil => exact ⟨[], rfl⟩
    | cons b r =>
      rw [valid] at h
      cases hf : first? (b :: r) with
      | none =>
        rw [units_bad hf, List.all_cons] at h
        cases h
      | some cw =>
        obtain ⟨c, w⟩ := cw
        have hbytes := utf8EncodeChar_of_first? hf
        obtain rfl : c.utf8Size = w := by
          have hagain := first?_utf8EncodeChar c ((b :: r).drop w)
          rw [← hbytes, hf] at hagain
          cases hagain
          rfl
        rw [units_char hf c.utf8Size_pos, List.all_cons, Bool.and_eq_true] at h
        have hshort : ((b :: r).drop c.utf8Size).length < n := by
          have := c.utf8Size_pos
          rw [List.length_drop]
          rw [List.length_cons] at hn ⊢
          omega
        obtain ⟨cs, hcs⟩ := ih _ hshort h.2 rfl
        exact ⟨c :: cs, by rw [List.flatMap_cons, ← hcs]; exact hbytes⟩

end Units

theorem ofString_eq (s : String) : Bytes.ofString s = s.toList.flatMap String.utf8EncodeChar := by
  have hs : s.toUTF8 = (s.toList.flatMap String.utf8EncodeChar).toByteArray := by
    rw [← List.utf8Encode, String.utf8Encode_toList]
    rfl
  rw [Bytes.ofString, hs, List.data_toByteArray]

theorem valid_iff {bs : Bytes} : valid bs = true ↔ ∃ s : String, bs = Bytes.ofString s := by
  constructor
  · intro h
    obtain ⟨cs, rfl⟩ := chars_of_valid h
    exact ⟨String.ofList cs, by rw [ofString_eq, String.toList_ofList]⟩
  · rintro ⟨s, rfl⟩
    rw [ofString_eq]
    exact valid_of_chars _

end Flatwire.Utf8
