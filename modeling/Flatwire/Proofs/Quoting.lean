import Flatwire.Proofs.JsonText
import Flatwire.Text.Quoted

/-! Quoted text can be read back. What a character or a bad byte is written as tells which one it is and where it ends,
so the quoted form tells the text, whatever follows it. -/

namespace Flatwire

namespace Utf8

/-- The bytes that are read as this. -/
def Unit.bytes : Unit → Bytes
  | .char c => String.utf8EncodeChar c
  | .bad b => [b]

/-- No byte of ASCII is bad. -/
def Unit.Proper : Unit → Prop
  | .char _ => True
  | .bad b => 0x80 ≤ b.toNat

theorem exists_unit {bs : Bytes} (h : bs ≠ []) :
    ∃ u r, u.Proper ∧ bs = u.bytes ++ r ∧ r.length < bs.length ∧ units bs = u :: units r := by
  cases bs with
  | nil => exact absurd rfl h
  | cons b r =>
    cases hf : first? (b :: r) with
    | none =>
      refine ⟨.bad b, r, Nat.le_of_not_lt fun hlt => ?_, rfl, Nat.lt_succ_self _, units_bad hf⟩
      cases (first?_one hlt).symm.trans hf
    | some cw =>
      obtain ⟨c, w⟩ := cw
      have hbytes := utf8EncodeChar_of_first? hf
      obtain rfl : c.utf8Size = w := by
        have hagain := first?_utf8EncodeChar c ((b :: r).drop w)
        rw [← hbytes, hf] at hagain
        cases hagain
        rfl
      refine ⟨.char c, _, trivial, hbytes, ?_, units_char hf c.utf8Size_pos⟩
      have := c.utf8Size_pos
      rw [List.length_drop, List.length_cons]
      omega

theorem flatMap_units (bs : Bytes) : (units bs).flatMap Unit.bytes = bs ∧ ∀ u ∈ units bs, u.Proper := by
  induction hn : bs.length using Nat.strongRecOn generalizing bs with
  | ind n ih =>
    by_cases h : bs = []
    · subst h
      exact ⟨rfl, fun u hu => absurd hu List.not_mem_nil⟩
    · obtain ⟨u, r, hu, hbs, hlt, hunits⟩ := exists_unit h
      obtain ⟨hbytes, hproper⟩ := ih r.length (hn ▸ hlt) r rfl
      rw [hunits, List.flatMap_cons, hbytes]
      exact ⟨hbs.symm, List.forall_mem_cons.2 ⟨hu, hproper⟩⟩

theorem units_injective {bs cs : Bytes} (h : units bs = units cs) : bs = cs := by
  rw [← (flatMap_units bs).1, h, (flatMap_units cs).1]

end Utf8

namespace Bytes

/-- The number that hexadecimal digits stand for. -/
def hexNumber (ds : Bytes) : Nat := ds.foldl (fun n b => n * 16 + (Json.hexValue? b).getD 0) 0

theorem hexNumber_radix (n : Nat) : hexNumber (radix 16 n) = n := by
  induction n using Nat.strongRecOn with
  | ind n ih =>
    by_cases h : n < 16
    · rw [radix_of_lt h]
      simp [hexNumber, Json.hexValue?_digit h]
    · have hlast : hexNumber (radix 16 (n / 16) ++ [digit (n % 16)]) = n / 16 * 16 + n % 16 := by
        rw [hexNumber, List.foldl_append, ← hexNumber, ih (n / 16) (by omega)]
        simp [Json.hexValue?_digit (Nat.mod_lt n (by decide : 0 < 16))]
      rw [radix_of_le (by decide) (Nat.le_of_not_lt h), hlast, Nat.div_add_mod']

theorem length_radix_le {base n k : Nat} (hbase : 2 ≤ base) (h : n < Nat.pow base (k + 1)) :
    (radix base n).length ≤ k + 1 := by
  induction k generalizing n with
  | zero =>
    rw [radix_of_lt (by simpa [Nat.pow] using h)]
    exact Nat.le_refl 1
  | succ k ih =>
    by_cases hlt : n < base
    · rw [radix_of_lt hlt]
      exact Nat.succ_le_succ (Nat.zero_le _)
    · have hpow : Nat.pow base (k + 1 + 1) = base * Nat.pow base (k + 1) := Nat.mul_comm _ _
      have hdiv : n / base < Nat.pow base (k + 1) := Nat.div_lt_of_lt_mul (hpow ▸ h)
      rw [radix_of_le hbase (Nat.le_of_not_lt hlt), List.length_append]
      exact Nat.succ_le_succ (ih hdiv)

end Bytes

namespace Text

open Utf8

theorem hexNumber_hexPad (k v : Nat) : Bytes.hexNumber (hexPad k v) = v := by
  have hzeros : ∀ n, (List.replicate n (48 : UInt8)).foldl (fun n b => n * 16 + (Json.hexValue? b).getD 0) 0 = 0 := by
    intro n
    induction n with
    | zero => rfl
    | succ n ih => exact ih
  rw [hexPad, Bytes.padLeft, Bytes.hexNumber, List.foldl_append, hzeros]
  exact Bytes.hexNumber_radix v

theorem length_hexPad {k v : Nat} (h : v < Nat.pow 16 (k + 1)) : (hexPad (k + 1) v).length = k + 1 := by
  have hle := Bytes.length_radix_le (by decide) h
  rw [hexPad, Bytes.padLeft, List.length_append, List.length_replicate]
  omega

/-- The character that a letter behind a backslash stands for. -/
def unescape : UInt8 → Char
  | 0x61 => Char.ofNat 7
  | 0x62 => Char.ofNat 8
  | 0x74 => Char.ofNat 9
  | 0x6E => Char.ofNat 10
  | 0x76 => Char.ofNat 11
  | 0x66 => Char.ofNat 12
  | 0x72 => Char.ofNat 13
  | b => Char.ofNat b.toNat

/-- The character or bad byte that comes first in a quoted text, and the rest. -/
def unquoteUnit? : Bytes → Option (Utf8.Unit × Bytes)
  | 0x5C :: 0x78 :: r =>
    let n := Bytes.hexNumber (r.take 2)
    some (if n < 0x80 then .char (Char.ofNat n) else .bad (UInt8.ofNat n), r.drop 2)
  | 0x5C :: 0x75 :: r => some (.char (Char.ofNat (Bytes.hexNumber (r.take 4))), r.drop 4)
  | 0x5C :: 0x55 :: r => some (.char (Char.ofNat (Bytes.hexNumber (r.take 8))), r.drop 8)
  | 0x5C :: b :: r => some (.char (unescape b), r)
  | bs => (first? bs).map fun x => (.char x.1, bs.drop x.2)

variable {r r' : Bytes} {n : Nat}

theorem unquoteUnit?_plain {bs : Bytes} (h : bs.head? ≠ some 0x5C) :
    unquoteUnit? bs = (first? bs).map fun x => (.char x.1, bs.drop x.2) := by
  unfold unquoteUnit?
  split
  case h_5 => rfl
  all_goals exact absurd rfl h

theorem unquoteUnit?_byte (h : n < 0x100) : unquoteUnit? (quoteByte (UInt8.ofNat n) ++ r) =
    some (if n < 0x80 then .char (Char.ofNat n) else .bad (UInt8.ofNat n), r) := by
  have hlength : (hexPad 2 n).length = 2 := length_hexPad h
  rw [quoteByte, byte_toNat h]
  change unquoteUnit? (0x5C :: 0x78 :: (hexPad 2 n ++ r)) = _
  rw [unquoteUnit?, List.take_left' hlength, List.drop_left' hlength, hexNumber_hexPad]

theorem unquoteUnit?_number (h : n < 0x110000) :
    unquoteUnit? ((if n < 0x10000 then "\\u" ++ hexPad 4 n else "\\U" ++ hexPad 8 n) ++ r) =
      some (.char (Char.ofNat n), r) := by
  split_ifs with hsmall
  · have hlength : (hexPad 4 n).length = 4 := length_hexPad hsmall
    change unquoteUnit? (0x5C :: 0x75 :: (hexPad 4 n ++ r)) = _
    rw [unquoteUnit?, List.take_left' hlength, List.drop_left' hlength, hexNumber_hexPad]
  · have hlength : (hexPad 8 n).length = 8 := length_hexPad (Nat.lt_trans h (by decide))
    change unquoteUnit? (0x5C :: 0x55 :: (hexPad 8 n ++ r)) = _
    rw [unquoteUnit?, List.take_left' hlength, List.drop_left' hlength, hexNumber_hexPad]

theorem unquoteUnit?_quoteChar (c : Char) : unquoteUnit? (quoteChar c ++ r) = some (.char c, r) := by
  have hofNat : ∀ n, c.toNat = n → c = Char.ofNat n := fun n hn => by rw [← hn, Char.ofNat_toNat]
  unfold quoteChar
  split_ifs with hquote hslash hprintable
  · rw [hquote]
    rfl
  · rw [hslash]
    rfl
  · have hbytes : Bytes.ofString (String.singleton c) = String.utf8EncodeChar c := by
      rw [Utf8.ofString_eq, String.toList_singleton, List.flatMap_singleton]
    have hfirst := first?_utf8EncodeChar c r
    rw [hbytes, unquoteUnit?_plain, hfirst, Option.map_some, ← String.length_utf8EncodeChar, List.drop_left]
    -- a character that begins with the byte of the backslash is the backslash
    intro hhead
    obtain ⟨bs, hbs⟩ := List.head?_eq_some_iff.1 hhead
    rw [hbs, first?_one (by decide)] at hfirst
    exact hslash (congrArg Prod.fst (Option.some.inj hfirst)).symm
  · split
    case h_8 =>
      have hchar := hofNat c.toNat rfl
      have hlt : c.toNat < 0x110000 := by
        have := toNat_valid c
        omega
      generalize c.toNat = n at hchar hlt
      subst hchar
      split_ifs with hlow hsmall
      · have hn : n < 0x80 := by
          simp only [Bool.or_eq_true, decide_eq_true_eq] at hlow
          omega
        rw [unquoteUnit?_byte (by omega), if_pos hn]
      · rw [← unquoteUnit?_number (r := r) hlt, if_pos hsmall]
      · rw [← unquoteUnit?_number (r := r) hlt, if_neg hsmall]
    all_goals
      rename_i heq
      rw [hofNat _ heq]
      rfl

theorem unquoteUnit?_quoteUnit {u : Utf8.Unit} (h : u.Proper) : unquoteUnit? (quoteUnit u ++ r) = some (u, r) := by
  cases u with
  | char c => exact unquoteUnit?_quoteChar c
  | bad b =>
    have hlow : ¬ b.toNat < 0x80 := Nat.not_lt.2 h
    have hbyte := unquoteUnit?_byte (r := r) b.toNat_lt
    rw [UInt8.ofNat_toNat, if_neg hlow] at hbyte
    exact hbyte

theorem quoteUnit_ne_quote {u : Utf8.Unit} (h : u.Proper) : quoteUnit u ++ r ≠ 0x22 :: r' := by
  intro heq
  have hread := unquoteUnit?_quoteUnit (r := r) h
  rw [heq, unquoteUnit?_plain (by simp), first?_one (by decide)] at hread
  cases hread
  cases (List.cons.inj heq).1

theorem flatMap_quoteUnit_inj {us vs : List Utf8.Unit} (hu : ∀ u ∈ us, u.Proper) (hv : ∀ v ∈ vs, v.Proper)
    (h : us.flatMap quoteUnit ++ 0x22 :: r = vs.flatMap quoteUnit ++ 0x22 :: r') : us = vs ∧ r = r' := by
  induction us generalizing vs with
  | nil =>
    cases vs with
    | nil => exact ⟨rfl, (List.cons.inj h).2⟩
    | cons v vs =>
      rw [List.flatMap_cons, List.append_assoc] at h
      exact absurd h.symm (quoteUnit_ne_quote (hv v List.mem_cons_self))
  | cons u us ih =>
    rw [List.flatMap_cons, List.append_assoc] at h
    cases vs with
    | nil => exact absurd h (quoteUnit_ne_quote (hu u List.mem_cons_self))
    | cons v vs =>
      rw [List.flatMap_cons, List.append_assoc] at h
      have hread := unquoteUnit?_quoteUnit (r := us.flatMap quoteUnit ++ 0x22 :: r) (hu u List.mem_cons_self)
      rw [h, unquoteUnit?_quoteUnit (hv v List.mem_cons_self)] at hread
      obtain ⟨rfl, hrest⟩ := Prod.mk.inj (Option.some.inj hread)
      obtain ⟨rfl, rfl⟩ := ih (List.forall_mem_cons.1 hu).2 (List.forall_mem_cons.1 hv).2 hrest.symm
      exact ⟨rfl, rfl⟩

theorem quote_append_inj {bs cs : Bytes} (h : quote bs ++ r = quote cs ++ r') : bs = cs ∧ r = r' := by
  simp only [quote, List.append_assoc] at h
  obtain ⟨hunits, hrest⟩ := flatMap_quoteUnit_inj (flatMap_units bs).2 (flatMap_units cs).2 (List.append_cancel_left h)
  exact ⟨units_injective hunits, hrest⟩

end Text

end Flatwire
