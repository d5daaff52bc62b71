import Mathlib.Data.List.Basic
import Flatwire.Json.Read
import Flatwire.Proofs.Utf8

/-! JSON text. A document of valid texts and whole numbers is read back from its compact text, and whatever is read has
valid texts only. -/

namespace Flatwire

/-! ### Digits -/

namespace Bytes

theorem radixAux_acc (base fuel n : Nat) (acc : Bytes) : radixAux base fuel n acc = radixAux base fuel n [] ++ acc := by
  induction fuel generalizing n acc with
  | zero => rfl
  | succ fuel ih =>
    simp only [radixAux]
    split
    · rfl
    · rw [ih _ (_ :: acc), ih _ [_]]
      simp

theorem radixAux_fuel {base n m k : Nat} (hbase : 2 ≤ base) (hm : n < m) (hk : n < k) (acc : Bytes) :
    radixAux base m n acc = radixAux base k n acc := by
  induction m generalizing n k acc with
  | zero => omega
  | succ m ih =>
    obtain ⟨k, rfl⟩ : ∃ j, k = j + 1 := ⟨k - 1, by omega⟩
    simp only [radixAux]
    split
    · rfl
    · have hlt : n / base < n := Nat.div_lt_self (by omega) hbase
      exact ih (by omega) (by omega) _

theorem radix_of_lt {base n : Nat} (h : n < base) : radix base n = [digit n] := by
  rw [radix, radixAux, if_pos h]

theorem radix_of_le {base n : Nat} (hbase : 2 ≤ base) (h : base ≤ n) :
    radix base n = radix base (n / base) ++ [digit (n % base)] := by
  have hlt : n / base < n := Nat.div_lt_self (by omega) hbase
  rw [radix, radixAux, if_neg (Nat.not_lt.2 h), radixAux_acc, radix, radixAux_fuel hbase hlt (Nat.lt_succ_self _)]

theorem decimal_of_lt {n : Nat} (h : n < 10) : decimal n = [digit n] := radix_of_lt h

theorem decimal_of_le {n : Nat} (h : 10 ≤ n) : decimal n = decimal (n / 10) ++ [digit (n % 10)] :=
  radix_of_le (by decide) h

theorem padLeft_radix {n : Nat} (h : n < 0x10000) : padLeft 48 4 (radix 16 n) =
    [digit (n / 4096), digit (n / 256 % 16), digit (n / 16 % 16), digit (n % 16)] := by
  have hzero : digit 0 = 48 := rfl
  by_cases h1 : n < 16
  · rw [radix_of_lt h1, show n / 4096 = 0 by omega, show n / 256 % 16 = 0 by omega, show n / 16 % 16 = 0 by omega,
      Nat.mod_eq_of_lt h1, hzero]
    rfl
  rw [radix_of_le (by decide) (by omega)]
  by_cases h2 : n < 256
  · rw [radix_of_lt (by omega), show n / 4096 = 0 by omega, show n / 256 % 16 = 0 by omega,
      show n / 16 % 16 = n / 16 by omega, hzero]
    rfl
  rw [radix_of_le (by decide) (by omega), Nat.div_div_eq_div_mul]
  by_cases h3 : n < 4096
  · rw [radix_of_lt (by omega), show n / 4096 = 0 by omega, show n / 256 % 16 = n / 256 by omega, hzero]
    rfl
  · rw [radix_of_le (by decide) (by omega), Nat.div_div_eq_div_mul, radix_of_lt (by omega)]
    rfl

theorem digit_spec {d : Nat} (h : d < 10) : Json.isDecimal (digit d) = true ∧ (digit d).toNat - 0x30 = d ∧
    (digit d = 0x30 → d = 0) := by
  have hall : ∀ d : Fin 10, Json.isDecimal (digit d) = true ∧ (digit d).toNat - 0x30 = d ∧
      (digit d = 0x30 → (d : Nat) = 0) := by decide
  exact hall ⟨d, h⟩

theorem isDecimal_of_mem {n : Nat} : ∀ b ∈ decimal n, Json.isDecimal b = true := by
  induction n using Nat.strongRecOn with
  | ind n ih =>
    by_cases h : n < 10
    · rw [decimal_of_lt h]
      simpa using (digit_spec h).1
    · rw [decimal_of_le (by omega)]
      intro b hb
      rcases List.mem_append.1 hb with hb | hb
      · exact ih (n / 10) (by omega) b hb
      · rw [List.mem_singleton.1 hb]
        exact (digit_spec (Nat.mod_lt n (by decide))).1

theorem decimal_head (n : Nat) : ∃ d r, decimal n = d :: r ∧ (d = 0x30 → n = 0) := by
  induction n using Nat.strongRecOn with
  | ind n ih =>
    by_cases h : n < 10
    · exact ⟨digit n, [], decimal_of_lt h, (digit_spec h).2.2⟩
    · obtain ⟨d, r, hdecimal, hzero⟩ := ih (n / 10) (by omega)
      refine ⟨d, r ++ [digit (n % 10)], ?_, fun hd => ?_⟩
      · rw [decimal_of_le (by omega), hdecimal]
        rfl
      · have := hzero hd
        omega

theorem decimal_value (n : Nat) : (decimal n).foldl (fun n b => n * 10 + (b.toNat - 0x30)) 0 = n := by
  induction n using Nat.strongRecOn with
  | ind n ih =>
    by_cases h : n < 10
    · rw [decimal_of_lt h]
      simpa using (digit_spec h).2.1
    · rw [decimal_of_le (by omega), List.foldl_append, ih (n / 10) (by omega)]
      simp only [List.foldl_cons, List.foldl_nil, (digit_spec (Nat.mod_lt n (by decide))).2.1]
      omega

end Bytes

/-! ### Numbers -/

namespace Json

/-- No number goes on with these bytes. -/
def EndsNumber (rest : Bytes) : Prop := ∀ b ∈ rest.head?, isDecimal b = false ∧ b ≠ 0x2E ∧ b ≠ 0x65 ∧ b ≠ 0x45

section Numbers

variable {rest : Bytes}

theorem digits?_append {ds : Bytes} (hds : ∀ b ∈ ds, isDecimal b = true) (hne : ds ≠ [])
    (hrest : ∀ b ∈ rest.head?, isDecimal b = false) : digits? (ds ++ rest) = some (ds, rest) := by
  have htake : (ds ++ rest).takeWhile isDecimal = ds := by
    rw [List.takeWhile_append_of_pos hds]
    cases rest with
    | nil => exact List.append_nil ds
    | cons b r => rw [List.takeWhile_cons_of_neg (by simp [hrest b rfl]), List.append_nil]
  rw [digits?, htake, List.drop_left]
  simp [hne]

theorem fraction?_rest (h : EndsNumber rest) : fraction? rest = some ([], rest) := by
  unfold fraction?
  split
  · exact absurd rfl (h _ rfl).2.1
  · rfl

theorem exponent?_rest (h : EndsNumber rest) : exponent? rest = some ([], rest) := by
  cases rest with
  | nil => rfl
  | cons b r =>
    obtain ⟨-, -, hlower, hupper⟩ := h b rfl
    simp [exponent?, hlower, hupper]

theorem number?_decimal (n : Nat) (h : EndsNumber rest) :
    number? (Bytes.decimal n ++ rest) = some (Bytes.decimal n, rest) := by
  obtain ⟨d, r, hdecimal, hzero⟩ := Bytes.decimal_head n
  have hd : isDecimal d = true := Bytes.isDecimal_of_mem d (hdecimal ▸ List.mem_cons_self)
  have hwhole : whole? (Bytes.decimal n ++ rest) = some (Bytes.decimal n, rest) := by
    by_cases h0 : d = 0x30
    · rw [hzero h0]
      rfl
    · have hdigits := digits?_append (Bytes.isDecimal_of_mem (n := n)) (by simp [hdecimal]) fun b hb => (h b hb).1
      rw [hdecimal, List.cons_append] at hdigits ⊢
      rw [whole?, hdigits]
      simpa using h0
  have hunsigned : unsigned? (Bytes.decimal n ++ rest) = some (Bytes.decimal n, rest) := by
    simp [unsigned?, hwhole, fraction?_rest h, exponent?_rest h]
  rw [hdecimal, List.cons_append] at hunsigned ⊢
  rw [number?, hunsigned]
  rintro _ heq
  cases heq
  cases hd

theorem natOfDigits?_decimal (n : Nat) : natOfDigits? (Bytes.decimal n) = some n := by
  obtain ⟨d, r, hdecimal, -⟩ := Bytes.decimal_head n
  have hall : (Bytes.decimal n).all isDecimal = true := List.all_eq_true.2 Bytes.isDecimal_of_mem
  rw [natOfDigits?, hall, Bytes.decimal_value, hdecimal]
  rfl

end Numbers

/-! ### Texts -/

section Texts

variable {r : Bytes}

/-- A piece in front of those of the rest. -/
def behind (ps : List Piece) (x : List Piece × Bytes) : List Piece × Bytes := (ps ++ x.1, x.2)

theorem stringPieces_plain {b : UInt8} (h : 0x20 ≤ b.toNat) (hquote : b ≠ 0x22) (hslash : b ≠ 0x5C) :
    stringPieces (b :: r) = (stringPieces r).map (behind [.byte b]) := by
  have hlow : ¬ b < 0x20 := by
    rw [UInt8.lt_iff_toNat_lt]
    exact Nat.not_lt.2 h
  rw [stringPieces, if_neg (by simp [hlow, hslash])]
  · rfl
  · exact hquote
  · exact fun _ _ _ _ _ hb _ => hslash hb
  · exact fun _ _ hb _ => hslash hb

theorem joinPieces_escaped {n : Nat} (h : n < 0xD800) (ps : List Piece) :
    joinPieces (.escaped n :: ps) = encodeChar n ++ joinPieces ps := by
  have hsurrogate : isSurrogate n = false := by
    simp only [isSurrogate, Bool.and_eq_false_iff, decide_eq_false_iff_not]
    omega
  cases ps with
  | nil => simp [joinPieces, hsurrogate]
  | cons p ps =>
    cases p with
    | byte b => simp [joinPieces, hsurrogate]
    | escaped lo =>
      have hpair : joinSurrogates? n lo = none := by
        rw [joinSurrogates?, if_neg]
        simp only [Bool.and_eq_true, decide_eq_true_eq]
        omega
      simp [joinPieces, hpair, hsurrogate]

theorem joinPieces_bytes (bs : Bytes) (ps : List Piece) : joinPieces (bs.map .byte ++ ps) = bs ++ joinPieces ps := by
  induction bs with
  | nil => rfl
  | cons b bs ih => rw [List.map_cons, List.cons_append, joinPieces, ih, List.cons_append]

/-- The reader takes the text apart into pieces that stand for the bytes. -/
def Spells (text bytes : Bytes) : Prop :=
  ∃ ps, (∀ r, stringPieces (text ++ r) = (stringPieces r).map (behind ps)) ∧
    ∀ qs, joinPieces (ps ++ qs) = bytes ++ joinPieces qs

theorem Spells.append {s t bs cs : Bytes} (h : Spells s bs) (h' : Spells t cs) : Spells (s ++ t) (bs ++ cs) := by
  obtain ⟨ps, hpieces, hjoin⟩ := h
  obtain ⟨qs, hpieces', hjoin'⟩ := h'
  refine ⟨ps ++ qs, fun r => ?_, fun us => ?_⟩
  · rw [List.append_assoc, hpieces, hpieces', Option.map_map]
    congr 1
    funext x
    simp [behind]
  · rw [List.append_assoc, hjoin, hjoin', List.append_assoc]

theorem spells_plain {bs : Bytes} (h : ∀ b ∈ bs, 0x20 ≤ b.toNat ∧ b ≠ 0x22 ∧ b ≠ 0x5C) : Spells bs bs := by
  refine ⟨bs.map .byte, fun r => ?_, joinPieces_bytes bs⟩
  induction bs with
  | nil =>
    change _ = Option.map id _
    rw [Option.map_id, id]
    rfl
  | cons b bs ih =>
    obtain ⟨hlow, hquote, hslash⟩ := h b List.mem_cons_self
    rw [List.cons_append, stringPieces_plain hlow hquote hslash, ih fun c hc => h c (List.mem_cons_of_mem b hc),
      Option.map_map]
    rfl

theorem hexValue?_digit {d : Nat} (h : d < 16) : hexValue? (Bytes.digit d) = some d := by
  have hall : ∀ d : Fin 16, hexValue? (Bytes.digit d) = some d.val := by decide
  exact hall ⟨d, h⟩

theorem spells_unicodeEscape {n : Nat} (h : n < 0xD800) : Spells (unicodeEscape n) (encodeChar n) := by
  have hhex : hex4? (Bytes.digit (n / 4096)) (Bytes.digit (n / 256 % 16)) (Bytes.digit (n / 16 % 16))
      (Bytes.digit (n % 16)) = some n := by
    rw [hex4?, hexValue?_digit (by omega), hexValue?_digit (by omega), hexValue?_digit (by omega),
      hexValue?_digit (by omega)]
    refine congrArg some ?_
    omega
  refine ⟨[.escaped n], fun r => ?_, joinPieces_escaped h⟩
  rw [unicodeEscape, Bytes.padLeft_radix (by omega)]
  change stringPieces (0x5C :: 0x75 :: _ :: _ :: _ :: _ :: r) = _
  rw [stringPieces, hhex]
  rfl

theorem utf8EncodeChar_bytes {c : Char} {b : UInt8} (hb : b ∈ String.utf8EncodeChar c) :
    0x80 ≤ b.toNat ∨ b.toNat = c.toNat ∧ c.toNat < 0x80 := by
  obtain ⟨n, hn⟩ : ∃ n, c.toNat = n := ⟨_, rfl⟩
  have hv := Utf8.toNat_valid c
  obtain rfl : c = Char.ofNat n := by rw [← hn, Char.ofNat_toNat]
  rw [hn] at hv
  rw [Utf8.utf8EncodeChar_ofNat hv] at hb
  rw [hn]
  split_ifs at hb with h1 h2 h3
  · rw [List.mem_singleton.1 hb, Utf8.byte_toNat (by omega)]
    omega
  all_goals
    left
    simp only [List.mem_cons, List.not_mem_nil, or_false] at hb
    rcases hb with rfl | rfl | rfl | rfl <;> rw [Utf8.byte_toNat (by omega)] <;> omega

theorem encodeChar_toNat (c : Char) : encodeChar c.toNat = String.utf8EncodeChar c := by
  rw [encodeChar, Char.ofNat_toNat, Utf8.ofString_eq, String.toList_singleton, List.flatMap_singleton]

theorem spells_escapeChar (c : Char) : Spells (escapeChar c) (String.utf8EncodeChar c) := by
  have hshort : ∀ e b : UInt8, (∀ r, stringPieces (0x5C :: e :: r) = (stringPieces r).map (behind [.byte b])) →
      encodeChar c.toNat = [b] → Spells [0x5C, e] (String.utf8EncodeChar c) := by
    intro e b hpieces hb
    rw [← encodeChar_toNat, hb]
    exact ⟨[.byte b], hpieces, joinPieces_bytes [b]⟩
  unfold escapeChar
  split
  case h_8 =>
    rename_i hquote hslash _ _ _ _ _
    split_ifs with hescaped
    · rw [← encodeChar_toNat]
      apply spells_unicodeEscape
      simp only [Bool.or_eq_true, decide_eq_true_eq] at hescaped
      omega
    · rw [Utf8.ofString_eq, String.toList_singleton, List.flatMap_singleton]
      refine spells_plain fun b hb => ?_
      simp only [Bool.or_eq_true, decide_eq_true_eq] at hescaped
      have hbyte := utf8EncodeChar_bytes hb
      refine ⟨by omega, ?_, ?_⟩
      · rintro rfl
        rcases hbyte with hhigh | ⟨heq, -⟩
        · exact absurd hhigh (by decide)
        · exact hquote heq.symm
      · rintro rfl
        rcases hbyte with hhigh | ⟨heq, -⟩
        · exact absurd hhigh (by decide)
        · exact hslash heq.symm
  all_goals
    rename_i hc
    exact hshort _ _ (fun r => rfl) (by rw [hc]; decide)

theorem units_chars (cs : List Char) : Utf8.units (cs.flatMap String.utf8EncodeChar) = cs.map .char := by
  induction cs with
  | nil => rfl
  | cons c cs ih => rw [List.flatMap_cons, Utf8.units_utf8EncodeChar, ih, List.map_cons]

theorem repaired_eq (bs : Bytes) :
    repaired bs = ((Utf8.units bs).map Utf8.Unit.toChar).flatMap String.utf8EncodeChar := by
  rw [repaired, List.flatMap_map]
  congr 1
  funext u
  rw [Utf8.ofString_eq, String.toList_singleton, List.flatMap_singleton]

theorem valid_repaired (bs : Bytes) : Utf8.valid (repaired bs) = true := by
  rw [repaired_eq]
  exact Utf8.valid_of_chars _

theorem repaired_of_valid {bs : Bytes} (h : Utf8.valid bs = true) : repaired bs = bs := by
  obtain ⟨cs, rfl⟩ := Utf8.chars_of_valid h
  rw [repaired_eq, units_chars, List.map_map]
  exact congrArg (List.flatMap String.utf8EncodeChar) (List.map_id cs)

theorem string?_printString {t : Bytes} (h : Utf8.valid t = true) (r : Bytes) :
    ∃ body, printString t ++ r = 0x22 :: body ∧ string? body = some (t, r) := by
  obtain ⟨cs, rfl⟩ := Utf8.chars_of_valid h
  have hspells : Spells (cs.flatMap escapeChar) (cs.flatMap String.utf8EncodeChar) := by
    clear h
    induction cs with
    | nil => exact spells_plain (by simp)
    | cons c cs ih => exact (spells_escapeChar c).append ih
  obtain ⟨ps, hpieces, hjoin⟩ := hspells
  refine ⟨cs.flatMap escapeChar ++ 0x22 :: r, ?_, ?_⟩
  · rw [printString, units_chars, List.flatMap_map, List.append_assoc, List.append_assoc]
    rfl
  · have hjoined : joinPieces ps = cs.flatMap String.utf8EncodeChar := by
      simpa [joinPieces] using hjoin []
    rw [string?, hpieces]
    simp only [stringPieces, Option.map_some, behind, List.append_nil, hjoined, repaired_of_valid h]

end Texts

/-! ### Documents -/

/-- Documents of valid texts and whole numbers, with lists and objects nested at most so deep. -/
inductive Plain : Nat → Json → Prop where
  | null {d} : Plain d .null
  | bool {d b} : Plain d (.bool b)
  | nat {d} (n) : Plain d (.nat n)
  | str {d t} : Utf8.valid t = true → Plain d (.str t)
  | arr {d xs} : (∀ x ∈ xs, Plain d x) → Plain (d + 1) (.arr xs)
  | obj {d ms} : (∀ m ∈ ms, Utf8.valid m.1 = true) → (∀ m ∈ ms, Plain d m.2) → Plain (d + 1) (.obj ms)

variable {fuel depth d : Nat} {b : UInt8} {r : Bytes} {j : Json} {xs : List Json} {ms : List (Bytes × Json)}

theorem skipBlanks_cons (h : isBlank b = false) : skipBlanks (b :: r) = b :: r :=
  List.dropWhile_cons_of_neg (by simp [h])

theorem endsNumber_cons (h : b ∈ [0x2C, 0x5D, 0x7D]) : EndsNumber (b :: r) := by
  intro c hc
  cases hc
  simp only [List.mem_cons, List.not_mem_nil, or_false] at h
  rcases h with rfl | rfl | rfl <;> decide

theorem isBlank_of_isDecimal (h : isDecimal b = true) : isBlank b = false ∧
    b ∉ [0x22, 0x5B, 0x5D, 0x7B, 0x74, 0x66, 0x6E] := by
  have hall : ∀ n : Fin 256, isDecimal (.ofFin n) = true → isBlank (.ofFin n) = false ∧
      UInt8.ofFin n ∉ [0x22, 0x5B, 0x5D, 0x7B, 0x74, 0x66, 0x6E] := by decide +kernel
  exact hall b.toFin h

theorem print_head (h : Plain d j) : ∃ b r, j.print = b :: r ∧ isBlank b = false ∧ b ≠ 0x5D := by
  cases h with
  | null => exact ⟨_, _, rfl, by decide, by decide⟩
  | @bool _ b => cases b <;> exact ⟨_, _, rfl, by decide, by decide⟩
  | nat n =>
    obtain ⟨b, r, hdecimal, -⟩ := Bytes.decimal_head n
    have hb := isBlank_of_isDecimal (Bytes.isDecimal_of_mem b (hdecimal ▸ List.mem_cons_self))
    exact ⟨b, r, hdecimal, hb.1, by simpa using fun heq => hb.2 (by simp [heq])⟩
  | str ht => exact ⟨_, _, rfl, by decide, by decide⟩
  | arr hxs => exact ⟨_, _, rfl, by decide, by decide⟩
  | obj hkeys hms => exact ⟨_, _, rfl, by decide, by decide⟩

/-- The reader takes the document and stops behind it. -/
def ReadsBack (depth : Nat) (j : Json) : Prop :=
  ∀ fuel rest, 2 * j.print.length ≤ fuel → EndsNumber rest → value? fuel depth (j.print ++ rest) = some (j, rest)

theorem items?_printItems (hne : xs ≠ []) (hxs : ∀ x ∈ xs, ReadsBack depth x)
    (hfuel : 2 * (printItems xs).length + 1 ≤ fuel) (rest : Bytes) :
    items? fuel depth (printItems xs ++ 0x5D :: rest) = some (xs, rest) := by
  induction xs generalizing fuel with
  | nil => exact absurd rfl hne
  | cons x xs ih =>
    obtain ⟨fuel, rfl⟩ : ∃ n, fuel = n + 1 := ⟨fuel - 1, by omega⟩
    have hx := hxs x List.mem_cons_self
    cases xs with
    | nil =>
      rw [printItems] at hfuel ⊢
      rw [items?, hx fuel _ (by omega) (endsNumber_cons (by simp))]
      rfl
    | cons y ys =>
      rw [printItems] at hfuel ⊢
      have hcomma : x.print ++ "," ++ printItems (y :: ys) ++ 0x5D :: rest =
          x.print ++ 0x2C :: (printItems (y :: ys) ++ 0x5D :: rest) := by
        rw [List.append_assoc, List.append_assoc]
        rfl
      have hone : (Bytes.ofString ",").length = 1 := rfl
      simp only [List.length_append] at hfuel
      rw [hcomma, items?, hx fuel _ (by omega) (endsNumber_cons (by simp))]
      simp only [skipBlanks_cons (show isBlank 0x2C = false by decide)]
      rw [ih (by simp) (fun z hz => hxs z (List.mem_cons_of_mem x hz)) (by omega)]
      rfl

theorem members?_printMembers (hne : ms ≠ [])
    (hkeys : ∀ m ∈ ms, Utf8.valid m.1 = true) (hms : ∀ m ∈ ms, ReadsBack depth m.2)
    (hfuel : 2 * (printMembers ms).length + 1 ≤ fuel) (rest : Bytes) :
    members? fuel depth (printMembers ms ++ 0x7D :: rest) = some (ms, rest) := by
  induction ms generalizing fuel with
  | nil => exact absurd rfl hne
  | cons m ms ih =>
    obtain ⟨k, x⟩ := m
    obtain ⟨fuel, rfl⟩ : ∃ n, fuel = n + 1 := ⟨fuel - 1, by omega⟩
    have hk := hkeys (k, x) List.mem_cons_self
    have hx := hms (k, x) List.mem_cons_self
    -- A member up to what follows its value.
    have hmember : ∀ b r, b ∈ [0x2C, 0x5D, 0x7D] → 2 * x.print.length ≤ fuel →
        ∃ s, printString k ++ Bytes.ofString ":" ++ x.print ++ b :: r = 0x22 :: s ∧
          string? s = some (k, 0x3A :: (x.print ++ b :: r)) ∧
          value? fuel depth (x.print ++ b :: r) = some (x, b :: r) := by
      intro b r hb hlen
      obtain ⟨s, hs, hstring⟩ := string?_printString hk (0x3A :: (x.print ++ b :: r))
      refine ⟨s, ?_, hstring, hx fuel _ hlen (endsNumber_cons hb)⟩
      rw [← hs, List.append_assoc, List.append_assoc]
      rfl
    have hone : (Bytes.ofString ",").length = 1 := rfl
    cases ms with
    | nil =>
      rw [printMembers] at hfuel ⊢
      simp only [List.length_append] at hfuel
      obtain ⟨s, hs, hstring, hvalue⟩ := hmember 0x7D rest (by simp) (by omega)
      rw [hs, members?, skipBlanks_cons (by decide)]
      simp only [hstring, skipBlanks_cons (show isBlank 0x3A = false by decide), hvalue,
        skipBlanks_cons (show isBlank 0x7D = false by decide)]
    | cons n ns =>
      rw [printMembers] at hfuel ⊢
      have hcomma : printString k ++ ":" ++ x.print ++ "," ++ printMembers (n :: ns) ++ 0x7D :: rest =
          printString k ++ ":" ++ x.print ++ 0x2C :: (printMembers (n :: ns) ++ 0x7D :: rest) := by
        simp only [List.append_assoc]
        rfl
      simp only [List.length_append] at hfuel
      obtain ⟨s, hs, hstring, hvalue⟩ := hmember 0x2C (printMembers (n :: ns) ++ 0x7D :: rest) (by simp) (by omega)
      rw [hcomma, hs, members?, skipBlanks_cons (by decide)]
      simp only [hstring, skipBlanks_cons (show isBlank 0x3A = false by decide), hvalue,
        skipBlanks_cons (show isBlank 0x2C = false by decide)]
      rw [ih (by simp) (fun m hm => hkeys m (List.mem_cons_of_mem _ hm)) (fun m hm => hms m (List.mem_cons_of_mem _ hm))
        (by omega)]
      rfl

theorem printItems_head (hne : xs ≠ []) (h : ∀ x ∈ xs, Plain d x) :
    ∃ b r, printItems xs = b :: r ∧ isBlank b = false ∧ b ≠ 0x5D := by
  cases xs with
  | nil => exact absurd rfl hne
  | cons x xs =>
    obtain ⟨b, r, hprint, hb⟩ := print_head (h x List.mem_cons_self)
    cases xs with
    | nil => exact ⟨b, r, hprint, hb⟩
    | cons y ys =>
      refine ⟨b, r ++ (Bytes.ofString "," ++ printItems (y :: ys)), ?_, hb⟩
      rw [printItems, hprint, List.append_assoc]
      rfl

theorem printMembers_head (hne : ms ≠ []) : ∃ r, printMembers ms = 0x22 :: r := by
  cases ms with
  | nil => exact absurd rfl hne
  | cons m ms => cases ms <;> exact ⟨_, rfl⟩

theorem value?_bracket (fuel depth : Nat) (rs : Bytes) :
    value? (fuel + 1) (depth + 1) (0x5B :: rs) = match skipBlanks rs with
      | 0x5D :: rest => some (.arr [], rest)
      | _ => (items? fuel depth rs).map fun (xs, rest) => (.arr xs, rest) :=
  rfl

theorem value?_arr (hne : xs ≠ []) (h : ∀ x ∈ xs, Plain d x) (r : Bytes) :
    value? (fuel + 1) (depth + 1) (0x5B :: (printItems xs ++ r)) =
      (items? fuel depth (printItems xs ++ r)).map fun (xs, rest) => (.arr xs, rest) := by
  obtain ⟨b, s, hprint, hblank, hclose⟩ := printItems_head hne h
  rw [value?_bracket, hprint, List.cons_append, skipBlanks_cons hblank]
  split
  · rename_i heq
    cases heq
    exact absurd rfl hclose
  · rfl

theorem value?_obj (hne : ms ≠ []) (r : Bytes) :
    value? (fuel + 1) (depth + 1) (0x7B :: (printMembers ms ++ r)) =
      (members? fuel depth (printMembers ms ++ r)).map fun (ms, rest) => (.obj ms, rest) := by
  obtain ⟨s, hprint⟩ := printMembers_head hne
  rw [hprint]
  rfl

theorem value?_num {r l rest : Bytes} (hb : isDecimal b = true)
    (h : number? (b :: r) = some (l, rest)) : value? (fuel + 1) depth (b :: r) = some (.num l, rest) := by
  obtain ⟨hblank, hother⟩ := isBlank_of_isDecimal hb
  simp only [List.mem_cons, List.not_mem_nil, or_false, not_or] at hother
  obtain ⟨hquote, hsquare, -, hcurl, ht, hf, hn⟩ := hother
  rw [value?, skipBlanks_cons hblank]
  simp only [hquote, hsquare, hcurl, ht, hf, hn, if_false, h, Option.map_some]

/-- Fuel is there, because a document has a text. -/
theorem ReadsBack.of_succ (h : Plain d j)
    (hread : ∀ fuel rest, 2 * j.print.length ≤ fuel + 1 → EndsNumber rest →
      value? (fuel + 1) depth (j.print ++ rest) = some (j, rest)) : ReadsBack depth j := by
  intro fuel rest hfuel hrest
  obtain ⟨b, r, hprint, -⟩ := print_head h
  have hpos : 0 < j.print.length := by simp [hprint]
  obtain ⟨fuel, rfl⟩ : ∃ n, fuel = n + 1 := ⟨fuel - 1, by omega⟩
  exact hread fuel rest hfuel hrest

theorem readsBack_of_plain (h : Plain d j) (hd : d ≤ depth) : ReadsBack depth j := by
  induction h generalizing depth with
  | @null d => exact .of_succ (.null (d := d)) fun fuel rest _ _ => rfl
  | @bool d b =>
    refine .of_succ (.bool (d := d)) fun fuel rest _ _ => ?_
    cases b <;> rfl
  | @nat d n =>
    refine .of_succ (.nat (d := d) n) fun fuel rest _ hrest => ?_
    have hnumber := number?_decimal n hrest
    obtain ⟨b, r, hdecimal, -⟩ := Bytes.decimal_head n
    have hb := Bytes.isDecimal_of_mem b (hdecimal ▸ List.mem_cons_self)
    rw [nat, print]
    rw [hdecimal] at hnumber ⊢
    exact value?_num hb hnumber
  | @str d t ht =>
    refine .of_succ (.str (d := d) ht) fun fuel rest _ _ => ?_
    obtain ⟨body, hbody, hstring⟩ := string?_printString ht rest
    have hopen : value? (fuel + 1) depth (0x22 :: body) = (string? body).map fun read => (.str read.1, read.2) := rfl
    rw [print, hbody, hopen, hstring]
    rfl
  | @arr d xs hxs ih =>
    obtain ⟨depth, rfl⟩ : ∃ n, depth = n + 1 := ⟨depth - 1, by omega⟩
    refine .of_succ (.arr hxs) fun fuel rest hfuel _ => ?_
    by_cases hne : xs = []
    · subst hne
      rfl
    · have hprint : (arr xs).print ++ rest = 0x5B :: (printItems xs ++ 0x5D :: rest) := by
        rw [print, List.append_assoc, List.append_assoc]
        rfl
      have hlen : (arr xs).print.length = (printItems xs).length + 2 := by
        rw [print, List.length_append, List.length_append]
        change 1 + _ + 1 = _
        omega
      rw [hprint, value?_arr hne hxs, items?_printItems hne (fun x hx => ih x hx (by omega)) (by omega)]
      rfl
  | @obj d ms hkeys hms ih =>
    obtain ⟨depth, rfl⟩ : ∃ n, depth = n + 1 := ⟨depth - 1, by omega⟩
    refine .of_succ (.obj hkeys hms) fun fuel rest hfuel _ => ?_
    by_cases hne : ms = []
    · subst hne
      rfl
    · have hprint : (obj ms).print ++ rest = 0x7B :: (printMembers ms ++ 0x7D :: rest) := by
        rw [print, List.append_assoc, List.append_assoc]
        rfl
      have hlen : (obj ms).print.length = (printMembers ms).length + 2 := by
        rw [print, List.length_append, List.length_append]
        change 1 + _ + 1 = _
        omega
      rw [hprint, value?_obj hne, members?_printMembers hne hkeys (fun m hm => ih m hm (by omega)) (by omega)]
      rfl

theorem parse?_print (h : Plain d j) (hd : d ≤ maxDepth) : parse? j.print = some j := by
  have hread := readsBack_of_plain h hd (2 * j.print.length + 2) [] (by omega) (by simp [EndsNumber])
  rw [List.append_nil] at hread
  rw [parse?, hread]
  rfl

/-! ### What is read -/

/-- The texts in the document are valid; this does not hold keys to anything. -/
inductive WellSpelled : Json → Prop where
  | null : WellSpelled .null
  | bool {b : Bool} : WellSpelled (.bool b)
  | num {l} : WellSpelled (.num l)
  | str {t} : Utf8.valid t = true → WellSpelled (.str t)
  | arr {xs : List Json} : (∀ x ∈ xs, WellSpelled x) → WellSpelled (.arr xs)
  | obj {ms : List (Bytes × Json)} : (∀ m ∈ ms, WellSpelled m.2) → WellSpelled (.obj ms)

theorem valid_of_string? {bs s rest : Bytes} (h : string? bs = some (s, rest)) : Utf8.valid s = true := by
  obtain ⟨x, -, hx⟩ := Option.map_eq_some_iff.1 h
  cases hx
  exact valid_repaired _

theorem literal?_eq_some {word bs rest : Bytes} {j j' : Json} (h : literal? word j bs = some (j', rest)) : j' = j := by
  unfold literal? at h
  split_ifs at h
  cases h
  rfl

section Read

variable {bs rest : Bytes}
  (hvalue : ∀ depth bs j rest, value? fuel depth bs = some (j, rest) → WellSpelled j)
  (hitems : ∀ depth bs xs rest, items? fuel depth bs = some (xs, rest) → ∀ x ∈ xs, WellSpelled x)
  (hmembers : ∀ depth bs ms rest, members? fuel depth bs = some (ms, rest) → ∀ m ∈ ms, WellSpelled m.2)

include hitems hmembers in
theorem value?_wellSpelled (h : value? (fuel + 1) depth bs = some (j, rest)) : WellSpelled j := by
  rw [value?] at h
  split at h
  · cases h
  split_ifs at h
  · obtain ⟨x, hx, hj⟩ := Option.map_eq_some_iff.1 h
    cases hj
    exact .str (valid_of_string? hx)
  · split at h
    · cases h
    split at h
    · cases h
      exact .arr (by simp)
    · obtain ⟨x, hx, hj⟩ := Option.map_eq_some_iff.1 h
      cases hj
      exact .arr (hitems _ _ _ _ hx)
  · split at h
    · cases h
    split at h
    · cases h
      exact .obj (by simp)
    · obtain ⟨x, hx, hj⟩ := Option.map_eq_some_iff.1 h
      cases hj
      exact .obj (hmembers _ _ _ _ hx)
  · rw [literal?_eq_some h]
    exact .bool
  · rw [literal?_eq_some h]
    exact .bool
  · rw [literal?_eq_some h]
    exact .null
  · obtain ⟨x, -, hj⟩ := Option.map_eq_some_iff.1 h
    cases hj
    exact .num

include hvalue hitems in
theorem items?_wellSpelled (h : items? (fuel + 1) depth bs = some (xs, rest)) :
    ∀ x ∈ xs, WellSpelled x := by
  rw [items?] at h
  split at h
  · cases h
  rename_i x r hx
  have hhead := hvalue _ _ _ _ hx
  split at h
  · obtain ⟨y, hy, hxs⟩ := Option.map_eq_some_iff.1 h
    cases hxs
    exact List.forall_mem_cons.2 ⟨hhead, hitems _ _ _ _ hy⟩
  · cases h
    exact List.forall_mem_singleton.2 hhead
  · cases h

include hvalue hmembers in
theorem members?_wellSpelled (h : members? (fuel + 1) depth bs = some (ms, rest)) :
    ∀ m ∈ ms, WellSpelled m.2 := by
  rw [members?] at h
  split at h
  · split at h
    · cases h
    split at h
    · split at h
      · cases h
      rename_i x r hx
      have hhead := hvalue _ _ _ _ hx
      split at h
      · obtain ⟨y, hy, hms⟩ := Option.map_eq_some_iff.1 h
        cases hms
        exact List.forall_mem_cons.2 ⟨hhead, hmembers _ _ _ _ hy⟩
      · cases h
        exact List.forall_mem_singleton.2 hhead
      · cases h
    · cases h
  · cases h

end Read

theorem read_wellSpelled (fuel : Nat) :
    (∀ depth bs j rest, value? fuel depth bs = some (j, rest) → WellSpelled j) ∧
    (∀ depth bs xs rest, items? fuel depth bs = some (xs, rest) → ∀ x ∈ xs, WellSpelled x) ∧
    ∀ depth bs ms rest, members? fuel depth bs = some (ms, rest) → ∀ m ∈ ms, WellSpelled m.2 := by
  induction fuel with
  | zero => refine ⟨fun _ _ _ _ h => ?_, fun _ _ _ _ h => ?_, fun _ _ _ _ h => ?_⟩ <;> cases h
  | succ fuel ih =>
    obtain ⟨hvalue, hitems, hmembers⟩ := ih
    exact ⟨fun _ _ _ _ => value?_wellSpelled hitems hmembers, fun _ _ _ _ => items?_wellSpelled hvalue hitems,
      fun _ _ _ _ => members?_wellSpelled hvalue hmembers⟩

theorem parse?_wellSpelled {bs : Bytes} (h : parse? bs = some j) : WellSpelled j := by
  unfold parse? at h
  split at h
  · rename_i hvalue
    split_ifs at h
    cases h
    exact (read_wellSpelled _).1 _ _ _ _ hvalue
  · cases h

end Json

end Flatwire
