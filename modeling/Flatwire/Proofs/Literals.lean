import Mathlib.Data.Nat.Digits.Lemmas
import Flatwire.Proofs.Munch

/-! Integer literals. A run of word characters that begins with a digit is one literal or an error, and the number of a
literal can be read in words of 64 bits: of the reasons for which such a reader gives up, malformed digits and a number
that is too large, only the second is left for texts that were recognised. -/

namespace Flatwire

namespace Token

/-! ### Reading digits into a word -/

/-- Why digits cannot be read. -/
inductive DigitFault where
  | malformed | outOfRange
deriving DecidableEq, Repr

/-- Goes on to read digits behind the number `n`. The product is known to fit before it is taken, and a sum that does
not fit comes out smaller than its summand. -/
def readDigits (base n : UInt64) : Bytes → Except DigitFault UInt64
  | [] => .ok n
  | b :: r =>
    match digitValue? b with
    | none => .error .malformed
    | some d =>
      if base.toNat ≤ d then .error .malformed
      else if 0xFFFFFFFFFFFFFFFF / base + 1 ≤ n then .error .outOfRange
      else if n * base + .ofNat d < n * base then .error .outOfRange
      else readDigits base (n * base + .ofNat d) r

/-- The digits of a literal without the underscores. -/
def digits (form : IntForm) (text : Bytes) : Bytes := (text.drop form.markLen).filter (· != underscore)

def readUint (form : IntForm) (text : Bytes) : Except DigitFault UInt64 :=
  if digits form text = [] then .error .malformed else readDigits (.ofNat form.base) 0 (digits form text)

theorem isDigitOf_eq_true {base : Nat} {b : UInt8} :
    isDigitOf base b = true ↔ ∃ d, digitValue? b = some d ∧ d < base := by
  unfold isDigitOf
  cases digitValue? b with
  | none => simp
  | some d => simp

/-- The number that digits write behind the number `n`. -/
def numberFrom (base n : Nat) (ds : Bytes) : Nat := Nat.ofDigits base ((ds.filterMap digitValue?).reverse ++ [n])

theorem numberFrom_cons {base n d : Nat} {b : UInt8} (h : digitValue? b = some d) (ds : Bytes) :
    numberFrom base n (b :: ds) = numberFrom base (n * base + d) ds := by
  rw [numberFrom, numberFrom, List.filterMap_cons_some h, List.reverse_cons]
  simp only [Nat.ofDigits_append, Nat.ofDigits_cons, Nat.ofDigits_nil, List.length_append, List.length_singleton]
  ring

theorem le_numberFrom {base : Nat} (hbase : 0 < base) (n : Nat) (ds : Bytes) : n ≤ numberFrom base n ds := by
  rw [numberFrom, Nat.ofDigits_append, Nat.ofDigits_singleton]
  exact Nat.le_add_left_of_le (Nat.le_mul_of_pos_left n (Nat.pow_pos hbase))

theorem cutoff_le_iff {base n : UInt64} (hbase : 2 ≤ base.toNat) :
    0xFFFFFFFFFFFFFFFF / base + 1 ≤ n ↔ 0x10000000000000000 ≤ n.toNat * base.toNat := by
  have hpos : 0 < base.toNat := by omega
  have hdiv : 0xFFFFFFFFFFFFFFFF / base.toNat < 0xFFFFFFFFFFFFFFFF := Nat.div_lt_self (by decide) hbase
  have hcutoff : (0xFFFFFFFFFFFFFFFF / base + 1).toNat = 0xFFFFFFFFFFFFFFFF / base.toNat + 1 := by
    rw [UInt64.toNat_add, UInt64.toNat_div]
    exact Nat.mod_eq_of_lt (Nat.succ_lt_succ hdiv)
  rw [UInt64.le_iff_toNat_le, hcutoff, Nat.succ_le_iff, Nat.div_lt_iff_lt_mul hpos, ← Nat.succ_le_iff]

/-- For digits of the base the reader fails exactly on the numbers that do not fit into a word: what was read so far
only grows. -/
theorem readDigits_eq {base : UInt64} (hbase : 2 ≤ base.toNat) {ds : Bytes}
    (hds : ∀ b ∈ ds, isDigitOf base.toNat b = true) (n : UInt64) :
    readDigits base n ds =
      if numberFrom base.toNat n.toNat ds < 0x10000000000000000 then .ok (.ofNat (numberFrom base.toNat n.toNat ds))
      else .error .outOfRange := by
  induction ds generalizing n with
  | nil =>
    have hn : numberFrom base.toNat n.toNat [] = n.toNat := by simp [numberFrom]
    rw [hn, if_pos n.toNat_lt, UInt64.ofNat_toNat]
    rfl
  | cons b ds ih =>
    obtain ⟨d, hd, hlt⟩ := isDigitOf_eq_true.1 (hds b List.mem_cons_self)
    have hgrows := le_numberFrom (Nat.lt_of_lt_of_le Nat.two_pos hbase) (n.toNat * base.toNat + d) ds
    rw [readDigits, hd, numberFrom_cons hd]
    dsimp only
    rw [if_neg (Nat.not_le.2 hlt)]
    by_cases hcut : 0xFFFFFFFFFFFFFFFF / base + 1 ≤ n
    · have hlarge := (cutoff_le_iff hbase).1 hcut
      rw [if_pos hcut, if_neg (by omega)]
    have hproduct : (n * base).toNat = n.toNat * base.toNat := by
      rw [UInt64.toNat_mul, Nat.mod_eq_of_lt (by rw [cutoff_le_iff hbase] at hcut; omega)]
    have hdigit : (UInt64.ofNat d).toNat = d := UInt64.toNat_ofNat_of_lt (Nat.lt_trans hlt base.toNat_lt)
    have hsum : (n * base + .ofNat d).toNat = (n.toNat * base.toNat + d) % 0x10000000000000000 := by
      rw [UInt64.toNat_add, hproduct, hdigit]
    rw [if_neg hcut]
    by_cases hwrap : n * base + .ofNat d < n * base
    · rw [if_pos hwrap, if_neg]
      rw [UInt64.lt_iff_toNat_lt, hsum, hproduct] at hwrap
      omega
    · rw [if_neg hwrap, ih fun c hc => hds c (List.mem_cons_of_mem b hc)]
      rw [UInt64.lt_iff_toNat_lt, hsum, hproduct] at hwrap
      rw [hsum, Nat.mod_eq_of_lt (by have := (n * base).toNat_lt; have := base.toNat_lt; omega)]

theorem filterMap_digits (ds : Bytes) :
    (ds.filter (· != underscore)).filterMap digitValue? = ds.filterMap digitValue? := by
  rw [List.filterMap_filter]
  refine List.filterMap_congr fun b _ => ?_
  by_cases hb : b = underscore
  · rw [hb]
    rfl
  · rw [if_pos (by simpa using hb)]

/-- The digits of a recognised literal are never malformed, so its number alone decides. -/
theorem readUint_eq {form : IntForm} {text : Bytes} (h : form.IsLiteral text) : readUint form text =
    if number form text < 0x10000000000000000 then .ok (.ofNat (number form text)) else .error .outOfRange := by
  obtain ⟨ds, rfl, hne, hds, hhead, -⟩ := h
  have hdrop : (form.mark ++ ds).drop form.markLen = ds := by rw [← form.length_mark, List.drop_left]
  have hbase : (UInt64.ofNat form.base).toNat = form.base := by cases form <;> rfl
  have hleft : ds.filter (· != underscore) ≠ [] := by
    obtain ⟨b, r, rfl⟩ := List.exists_cons_of_ne_nil hne
    rw [List.filter_cons_of_pos (by simpa using hhead)]
    exact List.cons_ne_nil _ _
  have hdigits : ∀ b ∈ ds.filter (· != underscore), isDigitOf form.base b = true := by
    intro b hb
    obtain ⟨hmem, hb⟩ := List.mem_filter.1 hb
    exact IntForm.isDigitOf_base_iff.2 ((hds b hmem).resolve_left (by simpa using hb))
  have hnumber : numberFrom form.base 0 (ds.filter (· != underscore)) = number form (form.mark ++ ds) := by
    rw [numberFrom, number, hdrop, filterMap_digits, Nat.ofDigits_append, Nat.ofDigits_singleton, Nat.mul_zero,
      Nat.add_zero]
  rw [readUint, digits, hdrop, if_neg hleft, readDigits_eq (by rw [hbase]; cases form <;> decide)
    (by rwa [hbase]), hbase, show (0 : UInt64).toNat = 0 from rfl, hnumber]

/-! ### Recognition -/

theorem first_cases {b : UInt8} {left : Bytes} (offset : Nat) (hb : left.head? = some b) (hdigit : isDecimal b = true) :
    let run := left.takeWhile isWord
    (∃ form : IntForm, form.IsLiteral run ∧ run.length ≤ maxTokenLen ∧ first offset left = .ok ⟨.int form, run⟩) ∨
      (∃ e, maxTokenLen < run.length ∧ (∃ form : IntForm, form.IsLiteral run) ∧ first offset left = .error e ∧
        e.code = 1004) ∨
      ((∀ form : IntForm, ¬ form.IsLiteral run) ∧
        first offset left = .error ⟨.invalidInt run, ⟨offset, run.length⟩⟩) := by
  intro run
  have hscan : scan left = scanInt left := by
    obtain ⟨r, rfl⟩ := List.head?_eq_some_iff.1 hb
    rw [scan_word (isWord_of_isDecimal hdigit), if_pos hdigit]
  rw [first, hscan, scanInt]
  by_cases hdigits : wellFormedDigits (intForm left).base (run.drop (intForm left).markLen) = true
  · have hliteral : (intForm left).IsLiteral run := isLiteral_run_iff.2 ⟨rfl, hdigits⟩
    rw [if_pos hdigits, ofLen]
    split_ifs with hlong
    · exact .inr (.inl ⟨_, hlong, ⟨_, hliteral⟩, rfl, rfl⟩)
    · refine .inl ⟨_, hliteral, Nat.not_lt.1 hlong, ?_⟩
      dsimp only
      rw [take_takeWhile]
  · rw [if_neg hdigits]
    refine .inr (.inr ⟨fun form hform => hdigits ?_, rfl⟩)
    obtain ⟨rfl, hform⟩ := isLiteral_run_iff.1 hform
    exact hform

end Token

namespace TokenStream

open Token

/-- The literal that a request delivers, `run`, is given its number if a word can hold it and is refused if not. -/
structure Evaluates (ts : TokenStream) (n : Nat) (form : IntForm) (run : Bytes) : Prop where
  reads : ∀ v, readUint form run = .ok v ↔ v.toNat = number form run
  fails : ∀ fault, readUint form run = .error fault ↔ fault = .outOfRange ∧ 0xFFFFFFFFFFFFFFFF < number form run
  accepted : ∀ lit rest, Parser.int (ts.after n) = .ok (lit, rest) ↔ number form run ≤ 0xFFFFFFFFFFFFFFFF ∧
    lit.value.toNat = number form run ∧ lit.lexeme = ⟨(ts.after n).offset, run⟩ ∧ rest = ts.after (n + 1)
  refused : ∀ e, Parser.int (ts.after n) = .error e ↔ 0xFFFFFFFFFFFFFFFF < number form run ∧ e.code = 2012 ∧
    e = ⟨.intTooLarge, ⟨(ts.after n).offset, run.length⟩⟩

/-- What becomes of `run`, the word characters at the place of a request, the first of which is a digit. -/
structure Recognises (ts : TokenStream) (n : Nat) (run : Bytes) : Prop where
  literal : ∀ form, ts.answer n = .ok ⟨.int form, run⟩ ↔ run.length ≤ maxTokenLen ∧ form.IsLiteral run
  /-- No other token is delivered here. -/
  only : ∀ t, ts.answer n = .ok t → ∃ form, t = ⟨.int form, run⟩
  malformed : (∃ e, ts.answer n = .error e ∧ e.code = 1005 ∧ e.span = ⟨(ts.after n).offset, run.length⟩) ↔
    ∀ form : IntForm, ¬ form.IsLiteral run
  evaluates : ∀ form, ts.answer n = .ok ⟨.int form, run⟩ → ts.Evaluates n form run

variable {src : Bytes} {ts : TokenStream} {n : Nat}

theorem int_eq {form : IntForm} {text : Bytes} (h : ts.answer n = .ok ⟨.int form, text⟩) :
    Parser.int (ts.after n) =
      if number form text < 0x10000000000000000 then
        .ok (⟨⟨(ts.after n).offset, text⟩, .ofNat (number form text)⟩, ts.after (n + 1))
      else .error ⟨.intTooLarge, ⟨(ts.after n).offset, text.length⟩⟩ := by
  have hpeek : Parser.peek (ts.after n) = .ok (⟨.int form, text⟩, ts.after n) := by
    rw [Parser.peek, ← answer, h]
    rfl
  rw [Parser.int, Parser.bind_of_ok hpeek]
  simp only [intValue_eq]
  split_ifs <;> rfl

theorem evaluates_of_isLiteral {form : IntForm} {run : Bytes} (h : ts.answer n = .ok ⟨.int form, run⟩)
    (hform : form.IsLiteral run) : ts.Evaluates n form run := by
  have hread := readUint_eq hform
  have hint := int_eq h
  by_cases hfits : number form run < 0x10000000000000000
  · have hvalue : (UInt64.ofNat (number form run)).toNat = number form run := UInt64.toNat_ofNat_of_lt hfits
    rw [if_pos hfits] at hread hint
    constructor
    · intro v
      rw [hread, Except.ok.injEq, ← UInt64.toNat_inj, hvalue, eq_comm]
    · intro fault
      rw [hread]
      exact ⟨nofun, fun h => by omega⟩
    · intro lit rest
      rw [hint]
      constructor
      · intro h
        cases h
        exact ⟨Nat.le_of_lt_succ hfits, hvalue, rfl, rfl⟩
      · rintro ⟨-, hlit, hlexeme, rfl⟩
        obtain ⟨lexeme, value⟩ := lit
        cases hlexeme
        rw [← UInt64.toNat_inj.1 (hlit.trans hvalue.symm)]
    · intro e
      rw [hint]
      exact ⟨nofun, fun h => by omega⟩
  · have hlarge : 0xFFFFFFFFFFFFFFFF < number form run := by omega
    rw [if_neg hfits] at hread hint
    constructor
    · intro v
      have hv := v.toNat_lt
      rw [hread]
      exact ⟨nofun, fun h => by omega⟩
    · intro fault
      rw [hread, Except.error.injEq, eq_comm]
      exact ⟨fun h => ⟨h, hlarge⟩, fun h => h.1⟩
    · intro lit rest
      rw [hint]
      exact ⟨nofun, fun h => by omega⟩
    · intro e
      rw [hint, Except.error.injEq, eq_comm]
      exact ⟨fun h => ⟨hlarge, by rw [h]; rfl, h⟩, fun h => h.2.2⟩

/-- Where a request finds a digit, the word characters there are one literal or none, and the number of a literal is
exact. -/
theorem literals_recognised_and_evaluated {b : UInt8} (h : ofSource src = .ok ts)
    (hb : (src.drop (ts.after n).offset).head? = some b) (hdigit : isDecimal b = true) :
    ts.Recognises n ((src.drop (ts.after n).offset).takeWhile isWord) := by
  have hanswer := (answer_eq_first h n).2
  rcases first_cases (ts.after n).offset hb hdigit with ⟨form, hform, hshort, hfirst⟩ |
    ⟨e, hlong, ⟨form, hform⟩, hfirst, hcode⟩ | ⟨hnone, hfirst⟩
  · rw [hfirst] at hanswer
    have hone : ∀ form', ts.answer n = .ok ⟨.int form', _⟩ → form' = form := fun form' h => by
      cases hanswer.symm.trans h
      rfl
    refine ⟨fun form' => ⟨fun h => ?_, fun h => ?_⟩, fun t ht => ?_, ?_, fun form' h => ?_⟩
    · rw [hone form' h]
      exact ⟨hshort, hform⟩
    · rw [hanswer, ← intForm_of_isLiteral h.2, intForm_of_isLiteral hform]
    · cases hanswer.symm.trans ht
      exact ⟨form, rfl⟩
    · rw [hanswer]
      exact ⟨nofun, fun h => absurd hform (h form)⟩
    · rw [hone form' h]
      exact evaluates_of_isLiteral hanswer hform
  · rw [hfirst] at hanswer
    refine ⟨fun form' => ?_, fun t => ?_, ?_, fun form' => ?_⟩ <;> rw [hanswer]
    · exact ⟨nofun, fun h => absurd h.1 (Nat.not_le.2 hlong)⟩
    · exact nofun
    · refine ⟨?_, fun h => absurd hform (h form)⟩
      rintro ⟨_, h, hcode', -⟩
      cases h
      omega
    · exact nofun
  · rw [hfirst] at hanswer
    refine ⟨fun form' => ?_, fun t => ?_, ?_, fun form' => ?_⟩ <;> rw [hanswer]
    · exact ⟨nofun, fun h => absurd h.2 (hnone form')⟩
    · exact nofun
    · exact ⟨fun _ => hnone, fun _ => ⟨_, rfl, rfl, rfl⟩⟩
    · exact nofun

/-- The largest word, written with underscores, and behind it the number that is one larger. -/
theorem literals_around_largest_word :
    let large := Bytes.ofString "0xFFFF_FFFF_FFFF_FFFF"
    let larger := Bytes.ofString "18446744073709551616"
    let ts : TokenStream := ⟨[⟨.int .hex, large⟩, ⟨.space, [0x20]⟩, ⟨.int .plain, larger⟩], none, 0⟩
    ofSource (large ++ 0x20 :: larger) = .ok ts ∧ ts.Recognises 0 large ∧ ts.Recognises 2 larger ∧
      ts.Evaluates 0 .hex large ∧ ts.Evaluates 2 .plain larger := by
  intro large larger ts
  have hsource : ofSource (large ++ 0x20 :: larger) = .ok ts := by decide +kernel
  have hlarge : ts.Recognises 0 large :=
    literals_recognised_and_evaluated (n := 0) (b := 0x30) hsource (by decide +kernel) (by decide)
  have hlarger : ts.Recognises 2 larger :=
    literals_recognised_and_evaluated (n := 2) (b := 0x31) hsource (by decide +kernel) (by decide)
  exact ⟨hsource, hlarge, hlarger, hlarge.evaluates _ rfl, hlarger.evaluates _ rfl⟩

end TokenStream

end Flatwire
