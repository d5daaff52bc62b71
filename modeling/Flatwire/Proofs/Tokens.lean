import Mathlib.Tactic.SplitIfs
import Flatwire.Token.Scan

/-! What it means for a text to fall apart into tokens, one after the other and up to the end. Each of them takes at
least a byte, so the tokenizer comes to the end of every text or to the first place where no token starts. -/

namespace Flatwire

/-- The text is the given tokens one after the other, each cut off where it ends. -/
inductive Tokenizes : Bytes → List Token → Prop where
  | nil : Tokenizes [] []
  | cons {src : Bytes} {kind : Token.Kind} {len : Nat} {ts : List Token} : src ≠ [] →
      Token.scan src = .ok (kind, len) → Tokenizes (src.drop len) ts → Tokenizes src (⟨kind, src.take len⟩ :: ts)

namespace Token

theorem ofLen_eq_ok {kind k : Kind} {len n : Nat} (h : ofLen kind len = .ok (k, n)) : k = kind ∧ n = len := by
  unfold ofLen at h
  split_ifs at h
  cases h
  exact ⟨rfl, rfl⟩

theorem length_takeWhile_pos {p : UInt8 → Bool} {b : UInt8} (h : p b = true) (r : Bytes) :
    0 < ((b :: r).takeWhile p).length := by
  rw [List.takeWhile_cons, if_pos h]
  exact Nat.succ_pos _

theorem spaceLen_pos {b : UInt8} {r : Bytes} (h : (b = 0x20 || b = 0x09 || (b = 0xC2 && r.head? = some 0xA0)) = true) :
    0 < spaceLen (b :: r) := by
  simp only [Bool.or_eq_true, Bool.and_eq_true, decide_eq_true_eq] at h
  rcases h with h | ⟨rfl, h⟩
  · rw [spaceLen]
    · rw [if_pos (by simpa using h)]
      exact Nat.succ_pos _
    · rintro r' rfl
      simp at h
  · obtain ⟨c, t, rfl⟩ := List.exists_cons_of_ne_nil (l := r) (by rintro rfl; simp at h)
    cases h
    exact Nat.succ_pos _

theorem isWord_of_isDecimal {b : UInt8} (h : isDecimal b = true) : isWord b = true := by
  rw [isWord, h, Bool.or_true, Bool.true_or]

theorem scan_pos {src : Bytes} {kind : Kind} {len : Nat} (hne : src ≠ []) (h : scan src = .ok (kind, len)) :
    0 < len ∧ kind ≠ .eof := by
  cases src with
  | nil => exact absurd rfl hne
  | cons b r =>
    rw [scan] at h
    split at h
    · rename_i hspace
      obtain ⟨rfl, rfl⟩ := ofLen_eq_ok h
      exact ⟨spaceLen_pos hspace, by simp⟩
    split at h
    · cases h
      simp
    split at h
    · split_ifs at h
      cases h
      simp
    split at h
    · rename_i hslash
      split_ifs at h
      obtain ⟨rfl, rfl⟩ := ofLen_eq_ok h
      exact ⟨length_takeWhile_pos (by rw [hslash]; decide) r, by simp⟩
    split at h
    · cases h
      simp
    split_ifs at h with hdigit hword
    · simp only [scanInt] at h
      split_ifs at h
      obtain ⟨rfl, rfl⟩ := ofLen_eq_ok h
      exact ⟨length_takeWhile_pos (isWord_of_isDecimal hdigit) r, by simp⟩
    · obtain ⟨rfl, rfl⟩ := ofLen_eq_ok h
      exact ⟨length_takeWhile_pos hword r, by simp⟩

theorem tokenizes_nil_iff {ts : List Token} : Tokenizes [] ts ↔ ts = [] := by
  constructor
  · intro h
    cases h with
    | nil => rfl
    | cons hne => exact absurd rfl hne
  · rintro rfl
    exact .nil

theorem tokenizes_iff {src : Bytes} {ts : List Token} (hne : src ≠ []) :
    Tokenizes src ts ↔ ∃ kind len rest, scan src = .ok (kind, len) ∧ Tokenizes (src.drop len) rest ∧
      ts = ⟨kind, src.take len⟩ :: rest := by
  constructor
  · intro h
    cases h with
    | nil => exact absurd rfl hne
    | cons _ hscan hrest => exact ⟨_, _, _, hscan, hrest, rfl⟩
  · rintro ⟨kind, len, rest, hscan, hrest, rfl⟩
    exact .cons hne hscan hrest

theorem scanAll_eq_iff {fuel offset : Nat} {src : Bytes} {ts : List Token} (hfuel : src.length ≤ fuel) :
    scanAll fuel offset src = (ts, none) ↔ Tokenizes src ts := by
  induction fuel generalizing offset src ts with
  | zero =>
    obtain rfl := List.length_eq_zero_iff.1 (Nat.le_zero.1 hfuel)
    simp [scanAll, tokenizes_nil_iff, eq_comm]
  | succ fuel ih =>
    by_cases hne : src = []
    · simp [hne, scanAll, tokenizes_nil_iff, eq_comm]
    rw [tokenizes_iff hne, scanAll]
    case x_3 => exact hne
    cases hs : scan src with
    | error cause => simp
    | ok out =>
      obtain ⟨kind, len⟩ := out
      have hpos := (scan_pos hne hs).1
      have hlen : (src.drop len).length ≤ fuel := by
        rw [List.length_drop]
        omega
      simp only [Prod.mk.injEq]
      constructor
      · rintro ⟨rfl, hfail⟩
        exact ⟨_, _, _, rfl, (ih hlen).1 (Prod.ext rfl hfail), rfl⟩
      · rintro ⟨_, _, rest, hout, hrest, rfl⟩
        cases hout
        have hall : scanAll fuel (offset + len) (src.drop len) = (rest, none) := (ih hlen).2 hrest
        rw [hall]
        exact ⟨rfl, rfl⟩

theorem scanAll_ne_eof (fuel offset : Nat) (src : Bytes) : ∀ t ∈ (scanAll fuel offset src).1, t.kind ≠ .eof := by
  fun_induction scanAll fuel offset src with
  | case1 | case2 | case3 => simp
  | case4 fuel offset src hne kind len hscan ts e hrest ih =>
    rw [List.forall_mem_cons]
    refine ⟨(scan_pos hne hscan).2, ?_⟩
    rw [hrest] at ih
    exact ih

end Token

namespace Tokenizes

variable {src : Bytes} {ts us : List Token}

theorem unique (h : Tokenizes src ts) (h' : Tokenizes src us) : ts = us := by
  have hts : Token.scanAll src.length 0 src = (ts, none) := (Token.scanAll_eq_iff (Nat.le_refl _)).2 h
  have hus : Token.scanAll src.length 0 src = (us, none) := (Token.scanAll_eq_iff (Nat.le_refl _)).2 h'
  exact (Prod.mk.inj (hts.symm.trans hus)).1

end Tokenizes

theorem TokenStream.ofSource_ne_eof {src : Bytes} {ts : TokenStream} (h : ofSource src = .ok ts) :
    ∀ t ∈ ts.tokens, t.kind ≠ .eof := by
  unfold ofSource at h
  split_ifs at h
  cases h
  exact Token.scanAll_ne_eof _ _ src

theorem TokenStream.ofSource_eq_ok_iff {src : Bytes} {ts : TokenStream} :
    (ofSource src = .ok ts ∧ ts.failure = none) ↔
      src.length ≤ maxSourceLen ∧ Utf8.valid src = true ∧ Tokenizes src ts.tokens ∧ ts = ⟨ts.tokens, none, 0⟩ := by
  unfold ofSource
  split_ifs with hlen hvalid
  · simp only [false_and, false_iff, not_and]
    intro h
    omega
  · simp only [false_and, false_iff, not_and]
    intro _ h
    rw [h] at hvalid
    cases hvalid
  · have hv : Utf8.valid src = true := by simpa using hvalid
    constructor
    · rintro ⟨h, hfail⟩
      cases h
      have hf : (Token.scanAll src.length 0 src).2 = none := hfail
      exact ⟨by omega, hv, (Token.scanAll_eq_iff (Nat.le_refl _)).1 (Prod.ext rfl hf), by rw [hf]⟩
    · rintro ⟨-, -, h, hts⟩
      have hall : Token.scanAll src.length 0 src = (ts.tokens, none) := (Token.scanAll_eq_iff (Nat.le_refl _)).2 h
      rw [hall, hts]
      exact ⟨rfl, rfl⟩

end Flatwire
