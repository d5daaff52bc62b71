import Flatwire.Proofs.JsonText
import Flatwire.Proofs.Rendering
import Flatwire.Proofs.Spans

/-! Where tokenizing stops. Tokens are cut off the front of a text one after the other; in a text of whole characters
each of them ends where a character ends, so a place where no token starts is refused for what stands there, and what
is refused lies inside the text. -/

namespace Flatwire

namespace Utf8

theorem valid_drop {bs : Bytes} {c : Char} {w : Nat} (h : valid bs = true) (hfirst : first? bs = some (c, w))
    (hw : 0 < w) : valid (bs.drop w) = true := by
  rw [valid, units_char hfirst hw, List.all_cons, Bool.and_eq_true] at h
  exact h.2

theorem valid_tail {b : UInt8} {r : Bytes} (h : valid (b :: r) = true) (hb : b.toNat < 0x80) : valid r = true :=
  valid_drop h (first?_one hb) Nat.one_pos

theorem exists_first?_of_valid {b : UInt8} {r : Bytes} (h : valid (b :: r) = true) :
    ∃ c w, first? (b :: r) = some (c, w) := by
  cases hfirst : first? (b :: r) with
  | some x => exact ⟨x.1, x.2, rfl⟩
  | none =>
    rw [valid, units_bad hfirst, List.all_cons] at h
    cases h

/-- A run that does not end inside a character: it takes all bytes above ASCII or none. -/
theorem valid_dropWhile {p : UInt8 → Bool} {v : Bool} {bs : Bytes} (hp : ∀ b : UInt8, 0x80 ≤ b.toNat → p b = v)
    (h : valid bs = true) : valid (bs.dropWhile p) = true := by
  obtain ⟨cs, rfl⟩ := chars_of_valid h
  clear h
  induction cs with
  | nil => rfl
  | cons c cs ih =>
    have hstay : valid ((c :: cs).flatMap String.utf8EncodeChar) = true := valid_of_chars (c :: cs)
    rw [List.flatMap_cons] at hstay ⊢
    -- the bytes of one character are taken together
    have hsame : (∀ b ∈ String.utf8EncodeChar c, p b = true) ∨ ∀ b ∈ String.utf8EncodeChar c, p b = false := by
      by_cases hc : c.toNat < 0x80
      · have hone : c.utf8Size = 1 := Char.utf8Size_eq_one_iff.2 (UInt32.le_iff_toNat_le.2 (Nat.le_of_lt_succ hc))
        rw [String.utf8EncodeChar_eq_singleton hone, List.forall_mem_singleton, List.forall_mem_singleton]
        exact (Bool.eq_false_or_eq_true _)
      · have hall : ∀ b ∈ String.utf8EncodeChar c, p b = v := fun b hb =>
          hp b ((Json.utf8EncodeChar_bytes hb).resolve_right fun h => hc h.2)
        cases v with
        | true => exact .inl hall
        | false => exact .inr hall
    rcases hsame with hall | hnone
    · rw [List.dropWhile_append_of_pos hall]
      exact ih
    · cases henc : String.utf8EncodeChar c with
      | nil => exact absurd henc (String.utf8EncodeChar_ne_nil)
      | cons b u =>
        rw [henc] at hstay hnone
        rw [List.cons_append, List.dropWhile_cons_of_neg (by simp [hnone b List.mem_cons_self])]
        exact hstay

end Utf8

namespace Token

variable {src : Bytes}

/-! ### One token -/

/-- What is found at the front of a text: a token that ends where a character ends, or a reason for which none starts
there, with a span inside the text. -/
inductive Found (src : Bytes) : Except SyntaxError.Cause (Kind × Nat) → Prop where
  | token {kind : Kind} {len : Nat} : Utf8.valid (src.drop len) = true → Found src (.ok (kind, len))
  | fault {cause : SyntaxError.Cause} : 1002 ≤ cause.code → cause.code ≤ 1005 → errorLen cause ≤ src.length →
      Found src (.error cause)

theorem found_ofLen {len : Nat} (kind : Kind) (hle : len ≤ src.length) (h : Utf8.valid (src.drop len) = true) :
    Found src (ofLen kind len) := by
  unfold ofLen
  split_ifs
  · exact .fault (by simp [SyntaxError.Cause.code]) (by simp [SyntaxError.Cause.code])
      (Nat.le_trans (Nat.min_le_left _ _) hle)
  · exact .token h

theorem drop_takeWhile (p : UInt8 → Bool) (src : Bytes) : src.drop (src.takeWhile p).length = src.dropWhile p := by
  conv => lhs; arg 2; rw [← List.takeWhile_append_dropWhile (p := p) (l := src)]
  exact List.drop_left

theorem length_takeWhile_le (p : UInt8 → Bool) (src : Bytes) : (src.takeWhile p).length ≤ src.length :=
  (List.takeWhile_prefix p).length_le

theorem found_run {p : UInt8 → Bool} {v : Bool} (kind : Kind) (hp : ∀ b : UInt8, 0x80 ≤ b.toNat → p b = v)
    (h : Utf8.valid src = true) : Found src (ofLen kind (src.takeWhile p).length) := by
  refine found_ofLen kind (length_takeWhile_le p src) ?_
  rw [drop_takeWhile]
  exact Utf8.valid_dropWhile hp h

theorem isWord_of_high (b : UInt8) (hb : 0x80 ≤ b.toNat) : isWord b = false := by
  rw [Bool.eq_false_iff]
  intro hword
  have := (isWord_byte hword).1
  omega

theorem isLineEnd_of_high (b : UInt8) (hb : 0x80 ≤ b.toNat) : (!isLineEnd b) = true := by
  rw [Bool.not_eq_true', Bool.eq_false_iff]
  intro hline
  simp only [isLineEnd, Bool.or_eq_true, beq_iff_eq] at hline
  rcases hline with rfl | rfl <;> simp at hb

theorem spaceLen_le (src : Bytes) : spaceLen src ≤ src.length := by
  fun_induction spaceLen src with
  | case1 => simp
  | case2 r ih => simpa using ih
  | case3 b r _ _ ih => simpa using ih
  | case4 => simp

theorem valid_drop_spaceLen (h : Utf8.valid src = true) : Utf8.valid (src.drop (spaceLen src)) = true := by
  fun_induction spaceLen src with
  | case1 => exact h
  | case2 r ih => exact ih (Utf8.valid_drop h (Utf8.first?_two (by decide) (by decide)) (by decide))
  | case3 b r _ hb ih =>
    refine ih (Utf8.valid_tail h ?_)
    simp only [Bool.or_eq_true, decide_eq_true_eq] at hb
    rcases hb with rfl | rfl <;> decide
  | case4 => exact h

theorem byte_lt_of_ofByte? {b : UInt8} {s : Sigil} (h : Sigil.ofByte? b = some s) : b.toNat < 0x80 := by
  unfold Sigil.ofByte? at h
  split_ifs at h <;> subst b <;> decide

theorem found_scan (hne : src ≠ []) (h : Utf8.valid src = true) : Found src (scan src) := by
  cases src with
  | nil => exact absurd rfl hne
  | cons b r =>
    have hlen : 1 ≤ (b :: r).length := Nat.succ_pos _
    have htail : b.toNat < 0x80 → Utf8.valid ((b :: r).drop 1) = true := Utf8.valid_tail h
    rw [scan]
    split
    · exact found_ofLen _ (spaceLen_le _) (valid_drop_spaceLen h)
    split
    · rename_i hnewline
      exact .token (htail (by subst hnewline; decide))
    split
    · rename_i hreturn
      split_ifs with hline
      · cases r with
        | nil => cases hline
        | cons c r =>
          cases hline
          exact .token (Utf8.valid_tail (Utf8.valid_tail h (by subst hreturn; decide)) (by decide))
      · exact .fault (by simp [SyntaxError.Cause.code]) (by simp [SyntaxError.Cause.code]) hlen
    split
    · split_ifs
      · exact found_run _ isLineEnd_of_high h
      · exact .fault (by decide) (by decide) hlen
    split
    · rename_i s hs
      exact .token (htail (byte_lt_of_ofByte? hs))
    split_ifs
    · simp only [scanInt]
      split_ifs
      · exact found_run _ isWord_of_high h
      · exact .fault (by simp [SyntaxError.Cause.code]) (by simp [SyntaxError.Cause.code]) (length_takeWhile_le _ _)
    · exact found_run _ isWord_of_high h
    · obtain ⟨c, w, hfirst⟩ := Utf8.exists_first?_of_valid h
      unfold refuse
      split_ifs
      · exact .fault (by simp [SyntaxError.Cause.code]) (by simp [SyntaxError.Cause.code]) hlen
      · rw [hfirst]
        refine .fault (by simp [SyntaxError.Cause.code]) (by simp [SyntaxError.Cause.code]) ?_
        rw [errorLen, ← String.length_utf8EncodeChar, Utf8.utf8EncodeChar_of_first? hfirst, List.length_append]
        omega

/-! ### Tokens in a row -/

/-- The tokens are cut off the front of the text one after the other. -/
inductive Cut : Bytes → List Token → Bytes → Prop where
  | nil {src : Bytes} : Cut src [] src
  | cons {src rest : Bytes} {kind : Kind} {len : Nat} {ts : List Token} : src ≠ [] → scan src = .ok (kind, len) →
      Cut (src.drop len) ts rest → Cut src (⟨kind, src.take len⟩ :: ts) rest

theorem texts_cons (t : Token) (ts : List Token) : texts (t :: ts) = t.text ++ texts ts := List.flatMap_cons

theorem Cut.src_eq {rest : Bytes} {ts : List Token} (h : Cut src ts rest) : src = texts ts ++ rest := by
  induction h with
  | nil => rfl
  | @cons src rest kind len ts _ _ _ ih =>
    rw [texts_cons, List.append_assoc, ← ih, List.take_append_drop]

theorem cut_append_iff {rest : Bytes} {ts us : List Token} :
    Cut src (ts ++ us) rest ↔ ∃ mid, Cut src ts mid ∧ Cut mid us rest := by
  constructor
  · intro h
    induction ts generalizing src with
    | nil => exact ⟨src, .nil, h⟩
    | cons t ts ih =>
      cases h with
      | cons hne hscan htail =>
        obtain ⟨mid, hmid, hrest⟩ := ih htail
        exact ⟨mid, .cons hne hscan hmid, hrest⟩
  · rintro ⟨mid, hts, hus⟩
    induction hts with
    | nil => exact hus
    | cons hne hscan _ ih => exact .cons hne hscan (ih hus)

theorem Cut.comparable {rest rest' : Bytes} {ts us : List Token} (h : Cut src ts rest) (h' : Cut src us rest') :
    ts <+: us ∨ ∃ t ws, ts = us ++ t :: ws ∧ Cut rest' (t :: ws) rest := by
  induction h generalizing us with
  | nil => exact .inl (List.nil_prefix)
  | @cons src rest kind len ts hne hscan htail ih =>
    cases h' with
    | nil => exact .inr ⟨_, ts, rfl, .cons hne hscan htail⟩
    | cons _ hscan' htail' =>
      cases hscan.symm.trans hscan'
      rcases ih htail' with hle | ⟨t, ws, rfl, hws⟩
      · exact .inl ((List.prefix_cons_inj _).2 hle)
      · exact .inr ⟨t, ws, rfl, hws⟩

theorem Cut.valid {rest : Bytes} {ts : List Token} (h : Cut src ts rest) (hv : Utf8.valid src = true) :
    Utf8.valid rest = true := by
  induction h with
  | nil => exact hv
  | cons hne hscan _ ih =>
    have hfound := found_scan hne hv
    rw [hscan] at hfound
    cases hfound with
    | token h => exact ih h

theorem cut_scanAll {fuel : Nat} (offset : Nat) (hfuel : src.length ≤ fuel) :
    ∃ rest, Cut src (scanAll fuel offset src).1 rest ∧
      ((scanAll fuel offset src).2 = none ∧ rest = [] ∨
        ∃ cause, rest ≠ [] ∧ scan rest = .error cause ∧
          (scanAll fuel offset src).2 =
            some ⟨cause, ⟨offset + (texts (scanAll fuel offset src).1).length, errorLen cause⟩⟩) := by
  fun_induction scanAll fuel offset src with
  | case1 offset src =>
    exact ⟨[], by rw [List.length_eq_zero_iff.1 (Nat.le_zero.1 hfuel)]; exact .nil, .inl ⟨rfl, rfl⟩⟩
  | case2 => exact ⟨[], .nil, .inl ⟨rfl, rfl⟩⟩
  | case3 fuel offset src hne cause hscan =>
    exact ⟨src, .nil, .inr ⟨cause, by simpa using hne, hscan, rfl⟩⟩
  | case4 fuel offset src hne kind len hscan ts e hrest ih =>
    have hsrc : src ≠ [] := by simpa using hne
    have hpos := (scan_pos hsrc hscan).1
    rw [List.length_drop] at ih
    obtain ⟨rest, hcut, hend⟩ := ih (by omega)
    rw [hrest] at hcut hend
    refine ⟨rest, .cons hsrc hscan hcut, ?_⟩
    rcases hend with hnone | ⟨cause, hmore, hfault, hsome⟩
    · exact .inl hnone
    · refine .inr ⟨cause, hmore, hfault, hsome.trans ?_⟩
      -- something is left, so the token has its full length
      have hlen := congrArg List.length hcut.src_eq
      have hleft := List.length_pos_of_ne_nil hmore
      rw [List.length_drop, List.length_append] at hlen
      dsimp only
      rw [texts_cons, List.length_append, List.length_take, Nat.min_eq_left (by omega), Nat.add_assoc]

end Token

theorem TokenStream.cut_ofSource {src : Bytes} {ts : TokenStream} (h : ofSource src = .ok ts) :
    Utf8.valid src = true ∧ ts.offset = 0 ∧ ∃ rest, Token.Cut src ts.tokens rest ∧
      (ts.failure = none ∧ rest = [] ∨ ∃ cause, rest ≠ [] ∧ Token.scan rest = .error cause ∧
        ts.failure = some ⟨cause, ⟨(Token.texts ts.tokens).length, Token.errorLen cause⟩⟩) := by
  unfold ofSource at h
  split_ifs at h with hlen hvalid
  cases h
  obtain ⟨rest, hcut, hend⟩ := Token.cut_scanAll 0 (Nat.le_refl src.length)
  rw [Nat.zero_add] at hend
  exact ⟨by simpa using hvalid, rfl, rest, hcut, hend⟩

end Flatwire
