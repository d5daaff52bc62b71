import Flatwire.Proofs.Scanning

/-! Requests for tokens, one after the other. Each is answered with the longest token that starts where the last one
ended, so the tokens that are delivered make up the source without a gap and split none of its characters. At the end,
and where no token starts, all further requests get one answer. -/

namespace Flatwire

variable {b : UInt8}

namespace Utf8

/-- What stands in front of whole characters is whole characters: none of them begins inside another. -/
theorem exists_chars_front {cs ds : List Char} {front : Bytes}
    (h : cs.flatMap String.utf8EncodeChar = front ++ ds.flatMap String.utf8EncodeChar) :
    ∃ before : List Char, front = before.flatMap String.utf8EncodeChar := by
  induction cs generalizing front with
  | nil => exact ⟨[], (List.append_eq_nil_iff.1 h.symm).1⟩
  | cons c cs ih =>
    rw [List.flatMap_cons] at h
    rcases List.append_eq_append_iff.1 h with ⟨more, rfl, hmore⟩ | ⟨cut, hc, hcut⟩
    · obtain ⟨before, rfl⟩ := ih hmore
      exact ⟨c :: before, List.flatMap_cons.symm⟩
    · cases front with
      | nil => exact ⟨[], rfl⟩
      | cons b front =>
        cases cut with
        | nil => exact ⟨[c], by rw [List.flatMap_singleton, hc, List.append_nil]⟩
        | cons x cut =>
          -- a later byte of one character would be the first of another
          cases ds with
          | nil => cases hcut
          | cons d ds =>
            have hd : 0 < (String.utf8EncodeChar d).length := List.length_pos_of_ne_nil String.utf8EncodeChar_ne_nil
            have hx : (String.utf8EncodeChar d)[0] = x := by
              rw [List.flatMap_cons] at hcut
              have hhead := congrArg List.head? hcut
              rw [List.head?_append_of_ne_nil _ String.utf8EncodeChar_ne_nil, List.head?_eq_getElem?,
                List.getElem?_eq_getElem hd] at hhead
              exact Option.some.inj hhead
            have hfirst := (@UInt8.isUTF8FirstByte_getElem_utf8EncodeChar d 0 hd).2 rfl
            have hlen : front.length + 1 < (String.utf8EncodeChar c).length := by simp [hc]
            have hlater : (String.utf8EncodeChar c)[front.length + 1] = x := by simp [hc]
            rw [hx, ← hlater, UInt8.isUTF8FirstByte_getElem_utf8EncodeChar] at hfirst
            cases hfirst

end Utf8

/-! ### How tokens are written -/

namespace IntForm

variable {form : IntForm}

/-- The characters in front of the digits. -/
def mark : IntForm → Bytes
  | plain => []
  | binary => [0x30, 0x62]
  | octal => [0x30, 0x6F]
  | decimal => [0x30, 0x64]
  | hex => [0x30, 0x78]

/-- The digits of the form's base. -/
def IsDigit (b : UInt8) : IntForm → Prop
  | binary => b = 0x30 ∨ b = 0x31
  | octal => 0x30 ≤ b ∧ b ≤ 0x37
  | plain | decimal => 0x30 ≤ b ∧ b ≤ 0x39
  | hex => (0x30 ≤ b ∧ b ≤ 0x39) ∨ (0x41 ≤ b ∧ b ≤ 0x46) ∨ (0x61 ≤ b ∧ b ≤ 0x66)

instance (form : IntForm) (b : UInt8) : Decidable (form.IsDigit b) :=
  match form with
  | binary => inferInstanceAs (Decidable (_ ∨ _))
  | octal | plain | decimal => inferInstanceAs (Decidable (_ ∧ _))
  | hex => inferInstanceAs (Decidable (_ ∨ _))

/-- The text is the mark of the form and then digits, with underscores that neither begin nor end them. -/
def IsLiteral (form : IntForm) (text : Bytes) : Prop :=
  ∃ ds, text = form.mark ++ ds ∧ ds ≠ [] ∧ (∀ b ∈ ds, b = Token.underscore ∨ form.IsDigit b) ∧
    ds.head? ≠ some Token.underscore ∧ ds.getLast? ≠ some Token.underscore

theorem length_mark (form : IntForm) : form.mark.length = form.markLen := by cases form <;> rfl

theorem isDigitOf_base_iff : Token.isDigitOf form.base b = true ↔ form.IsDigit b := by
  have hall : ∀ n : Fin 256, Token.isDigitOf form.base (.ofFin n) = true ↔ form.IsDigit (.ofFin n) := by
    cases form <;> decide +kernel
  exact hall b.toFin

theorem isWord_mark (form : IntForm) : ∀ b ∈ form.mark, Token.isWord b = true :=
  List.all_eq_true.1 (by cases form <;> decide)

theorem IsLiteral.isWord {text : Bytes} (h : form.IsLiteral text) : ∀ b ∈ text, Token.isWord b = true := by
  have hdigit : ∀ n : Fin 256, form.IsDigit (.ofFin n) → Token.isWord (.ofFin n) = true := by
    cases form <;> decide +kernel
  obtain ⟨ds, rfl, -, hds, -⟩ := h
  intro b hb
  rcases List.mem_append.1 hb with hb | hb
  · exact form.isWord_mark b hb
  · rcases hds b hb with rfl | hb
    · decide
    · exact hdigit b.toFin hb

/-- Whatever its form, a literal begins with a decimal digit: marks begin with a zero. -/
theorem IsLiteral.exists_head {text : Bytes} (h : form.IsLiteral text) :
    ∃ b r, text = b :: r ∧ Token.isDecimal b = true := by
  obtain ⟨ds, rfl, hne, hds, hhead, -⟩ := h
  cases form with
  | plain =>
    obtain ⟨b, r, rfl⟩ := List.exists_cons_of_ne_nil hne
    have hb : IntForm.plain.IsDigit b := (hds b List.mem_cons_self).resolve_left fun h => hhead (congrArg some h)
    exact ⟨b, r, rfl, by simpa [Token.isDecimal, IsDigit] using hb⟩
  | binary | octal | decimal | hex => exact ⟨0x30, _ :: ds, rfl, by decide⟩

end IntForm

namespace Token

variable {src : Bytes} {kind : Kind} {len : Nat} {form : IntForm}

/-- Text of blanks alone: spaces, tabs and no-break spaces. -/
inductive Blank : Bytes → Prop where
  | nil : Blank []
  | space {w : Bytes} : Blank w → Blank (0x20 :: w)
  | tab {w : Bytes} : Blank w → Blank (0x09 :: w)
  | noBreak {w : Bytes} : Blank w → Blank (0xC2 :: 0xA0 :: w)

/-- The texts that are tokens of a kind. -/
inductive Spelled : Kind → Bytes → Prop where
  | space {w : Bytes} : w ≠ [] → Blank w → Spelled .space w
  | lineFeed : Spelled .newline [0x0A]
  | returnAndFeed : Spelled .newline [0x0D, 0x0A]
  | comment {w : Bytes} : (∀ b ∈ w, isLineEnd b = false) → Spelled .comment (0x2F :: 0x2F :: w)
  | sigil (s : Sigil) : Spelled (.sigil s) s.text
  | int {form : IntForm} {w : Bytes} : form.IsLiteral w → Spelled (.int form) w
  | ident {b : UInt8} {w : Bytes} : isDecimal b = false → (∀ c ∈ b :: w, isWord c = true) → Spelled .ident (b :: w)

/-- What follows does not go on with a token of the kind. -/
def Kind.Closed : Kind → Bytes → Prop
  | space, rest => ∀ w, Blank w → w <+: rest → w = []
  | comment, rest => ∀ b ∈ rest.head?, b = 0x0A ∨ b = 0x0D
  | int _, rest | ident, rest => ∀ b ∈ rest.head?, isWord b = false
  | _, _ => True

/-! ### Runs -/

theorem prefix_takeWhile {p : UInt8 → Bool} {w : Bytes} (hw : ∀ b ∈ w, p b = true) (h : w <+: src) :
    w <+: src.takeWhile p := by
  obtain ⟨r, rfl⟩ := h
  rw [List.takeWhile_append_of_pos hw]
  exact List.prefix_append w _

theorem head?_drop_takeWhile (p : UInt8 → Bool) (src : Bytes) :
    ∀ b ∈ (src.drop (src.takeWhile p).length).head?, p b = false := by
  intro b hb
  have hnot := List.head?_dropWhile_not p src
  rw [← drop_takeWhile, Option.mem_def.1 hb] at hnot
  exact hnot

theorem blank_take_spaceLen (src : Bytes) : Blank (src.take (spaceLen src)) := by
  fun_induction spaceLen src with
  | case1 | case4 => exact .nil
  | case2 r ih => exact .noBreak ih
  | case3 b r _ hb ih =>
    simp only [Bool.or_eq_true, decide_eq_true_eq] at hb
    rcases hb with rfl | rfl
    · exact .space ih
    · exact .tab ih

theorem Blank.length_le {w : Bytes} (hw : Blank w) (h : w <+: src) : w.length ≤ spaceLen src := by
  obtain ⟨r, rfl⟩ := h
  induction hw with
  | nil => exact Nat.zero_le _
  | space _ ih | tab _ ih => exact Nat.add_le_add_right ih 1
  | noBreak _ ih => exact Nat.add_le_add_right ih 2

theorem spaceLen_drop (src : Bytes) : spaceLen (src.drop (spaceLen src)) = 0 := by
  fun_induction spaceLen src with
  | case1 => rfl
  | case2 r ih => exact ih
  | case3 b r _ _ ih => exact ih
  | case4 b r hpair hb =>
    rw [List.drop_zero, spaceLen]
    · exact if_neg hb
    · exact hpair

/-! ### Literals -/

theorem wellFormedDigits_iff {ds : Bytes} : wellFormedDigits form.base ds = true ↔
    ds ≠ [] ∧ (∀ b ∈ ds, b = underscore ∨ form.IsDigit b) ∧
      ds.head? ≠ some underscore ∧ ds.getLast? ≠ some underscore := by
  simp only [wellFormedDigits, Bool.and_eq_true, List.all_eq_true, Bool.or_eq_true, beq_iff_eq,
    IntForm.isDigitOf_base_iff, Bool.not_eq_true', List.isEmpty_eq_false_iff, bne_iff_ne]
  tauto

theorem mark_intForm (src : Bytes) : (intForm src).mark <+: src := by
  unfold intForm
  split
  · split_ifs with hb ho hd hx
    · exact ⟨_, by rw [hb]; rfl⟩
    · exact ⟨_, by rw [ho]; rfl⟩
    · exact ⟨_, by rw [hd]; rfl⟩
    · exact ⟨_, by rw [hx]; rfl⟩
    · exact List.nil_prefix
  · exact List.nil_prefix

/-- A letter that tells a base is no decimal digit, so a literal has the form that its first two characters tell. -/
theorem intForm_of_isLiteral (h : form.IsLiteral (src.takeWhile isWord)) : intForm src = form := by
  obtain ⟨ds, hrun, -, hds, -⟩ := h
  cases form with
  | plain =>
    unfold intForm
    split
    · rename_i b r
      have hplain : isWord b = true → b = underscore ∨ IntForm.plain.IsDigit b := fun hb => by
        refine hds b ?_
        rw [List.takeWhile_cons, if_pos (by decide), List.takeWhile_cons, if_pos hb] at hrun
        rw [show ds = _ from hrun.symm]
        simp
      have hletter : b ≠ 0x62 ∧ b ≠ 0x6F ∧ b ≠ 0x64 ∧ b ≠ 0x78 := by
        refine ⟨?_, ?_, ?_, ?_⟩
        all_goals
          rintro rfl
          exact absurd (hplain (by decide)) (by decide)
      rw [if_neg hletter.1, if_neg hletter.2.1, if_neg hletter.2.2.1, if_neg hletter.2.2.2]
    · rfl
  | binary | octal | decimal | hex =>
    have hsrc := List.takeWhile_prefix isWord (l := src)
    rw [hrun] at hsrc
    obtain ⟨r, rfl⟩ := hsrc
    rfl

theorem isLiteral_run_iff : form.IsLiteral (src.takeWhile isWord) ↔
    intForm src = form ∧ wellFormedDigits form.base ((src.takeWhile isWord).drop form.markLen) = true := by
  constructor
  · intro h
    refine ⟨intForm_of_isLiteral h, ?_⟩
    obtain ⟨ds, hrun, hds⟩ := h
    rw [hrun, ← form.length_mark, List.drop_left]
    exact wellFormedDigits_iff.2 hds
  · rintro ⟨rfl, hds⟩
    have hrun := prefix_takeWhile (IntForm.isWord_mark _) (mark_intForm src)
    obtain ⟨ds, hrun⟩ := hrun
    refine ⟨ds, hrun.symm, wellFormedDigits_iff.1 ?_⟩
    rw [← hrun, ← IntForm.length_mark, List.drop_left] at hds
    exact hds

/-! ### One token -/

/-- What the tokenizer finds at the front of a text, by the first characters of the text. -/
inductive Scanned : Bytes → Kind → Nat → Prop where
  | space {src : Bytes} : 0 < spaceLen src → Scanned src .space (spaceLen src)
  | lineFeed {r : Bytes} : Scanned (0x0A :: r) .newline 1
  | returnAndFeed {r : Bytes} : Scanned (0x0D :: 0x0A :: r) .newline 2
  | comment {r : Bytes} :
      Scanned (0x2F :: 0x2F :: r) .comment ((0x2F :: 0x2F :: r).takeWhile (!isLineEnd ·)).length
  | sigil {s : Sigil} {r : Bytes} : Scanned (s.byte :: r) (.sigil s) 1
  | int {form : IntForm} {src : Bytes} : form.IsLiteral (src.takeWhile isWord) →
      Scanned src (.int form) (src.takeWhile isWord).length
  | ident {b : UInt8} {r : Bytes} : isDecimal b = false → isWord b = true →
      Scanned (b :: r) .ident ((b :: r).takeWhile isWord).length

theorem byte_of_ofByte? {s : Sigil} (h : Sigil.ofByte? b = some s) : s.byte = b := by
  unfold Sigil.ofByte? at h
  split_ifs at h <;> cases h <;> subst b <;> rfl

theorem scanned_of_scan (hne : src ≠ []) (h : scan src = .ok (kind, len)) :
    Scanned src kind len ∧ len ≤ maxTokenLen := by
  have hofLen : ∀ {k : Kind} {n : Nat}, ofLen k n = .ok (kind, len) → Scanned src k n →
      Scanned src kind len ∧ len ≤ maxTokenLen := by
    intro k n hlen hscanned
    unfold ofLen at hlen
    split_ifs at hlen with hlong
    cases hlen
    exact ⟨hscanned, Nat.not_lt.1 hlong⟩
  cases src with
  | nil => exact absurd rfl hne
  | cons b r =>
    rw [scan] at h
    split at h
    · rename_i hspace
      exact hofLen h (.space (spaceLen_pos hspace))
    split at h
    · rename_i hfeed
      cases h
      cases hfeed
      exact ⟨.lineFeed, by decide⟩
    split at h
    · rename_i hreturn
      split_ifs at h with hfeed
      cases h
      obtain ⟨t, rfl⟩ := List.head?_eq_some_iff.1 hfeed
      cases hreturn
      exact ⟨.returnAndFeed, by decide⟩
    split at h
    · rename_i hslash
      split_ifs at h with hsecond
      obtain ⟨t, rfl⟩ := List.head?_eq_some_iff.1 hsecond
      cases hslash
      exact hofLen h .comment
    split at h
    · rename_i s hs
      cases h
      cases byte_of_ofByte? hs
      exact ⟨.sigil, by decide⟩
    split_ifs at h with hdigit hword
    · simp only [scanInt] at h
      split_ifs at h with hdigits
      exact hofLen h (.int (isLiteral_run_iff.2 ⟨rfl, hdigits⟩))
    · exact hofLen h (.ident (by simpa using hdigit) hword)

theorem Scanned.le (h : Scanned src kind len) : len ≤ src.length := by
  cases h with
  | space => exact spaceLen_le src
  | lineFeed | returnAndFeed | sigil => simp
  | comment | int | ident => exact length_takeWhile_le _ _

theorem take_takeWhile (p : UInt8 → Bool) (src : Bytes) : src.take (src.takeWhile p).length = src.takeWhile p :=
  (List.prefix_iff_eq_take.1 (List.takeWhile_prefix p)).symm

theorem Scanned.spelled (h : Scanned src kind len) : Spelled kind (src.take len) := by
  cases h with
  | space hpos =>
    refine .space (fun hnil => ?_) (blank_take_spaceLen src)
    have hlen := congrArg List.length hnil
    rw [List.length_take, Nat.min_eq_left (spaceLen_le src)] at hlen
    exact absurd hlen (Nat.ne_of_gt hpos)
  | lineFeed => exact .lineFeed
  | returnAndFeed => exact .returnAndFeed
  | @comment r =>
    rw [take_takeWhile, List.takeWhile_cons, if_pos (by decide), List.takeWhile_cons, if_pos (by decide)]
    exact .comment fun b hb => by simpa using List.all_eq_true.1 List.all_takeWhile b hb
  | sigil => exact .sigil _
  | int hlit =>
    rw [take_takeWhile]
    exact .int hlit
  | @ident b r hdigit hword =>
    rw [take_takeWhile]
    have hall : ∀ c ∈ (b :: r).takeWhile isWord, isWord c = true := List.all_eq_true.1 List.all_takeWhile
    rw [List.takeWhile_cons, if_pos hword] at hall ⊢
    exact .ident hdigit hall

theorem Scanned.closed (h : Scanned src kind len) : kind.Closed (src.drop len) := by
  cases h with
  | space =>
    intro w hw hle
    have hlen := hw.length_le hle
    rw [spaceLen_drop] at hlen
    exact List.length_eq_zero_iff.1 (Nat.le_zero.1 hlen)
  | comment =>
    intro b hb
    have hend := head?_drop_takeWhile _ _ b hb
    simpa only [isLineEnd, Bool.not_eq_false', Bool.or_eq_true, beq_iff_eq] using hend
  | int | ident => exact head?_drop_takeWhile isWord _
  | lineFeed | returnAndFeed | sigil => trivial

theorem scan_word {r : Bytes} (h : isWord b = true) : scan (b :: r) =
    if isDecimal b then scanInt (b :: r) else ofLen .ident ((b :: r).takeWhile isWord).length := by
  obtain ⟨-, hsigil, h20, h09, hC2, h0A, h0D, h2F⟩ := isWord_byte h
  rw [scan, if_neg (by simp [h20, h09, hC2]), if_neg h0A, if_neg h0D, if_neg h2F, hsigil]
  simp only [h, if_true]

theorem length_of_scan_word {r : Bytes} (hb : isWord b = true) (h : scan (b :: r) = .ok (kind, len)) :
    len = ((b :: r).takeWhile isWord).length := by
  rw [scan_word hb] at h
  split_ifs at h
  · simp only [scanInt] at h
    split_ifs at h
    exact (ofLen_eq_ok h).2
  · exact (ofLen_eq_ok h).2

/-- No text at the front is a token and longer than the one that is found there. The first character settles how far
the tokenizer looks. -/
theorem Spelled.length_le {k : Kind} {w : Bytes} (hw : Spelled k w) (hle : w <+: src) (h : scan src = .ok (kind, len)) :
    w.length ≤ len := by
  cases hw with
  | space hne hblank =>
    have hscan : scan src = ofLen .space (spaceLen src) := by
      obtain ⟨r, rfl⟩ := hle
      cases hblank with
      | nil => exact absurd rfl hne
      | space | tab | noBreak => rfl
    rw [hscan] at h
    rw [(ofLen_eq_ok h).2]
    exact hblank.length_le hle
  | lineFeed =>
    obtain ⟨r, rfl⟩ := hle
    cases h
    exact Nat.le_refl _
  | returnAndFeed =>
    obtain ⟨r, rfl⟩ := hle
    cases h
    exact Nat.le_refl _
  | @comment w hw =>
    have hscan : scan src = ofLen .comment (src.takeWhile (!isLineEnd ·)).length := by
      obtain ⟨r, rfl⟩ := hle
      rfl
    rw [hscan] at h
    rw [(ofLen_eq_ok h).2]
    refine (prefix_takeWhile (fun b hb => ?_) hle).length_le
    rcases List.mem_cons.1 hb with rfl | hb
    · decide
    rcases List.mem_cons.1 hb with rfl | hb
    · decide
    · simp [hw b hb]
  | sigil s =>
    obtain ⟨r, rfl⟩ := hle
    cases (scan_sigil s r).symm.trans h
    exact Nat.le_refl _
  | int hlit =>
    obtain ⟨b, r, rfl, hb⟩ := hlit.exists_head
    have hrun := (prefix_takeWhile hlit.isWord hle).length_le
    obtain ⟨t, rfl⟩ := hle
    rwa [length_of_scan_word (isWord_of_isDecimal hb) h]
  | @ident b w _ hword =>
    have hrun := (prefix_takeWhile hword hle).length_le
    obtain ⟨t, rfl⟩ := hle
    rwa [length_of_scan_word (hword b List.mem_cons_self) h]

/-- A token at the front of what is left of a source. No token that could be cut off there is longer. -/
structure Munched (left : Bytes) (t : Token) : Prop where
  front : t.text <+: left
  nonempty : t.text ≠ []
  short : t.text.length ≤ maxTokenLen
  spelled : Spelled t.kind t.text
  longest : ∀ kind w, Spelled kind w → w <+: left → w.length ≤ t.text.length
  closed : t.kind.Closed (left.drop t.text.length)

theorem munched_of_scan (hne : src ≠ []) (h : scan src = .ok (kind, len)) : Munched src ⟨kind, src.take len⟩ := by
  obtain ⟨hscanned, hshort⟩ := scanned_of_scan hne h
  have hlen : (src.take len).length = len := by rw [List.length_take, Nat.min_eq_left hscanned.le]
  have hpos := (scan_pos hne h).1
  refine ⟨List.take_prefix _ _, List.ne_nil_of_length_pos ?_, ?_, hscanned.spelled, ?_, ?_⟩
  · rwa [hlen]
  · rwa [hlen]
  · intro k w hw hle
    rw [hlen]
    exact hw.length_le hle h
  · rw [hlen]
    exact hscanned.closed

/-! ### Requests -/

/-- The answer to a request for a token where `left` is left of a source, `offset` bytes into it. -/
def first (offset : Nat) (left : Bytes) : Except SyntaxError Token :=
  match scan left with
  | .ok (kind, len) => .ok ⟨kind, left.take len⟩
  | .error cause => .error ⟨cause, ⟨offset, errorLen cause⟩⟩

theorem Cut.drop_texts {rest : Bytes} {ts : List Token} (h : Cut src ts rest) : src.drop (texts ts).length = rest := by
  rw [h.src_eq, List.drop_left]

end Token

namespace TokenStream

open Token

/-- The stream after so many requests. -/
def after (ts : TokenStream) : Nat → TokenStream
  | 0 => ts
  | n + 1 => (ts.after n).advance

/-- The answer to the request that follows so many others. -/
def answer (ts : TokenStream) (n : Nat) : Except SyntaxError Token := (ts.after n).peek

theorem after_eq (ts : TokenStream) (n : Nat) :
    ts.after n = ⟨ts.tokens.drop n, ts.failure, ts.offset + (texts (ts.tokens.take n)).length⟩ := by
  induction n with
  | zero => rfl
  | succ n ih =>
    rw [after, ih, advance]
    cases hleft : ts.tokens.drop n with
    | nil =>
      have hlen := List.drop_eq_nil_iff.1 hleft
      rw [List.drop_of_length_le (by omega), List.take_of_length_le hlen, List.take_of_length_le (by omega)]
    | cons t rest =>
      have htake : ts.tokens.take (n + 1) = ts.tokens.take n ++ [t] := by
        rw [List.take_add_one, ← List.head?_drop, hleft]
        rfl
      have hdrop : ts.tokens.drop (n + 1) = rest := by rw [← List.tail_drop, hleft, List.tail_cons]
      rw [htake, hdrop, texts_append, List.length_append]
      simp [texts, Nat.add_assoc]

/-- What requests to a stream deliver: tokens side by side from the start of the source on, and from then on one answer
to every request. -/
structure Delivers (src : Bytes) (ts : TokenStream) (ds : List Token) : Prop where
  answers : ∀ n t, ds[n]? = some t → ts.answer n = .ok t
  /-- Each answer is for what is left of the source behind the tokens delivered so far. -/
  fresh : ∀ n, (ts.after n).offset = (texts (ds.take n)).length ∧
    ts.answer n = first (ts.after n).offset (src.drop (ts.after n).offset)
  munched : ∀ front t back, ds = front ++ t :: back → Munched (src.drop (texts front).length) t
  apart : ∀ front t u back, ds = front ++ t :: u :: back → ¬ (t.kind = .space ∧ u.kind = .space)
  /-- Tokens begin and end where characters do. -/
  whole : ∀ front back, ds = front ++ back → ∃ before behind : List Char,
    texts front = before.flatMap String.utf8EncodeChar ∧
      src.drop (texts front).length = behind.flatMap String.utf8EncodeChar
  stops : (src = texts ds ∧ ∀ n, ds.length ≤ n → ts.answer n = .ok ⟨.eof, []⟩) ∨
    ∃ e : SyntaxError, texts ds <+: src ∧ e.span.start = (texts ds).length ∧
      e.span.start + e.span.len ≤ src.length ∧ ∀ n, ds.length ≤ n → ts.answer n = .error e

variable {src : Bytes} {ts : TokenStream}

theorem answer_of_getElem? {n : Nat} {t : Token} (h : ts.tokens[n]? = some t) : ts.answer n = .ok t := by
  obtain ⟨rest, hrest⟩ := List.head?_eq_some_iff.1 ((List.head?_drop).trans h)
  rw [answer, after_eq, hrest]
  rfl

theorem answer_of_le {n : Nat} (h : ts.tokens.length ≤ n) :
    ts.answer n = ts.failure.elim (.ok ⟨.eof, []⟩) .error := by
  rw [answer, after_eq, List.drop_of_length_le h, peek]
  cases ts.failure <;> rfl

theorem answer_eq_first (h : ofSource src = .ok ts) (n : Nat) :
    (ts.after n).offset = (texts (ts.tokens.take n)).length ∧
      ts.answer n = first (ts.after n).offset (src.drop (ts.after n).offset) := by
  obtain ⟨-, hoffset, rest, hcut, hend⟩ := cut_ofSource h
  have hafter : (ts.after n).offset = (texts (ts.tokens.take n)).length := by rw [after_eq, hoffset, Nat.zero_add]
  refine ⟨hafter, ?_⟩
  rw [← List.take_append_drop n ts.tokens] at hcut
  obtain ⟨mid, htake, hdrop⟩ := cut_append_iff.1 hcut
  rw [hafter, htake.drop_texts]
  cases hleft : ts.tokens.drop n with
  | cons t more =>
    rw [hleft] at hdrop
    cases hdrop with
    | cons _ hscan _ =>
      rw [answer, after_eq, hleft, first, hscan]
      rfl
  | nil =>
    have hlen := List.drop_eq_nil_iff.1 hleft
    rw [hleft] at hdrop
    cases hdrop
    rw [answer_of_le hlen, List.take_of_length_le hlen]
    rcases hend with ⟨hnone, rfl⟩ | ⟨cause, -, hscan, hsome⟩
    · rw [hnone]
      rfl
    · rw [hsome, first, hscan]
      rfl

theorem munched_of_tokens (h : ofSource src = .ok ts) {front back : List Token} {t : Token}
    (hts : ts.tokens = front ++ t :: back) : Munched (src.drop (texts front).length) t := by
  obtain ⟨-, -, rest, hcut, -⟩ := cut_ofSource h
  rw [hts] at hcut
  obtain ⟨mid, hfront, hmid⟩ := cut_append_iff.1 hcut
  rw [hfront.drop_texts]
  cases hmid with
  | cons hne hscan _ => exact munched_of_scan hne hscan

theorem not_spaces_of_tokens (h : ofSource src = .ok ts) {front back : List Token} {t u : Token}
    (hts : ts.tokens = front ++ t :: u :: back) : ¬ (t.kind = .space ∧ u.kind = .space) := by
  rintro ⟨ht, hu⟩
  have hclosed := (munched_of_tokens h hts).closed
  have hnext := munched_of_tokens h (show ts.tokens = (front ++ [t]) ++ u :: back by simp [hts])
  rw [texts_append, List.length_append, ← List.drop_drop, texts_cons, show texts [] = [] from rfl,
    List.append_nil] at hnext
  have hspelled := hnext.spelled
  rw [hu] at hspelled
  rw [ht] at hclosed
  cases hspelled with
  | space _ hblank => exact hnext.nonempty (hclosed _ hblank hnext.front)

theorem exists_chars_of_tokens (h : ofSource src = .ok ts) {front back : List Token} (hts : ts.tokens = front ++ back) :
    ∃ before behind : List Char, texts front = before.flatMap String.utf8EncodeChar ∧
      src.drop (texts front).length = behind.flatMap String.utf8EncodeChar := by
  obtain ⟨hvalid, -, rest, hcut, -⟩ := cut_ofSource h
  rw [hts] at hcut
  obtain ⟨mid, hfront, -⟩ := cut_append_iff.1 hcut
  obtain ⟨behind, hbehind⟩ := Utf8.chars_of_valid (hfront.valid hvalid)
  obtain ⟨cs, hcs⟩ := Utf8.chars_of_valid hvalid
  have hsplit := hfront.src_eq
  rw [hbehind, hcs] at hsplit
  obtain ⟨before, hbefore⟩ := Utf8.exists_chars_front hsplit
  exact ⟨before, behind, hbefore, hfront.drop_texts.trans hbehind⟩

/-- Repeated requests deliver the source, cut into the longest tokens from left to right, up to its end or to the first
place where no token starts. -/
theorem requests_partition_source (h : ofSource src = .ok ts) : ∃ ds, Delivers src ts ds := by
  refine ⟨ts.tokens, fun n t => answer_of_getElem?, answer_eq_first h, fun _ _ _ => munched_of_tokens h,
    fun _ _ _ _ => not_spaces_of_tokens h, fun _ _ => exists_chars_of_tokens h, ?_⟩
  obtain ⟨hvalid, -, rest, hcut, hend⟩ := cut_ofSource h
  have hsrc := hcut.src_eq
  rcases hend with ⟨hnone, rfl⟩ | ⟨cause, hne, hscan, hsome⟩
  · refine .inl ⟨hsrc.trans (List.append_nil _), fun n hn => ?_⟩
    rw [answer_of_le hn, hnone]
    rfl
  · refine .inr ⟨⟨cause, ⟨(texts ts.tokens).length, errorLen cause⟩⟩, ⟨rest, hsrc.symm⟩, rfl, ?_, fun n hn => ?_⟩
    · have hfound := found_scan hne (hcut.valid hvalid)
      rw [hscan] at hfound
      cases hfound with
      | fault _ _ hlen =>
        have hall := congrArg List.length hsrc
        rw [List.length_append] at hall
        dsimp only
        omega
    · rw [answer_of_le hn, hsome]
      rfl

/-- A name, blanks of two bytes and of one, a comment, a line end, a literal and a colon, in front of what looks like a
literal. -/
theorem requests_partition_mixed_source :
    let src : Bytes := [0x61, 0xC2, 0xA0, 0x09, 0x2F, 0x2F, 0xC3, 0xA9, 0x0D, 0x0A, 0x30, 0x78, 0x31, 0x5F, 0x46, 0x3A,
      0x30, 0x62, 0x32]
    let ts : TokenStream := ⟨[⟨.ident, [0x61]⟩, ⟨.space, [0xC2, 0xA0, 0x09]⟩, ⟨.comment, [0x2F, 0x2F, 0xC3, 0xA9]⟩,
      ⟨.newline, [0x0D, 0x0A]⟩, ⟨.int .hex, [0x30, 0x78, 0x31, 0x5F, 0x46]⟩, ⟨.sigil .colon, [0x3A]⟩],
      some ⟨.invalidInt [0x30, 0x62, 0x32], ⟨16, 3⟩⟩, 0⟩
    ofSource src = .ok ts ∧ ∃ ds, Delivers src ts ds := by
  intro src ts
  have hsource : ofSource src = .ok ts := by decide +kernel
  exact ⟨hsource, requests_partition_source hsource⟩

end TokenStream

end Flatwire
