import Flatwire.Proofs.Parsing

/-! Text made of tokens. Tokens that are written side by side are found again as long as no word touches another, so
sequences whose fields have plain names as types are parsed to what was written. -/

namespace Flatwire

namespace Utf8

theorem valid_of_ascii {bs : Bytes} (h : ∀ b ∈ bs, b.toNat < 0x80) : valid bs = true := by
  induction bs with
  | nil => rfl
  | cons b bs ih =>
    rw [valid, units_char (first?_one (h b List.mem_cons_self)) Nat.one_pos, List.all_cons]
    exact ih fun c hc => h c (List.mem_cons_of_mem b hc)

end Utf8

namespace Token

variable {ts : List Token}

theorem isWord_byte {b : UInt8} (h : isWord b = true) : b.toNat < 0x80 ∧ Sigil.ofByte? b = none ∧
    b ≠ 0x20 ∧ b ≠ 0x09 ∧ b ≠ 0xC2 ∧ b ≠ 0x0A ∧ b ≠ 0x0D ∧ b ≠ 0x2F := by
  have hall : ∀ n : Fin 256, isWord (.ofFin n) = true → (UInt8.ofFin n).toNat < 0x80 ∧
      Sigil.ofByte? (.ofFin n) = none ∧ UInt8.ofFin n ≠ 0x20 ∧ UInt8.ofFin n ≠ 0x09 ∧ UInt8.ofFin n ≠ 0xC2 ∧
      UInt8.ofFin n ≠ 0x0A ∧ UInt8.ofFin n ≠ 0x0D ∧ UInt8.ofFin n ≠ 0x2F := by
    decide +kernel
  exact hall b.toFin h

/-- A word that can be written as a name. -/
def isName (w : Bytes) : Bool := w.head?.any (fun b => !isDecimal b) && w.all isWord && decide (w.length ≤ maxTokenLen)

theorem takeWhile_word {w rest : Bytes} (hw : ∀ b ∈ w, isWord b = true) (hrest : ∀ b ∈ rest.head?, isWord b = false) :
    (w ++ rest).takeWhile isWord = w := by
  rw [List.takeWhile_append_of_pos hw]
  cases rest with
  | nil => exact List.append_nil w
  | cons b r => rw [List.takeWhile_cons_of_neg (by simp [hrest b rfl]), List.append_nil]

theorem scan_name {w rest : Bytes} (hw : isName w = true) (hrest : ∀ b ∈ rest.head?, isWord b = false) :
    scan (w ++ rest) = .ok (.ident, w.length) := by
  cases w with
  | nil => cases hw
  | cons b r =>
    simp only [isName, List.head?_cons, Option.any_some, Bool.and_eq_true, List.all_eq_true, decide_eq_true_eq,
      Bool.not_eq_true'] at hw
    obtain ⟨⟨hdigit, hword⟩, hlength⟩ := hw
    have hb := hword b List.mem_cons_self
    obtain ⟨-, hsigil, h20, h09, hC2, h0A, h0D, h2F⟩ := isWord_byte hb
    have htake : (b :: (r ++ rest)).takeWhile isWord = b :: r := takeWhile_word hword hrest
    rw [List.cons_append, scan, if_neg (by simp [h20, h09, hC2]), if_neg h0A, if_neg h0D, if_neg h2F, hsigil]
    simp only [hdigit, hb, htake, Bool.false_eq_true, if_false, if_true]
    rw [ofLen, if_neg (Nat.not_lt.2 hlength)]

theorem scan_sigil (s : Sigil) (rest : Bytes) : scan (s.byte :: rest) = .ok (.sigil s, 1) := by
  cases s <;> rfl

theorem scan_blank {w rest : Bytes} (hw : isName w = true) : scan (0x20 :: (w ++ rest)) = .ok (.space, 1) := by
  cases w with
  | nil => cases hw
  | cons b r =>
    have hb : isWord b = true := by
      simp only [isName, Bool.and_eq_true, List.all_eq_true] at hw
      exact hw.1.2 b List.mem_cons_self
    obtain ⟨-, -, h20, h09, hC2, -⟩ := isWord_byte hb
    have hlen : spaceLen (b :: r ++ rest) = 0 := by
      rw [List.cons_append, spaceLen]
      · simp [h20, h09]
      · exact fun r' hb' _ => hC2 hb'
    have hspace : spaceLen (0x20 :: (b :: r ++ rest)) = spaceLen (b :: r ++ rest) + 1 := rfl
    rw [scan, if_pos (by simp), hspace, hlen]
    rfl

/-- Tokens that can be written side by side: signs, names that no name follows, and blanks in front of names. -/
inductive Rendered : List Token → Prop where
  | nil : Rendered []
  | sigil {s ts} : Rendered ts → Rendered (⟨.sigil s, s.text⟩ :: ts)
  | name {w ts} : isName w = true → (∀ t ∈ ts.head?, t.kind ≠ .ident) → Rendered ts → Rendered (⟨.ident, w⟩ :: ts)
  | blank {w ts} : Rendered (⟨.ident, w⟩ :: ts) → Rendered (⟨.space, [0x20]⟩ :: ⟨.ident, w⟩ :: ts)

/-- The text of the tokens. -/
def render (ts : List Token) : Bytes := ts.flatMap Token.text

theorem Rendered.head_not_word (h : Rendered ts) (hts : ∀ t ∈ ts.head?, t.kind ≠ .ident) :
    ∀ b ∈ (render ts).head?, isWord b = false := by
  intro b hb
  cases h with
  | nil => cases hb
  | @sigil s =>
    cases hb
    cases s <;> decide
  | name => exact absurd rfl (hts _ rfl)
  | blank =>
    cases hb
    decide

theorem tokenizes_cons {t : Token} {rest : Bytes} (hne : t.text ≠ [])
    (hscan : scan (t.text ++ rest) = .ok (t.kind, t.text.length)) (h : Tokenizes rest ts) :
    Tokenizes (t.text ++ rest) (t :: ts) := by
  have htake : (t.text ++ rest).take t.text.length = t.text := List.take_left
  have htail : Tokenizes ((t.text ++ rest).drop t.text.length) ts := by
    rw [List.drop_left]
    exact h
  have hcons := Tokenizes.cons (by simp [hne]) hscan htail
  rw [htake] at hcons
  exact hcons

theorem Rendered.tokenizes (h : Rendered ts) : Tokenizes (render ts) ts := by
  induction h with
  | nil => exact .nil
  | @sigil s ts _ ih => exact tokenizes_cons (t := ⟨.sigil s, s.text⟩) (by simp [Sigil.text]) (scan_sigil s _) ih
  | @name w ts hw hts h ih =>
    have hne : w ≠ [] := by
      rintro rfl
      cases hw
    exact tokenizes_cons (t := ⟨.ident, w⟩) hne (scan_name hw (h.head_not_word hts)) ih
  | @blank w ts h ih =>
    have hw : isName w = true := by
      cases h with
      | name hw => exact hw
    have hscan : scan (0x20 :: (w ++ render ts)) = .ok (.space, 1) := scan_blank hw
    exact tokenizes_cons (t := ⟨.space, [0x20]⟩) (by simp) hscan ih

theorem Rendered.plain (h : Rendered ts) : ∀ t ∈ ts, (∀ b ∈ t.text, b.toNat < 0x80) ∧ ∀ form, t.kind ≠ .int form := by
  induction h with
  | nil => simp
  | @sigil s _ _ ih =>
    refine List.forall_mem_cons.2 ⟨⟨fun b hb => ?_, by simp⟩, ih⟩
    obtain rfl := List.mem_singleton.1 hb
    cases s <;> decide
  | @name w _ hw _ _ ih =>
    refine List.forall_mem_cons.2 ⟨⟨fun b hb => ?_, by simp⟩, ih⟩
    simp only [isName, Bool.and_eq_true, List.all_eq_true] at hw
    exact (isWord_byte (hw.1.2 b hb)).1
  | blank _ ih => exact List.forall_mem_cons.2 ⟨⟨by simp, by simp⟩, ih⟩

theorem Rendered.valid (h : Rendered ts) : Utf8.valid (render ts) = true := by
  apply Utf8.valid_of_ascii
  intro b hb
  obtain ⟨t, ht, hb⟩ := List.mem_flatMap.1 hb
  exact (h.plain t ht).1 b hb

end Token

/-! ### Flat sequences -/

/-- A sequence whose fields have names of types, given with the names of the fields. -/
structure FlatSequence where
  name : Bytes
  fields : List (Bytes × Bytes)

namespace FlatSequence

open Token (Rendered)

variable {qs : List FlatSequence} {fs : List (Bytes × Bytes)}

def fieldTokens (f : Bytes × Bytes) : List Token :=
  [⟨.ident, f.1⟩, ⟨.sigil .colon, Sigil.text .colon⟩, ⟨.ident, f.2⟩, ⟨.sigil .semicolon, Sigil.text .semicolon⟩]

def tokens (q : FlatSequence) : List Token :=
  ⟨.ident, "sequence"⟩ :: ⟨.space, [0x20]⟩ :: ⟨.ident, q.name⟩ :: ⟨.sigil .openCurl, Sigil.text .openCurl⟩ ::
    (q.fields.flatMap fieldTokens ++ [⟨.sigil .closeCurl, Sigil.text .closeCurl⟩])

/-- The sequences one after the other. -/
def source (qs : List FlatSequence) : Bytes := Token.render (qs.flatMap tokens)

def forms (q : FlatSequence) : DeclForm :=
  .sequence q.name (q.fields.foldr (fun f fs => .cons f.1 (.name f.2) fs) .nil)

/-- All names can be written as such, and no type is the word that begins a union. -/
def Proper (q : FlatSequence) : Prop :=
  Token.isName q.name = true ∧ ∀ f ∈ q.fields, Token.isName f.1 = true ∧ Token.isName f.2 = true ∧ f.2 ≠ "oneof"

theorem rendered_fields {ts : List Token} (hfs : ∀ f ∈ fs, Token.isName f.1 = true ∧ Token.isName f.2 = true)
    (h : Rendered ts) : Rendered (fs.flatMap fieldTokens ++ ts) := by
  induction fs with
  | nil => exact h
  | cons f fs ih =>
    obtain ⟨hname, htype⟩ := hfs f List.mem_cons_self
    have hrest := ih fun g hg => hfs g (List.mem_cons_of_mem f hg)
    exact .name hname (by simp) (.sigil (.name htype (by simp) (.sigil hrest)))

theorem rendered_tokens (hqs : ∀ q ∈ qs, q.Proper) : Rendered (qs.flatMap tokens) := by
  induction qs with
  | nil => exact .nil
  | cons q qs ih =>
    obtain ⟨hname, hfields⟩ := hqs q List.mem_cons_self
    have hrest := ih fun p hp => hqs p (List.mem_cons_of_mem q hp)
    rw [List.flatMap_cons, tokens]
    simp only [List.cons_append, List.append_assoc, List.nil_append]
    refine .name (by decide) (by simp) (.blank (.name hname (by simp) (.sigil ?_)))
    exact rendered_fields (fun f hf => ⟨(hfields f hf).1, (hfields f hf).2.1⟩) (.sigil hrest)

open Grammar

theorem areFields (hfs : ∀ f ∈ fs, f.2 ≠ "oneof") :
    AreFields (fs.flatMap fieldTokens) (fs.foldr (fun f fs => .cons f.1 (.name f.2) fs) .nil) := by
  induction fs with
  | nil => exact .nil
  | cons f fs ih =>
    have hrest := ih fun g hg => hfs g (List.mem_cons_of_mem f hg)
    refine .cons (n := ⟨.ident, f.1⟩) rfl rfl (.name (t := ⟨.ident, f.2⟩) rfl ?_) rfl hrest
    exact fun hword => hfs f List.mem_cons_self hword.2

theorem significant_fields (fs : List (Bytes × Bytes)) :
    Token.significant (fs.flatMap fieldTokens) = fs.flatMap fieldTokens := by
  rw [Token.significant, List.filter_eq_self]
  intro t ht
  obtain ⟨f, -, ht⟩ := List.mem_flatMap.1 ht
  simp only [fieldTokens, List.mem_cons, List.not_mem_nil, or_false] at ht
  rcases ht with rfl | rfl | rfl | rfl <;> rfl

theorem significant_tokens (q : FlatSequence) (ts : List Token) : Token.significant (q.tokens ++ ts) =
    ⟨.ident, "sequence"⟩ :: ⟨.ident, q.name⟩ :: ⟨.sigil .openCurl, Sigil.text .openCurl⟩ ::
      q.fields.flatMap fieldTokens ++ [⟨.sigil .closeCurl, Sigil.text .closeCurl⟩] ++ Token.significant ts := by
  have hfields := significant_fields q.fields
  simp only [Token.significant, tokens, List.filter_append, List.filter_cons] at hfields ⊢
  rw [hfields]
  rfl

theorem isSchema (hqs : ∀ q ∈ qs, q.Proper) : IsSchema (Token.significant (qs.flatMap tokens)) (qs.map forms) := by
  induction qs with
  | nil => exact .nil
  | cons q qs ih =>
    have hrest := ih fun p hp => hqs p (List.mem_cons_of_mem q hp)
    have hfields := areFields fun f hf => ((hqs q List.mem_cons_self).2 f hf).2.2
    rw [List.flatMap_cons, significant_tokens, List.map_cons]
    exact .cons (.sequence ⟨rfl, rfl⟩ rfl rfl hfields rfl) hrest

theorem length_fields_le {n : Nat} (hn : 1 ≤ n) (hfs : ∀ f ∈ fs, f.1.length ≤ n ∧ f.2.length ≤ n) :
    (Token.render (fs.flatMap fieldTokens)).length ≤ n * (4 * fs.length) := by
  induction fs with
  | nil => exact Nat.zero_le _
  | cons f fs ih =>
    obtain ⟨hname, htype⟩ := hfs f List.mem_cons_self
    have hrest := ih fun g hg => hfs g (List.mem_cons_of_mem f hg)
    have hlen : (Token.render ((f :: fs).flatMap fieldTokens)).length =
        f.1.length + f.2.length + 2 + (Token.render (fs.flatMap fieldTokens)).length := by
      simp [Token.render, fieldTokens, Sigil.text]
      omega
    rw [hlen, List.length_cons, Nat.mul_add 4, Nat.mul_add n]
    omega

theorem length_source_le {n : Nat} (hn : 8 ≤ n)
    (hqs : ∀ q ∈ qs, q.name.length ≤ n ∧ ∀ f ∈ q.fields, f.1.length ≤ n ∧ f.2.length ≤ n) :
    (source qs).length ≤ n * (qs.map fun q => 5 + 4 * q.fields.length).sum := by
  induction qs with
  | nil => exact Nat.zero_le _
  | cons q qs ih =>
    obtain ⟨hname, hfields⟩ := hqs q List.mem_cons_self
    have hrest := ih fun p hp => hqs p (List.mem_cons_of_mem q hp)
    have hword : (Bytes.ofString "sequence").length = 8 := by decide +kernel
    have hlen : (source (q :: qs)).length =
        11 + q.name.length + (Token.render (q.fields.flatMap fieldTokens)).length + (source qs).length := by
      simp [source, Token.render, tokens, Sigil.text, hword]
      omega
    have hfields := length_fields_le (Nat.le_trans (by decide) hn) hfields
    rw [hlen, List.map_cons, List.sum_cons, Nat.mul_add, Nat.mul_add]
    omega

theorem parse_source (hqs : ∀ q ∈ qs, q.Proper) (hlen : (source qs).length ≤ maxSourceLen) (keep : Bool) :
    ∃ tree, SchemaTree.parse (source qs) keep = .ok tree ∧ tree.forms = qs.map forms := by
  have hrendered := rendered_tokens hqs
  refine SchemaTree.parse_complete keep hlen hrendered.valid hrendered.tokenizes (isSchema hqs) fun t ht form hk => ?_
  exact absurd hk ((hrendered.plain t (List.mem_filter.1 ht).1).2 form)

end FlatSequence

end Flatwire
