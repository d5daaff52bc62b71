import Mathlib.Data.List.Induction
import Mathlib.Tactic.Ring
import Flatwire.Proofs.Grammar
import Flatwire.Proofs.Memory
import Flatwire.Proofs.Utf8

/-! The parser accepts exactly the sentences of the grammar, and its tree has the sentence's form. Parsers are followed
by the significant tokens that they take from the stream; gaps take none. -/

namespace Flatwire

variable {form : IntForm}

namespace Token

variable {ts : List Token}

theorem significant_trivia {t : Token} (h : t.kind.isTrivia = true) : significant (t :: ts) = significant ts := by
  simp [significant, h]

theorem significant_cons {t : Token} (h : t.kind.isTrivia = false) : significant (t :: ts) = t :: significant ts := by
  simp [significant, h]

theorem mem_significant_of_int {t : Token} (h : t ∈ ts) (hk : t.kind = .int form) : t ∈ significant ts :=
  List.mem_filter.2 ⟨h, by simp [hk, Kind.isTrivia]⟩

theorem digitsValue_eq (base : Nat) (ds : Bytes) :
    Parser.digitsValue base ds = Nat.ofDigits base (ds.filterMap digitValue?).reverse := by
  induction ds using List.reverseRecOn with
  | nil => rfl
  | append_singleton ds b ih =>
    rw [Parser.digitsValue, List.foldl_append, ← Parser.digitsValue, ih, List.filterMap_append]
    cases hb : digitValue? b with
    | none => simp [hb]
    | some d =>
      simp [hb, Nat.ofDigits_cons]
      ring

/-- The number of a literal fits into 64 bits. -/
def Fits (t : Token) : Prop := ∀ form, t.kind = .int form → number form t.text < 2 ^ 64

theorem intValue_eq (form : IntForm) (text : Bytes) : Parser.intValue form text = number form text :=
  digitsValue_eq form.base (text.drop form.markLen)

end Token

namespace TokenStream

/-- The significant tokens that are left. -/
def core (ts : TokenStream) : List Token := Token.significant ts.tokens

/-- No blank, line end or comment stands in front. -/
def Ready (ts : TokenStream) : Prop := ∀ t ∈ ts.tokens.head?, t.kind.isTrivia = false

/-- The second stream is the first one without the given tokens, whose numbers fit, and what stands between them. -/
structure Leaves (ts : TokenStream) (w : List Token) (ts' : TokenStream) : Prop where
  core : ts.core = w ++ ts'.core
  failure : ts'.failure = ts.failure
  fits : ∀ t ∈ w, t.Fits

variable {a b c : TokenStream} {w v : List Token} {t : Token}

theorem Leaves.trans (h : a.Leaves w b) (h' : b.Leaves v c) : a.Leaves (w ++ v) c where
  core := by rw [h.core, h'.core, List.append_assoc]
  failure := h'.failure.trans h.failure
  fits := List.forall_mem_append.2 ⟨h.fits, h'.fits⟩

theorem core_advance {r : List Token} (h : a.tokens = t :: r) (ht : t.kind.isTrivia = false) :
    a.core = t :: a.advance.core := by
  simp [core, advance, h, Token.significant_cons ht]

theorem failure_advance (a : TokenStream) : a.advance.failure = a.failure := by
  unfold advance
  split <;> rfl

theorem Ready.tokens_eq {w : List Token} (hr : a.Ready) (h : a.core = t :: w) :
    ∃ r, a.tokens = t :: r ∧ t.kind.isTrivia = false := by
  cases hts : a.tokens with
  | nil => simp [core, Token.significant, hts] at h
  | cons u r =>
    have hu : u.kind.isTrivia = false := hr u (by rw [hts]; rfl)
    rw [core, hts, Token.significant_cons hu] at h
    cases h
    exact ⟨r, rfl, hu⟩

theorem Ready.tokens_eq_nil (hr : a.Ready) (h : a.core = []) : a.tokens = [] := by
  cases hts : a.tokens with
  | nil => rfl
  | cons u r =>
    have hu : u.kind.isTrivia = false := hr u (by rw [hts]; rfl)
    rw [core, hts, Token.significant_cons hu] at h
    cases h

end TokenStream

namespace Parser

open TokenStream

variable {α β : Type} {ts ts' : TokenStream} {t : Token} {l : Lexeme} {keep : Bool} {w : List Token}

/-! ### Steps -/

theorem bind_eq_ok {p : Parser α} {f : α → Parser β} {b : β} : (p >>= f) ts = .ok (b, ts') ↔
    ∃ a ts₁, p ts = .ok (a, ts₁) ∧ f a ts₁ = .ok (b, ts') := by
  change (p ts >>= fun x => f x.1 x.2) = .ok (b, ts') ↔ _
  cases hp : p ts with
  | error e =>
    constructor
    · intro h
      cases h
    · rintro ⟨_, _, h, -⟩
      cases h
  | ok x =>
    constructor
    · intro h
      exact ⟨x.1, x.2, rfl, h⟩
    · rintro ⟨_, _, h, hf⟩
      cases h
      exact hf

theorem bind_of_ok {p : Parser α} {f : α → Parser β} {a : α} (h : p ts = .ok (a, ts')) : (p >>= f) ts = f a ts' := by
  change (p ts >>= fun x => f x.1 x.2) = _
  rw [h]
  rfl

theorem pure_eq_ok {a b : α} : (pure a : Parser α) ts = .ok (b, ts') ↔ b = a ∧ ts' = ts := by
  constructor
  · intro h
    cases h
    exact ⟨rfl, rfl⟩
  · rintro ⟨rfl, rfl⟩
    rfl

theorem peek_eq_ok (h : peek ts = .ok (t, ts')) :
    ts' = ts ∧ ((∃ r, ts.tokens = t :: r) ∨ ts.tokens = [] ∧ ts.failure = none ∧ t = ⟨.eof, []⟩) := by
  rw [peek, TokenStream.peek] at h
  cases hts : ts.tokens with
  | cons u r =>
    rw [hts] at h
    cases h
    exact ⟨rfl, .inl ⟨r, rfl⟩⟩
  | nil =>
    cases hf : ts.failure with
    | some e =>
      rw [hts, hf] at h
      cases h
    | none =>
      rw [hts, hf] at h
      cases h
      exact ⟨rfl, .inr ⟨rfl, rfl, rfl⟩⟩

theorem peek_bind_eq_ok {f : Token → Parser β} {b : β} (h : (peek >>= f) ts = .ok (b, ts')) :
    ∃ t, peek ts = .ok (t, ts) ∧ f t ts = .ok (b, ts') := by
  obtain ⟨t, ts₁, hpeek, hf⟩ := bind_eq_ok.1 h
  obtain ⟨rfl, -⟩ := peek_eq_ok hpeek
  exact ⟨t, hpeek, hf⟩

theorem peek_of_tokens {r : List Token} (h : ts.tokens = t :: r) : peek ts = .ok (t, ts) := by
  simp [peek, TokenStream.peek, h, Except.map]

theorem take_leaves (h : peek ts = .ok (t, ts)) (htake : take t ts = .ok (l, ts')) (ht : t.kind.isTrivia = false)
    (heof : t.kind ≠ .eof) (hfits : t.Fits) : ts.Leaves [t] ts' ∧ l.text = t.text := by
  cases htake
  obtain ⟨-, ⟨r, hr⟩ | ⟨-, -, rfl⟩⟩ := peek_eq_ok h
  · exact ⟨⟨core_advance hr ht, failure_advance ts, by simpa using hfits⟩, rfl⟩
  · exact absurd rfl heof

theorem splitGap_trivia (offset : Nat) (tokens : List Token) (h : t.kind.isTrivia = true) :
    (splitGap offset (t :: tokens)).2 = (splitGap (offset + t.text.length) tokens).2 := by
  cases hk : t.kind <;> simp_all [splitGap, Token.Kind.isTrivia]

theorem splitGap_significant (offset : Nat) (tokens : List Token) (h : t.kind.isTrivia = false) :
    splitGap offset (t :: tokens) = ([], offset, t :: tokens) := by
  cases hk : t.kind <;> simp_all [splitGap, Token.Kind.isTrivia]

theorem splitGap_spec (offset : Nat) (tokens : List Token) :
    Token.significant (splitGap offset tokens).2.2 = Token.significant tokens ∧
      ∀ t ∈ (splitGap offset tokens).2.2.head?, t.kind.isTrivia = false := by
  induction tokens generalizing offset with
  | nil => simp [splitGap]
  | cons t tokens ih =>
    cases h : t.kind.isTrivia with
    | true =>
      obtain ⟨hcore, hready⟩ := ih (offset + t.text.length)
      rw [splitGap_trivia offset tokens h, Token.significant_trivia h]
      exact ⟨hcore, hready⟩
    | false =>
      rw [splitGap_significant offset tokens h]
      refine ⟨rfl, fun u hu => ?_⟩
      cases hu
      exact h

/-- The stream behind the gap in front. -/
def skipGap (ts : TokenStream) : TokenStream :=
  { ts with tokens := (splitGap ts.offset ts.tokens).2.2, offset := (splitGap ts.offset ts.tokens).2.1 }

theorem core_skipGap (ts : TokenStream) : (skipGap ts).core = ts.core := (splitGap_spec ts.offset ts.tokens).1

theorem ready_skipGap (ts : TokenStream) : (skipGap ts).Ready := (splitGap_spec ts.offset ts.tokens).2

theorem gap_leaves {g : Gap} (h : gap keep ts = .ok (g, ts')) : ts.Leaves [] ts' := by
  cases h
  exact ⟨(core_skipGap ts).symm, rfl, by simp⟩

theorem spanFrom_eq_ok {start : Nat} {s : Span} (h : spanFrom start ts = .ok (s, ts')) : ts' = ts := by
  cases h
  rfl

theorem isWord_iff {word : String} : isWord t word = true ↔ t.IsWord word := by
  simp [isWord, Token.IsWord]

/-! ### What is accepted is a sentence -/

section Sound

theorem takeIdent_leaves (h : peek ts = .ok (t, ts)) (htake : take t ts = .ok (l, ts')) (hk : t.kind = .ident) :
    ts.Leaves [t] ts' ∧ l.text = t.text :=
  take_leaves h htake (by simp [hk, Token.Kind.isTrivia]) (by simp [hk]) (by simp [Token.Fits, hk])

theorem takeSigil_leaves {s : Sigil} (h : peek ts = .ok (t, ts)) (htake : take t ts = .ok (l, ts'))
    (hk : t.kind = .sigil s) : ts.Leaves [t] ts' :=
  (take_leaves h htake (by simp [hk, Token.Kind.isTrivia]) (by simp [hk]) (by simp [Token.Fits, hk])).1

theorem sigil_sound {s : Sigil} (h : sigil s ts = .ok (l, ts')) : ∃ t, t.kind = .sigil s ∧ ts.Leaves [t] ts' := by
  obtain ⟨t, hpeek, htake⟩ := peek_bind_eq_ok h
  split_ifs at htake with hk
  · exact ⟨t, hk, takeSigil_leaves hpeek htake hk⟩
  · cases htake

theorem ident_sound (h : ident ts = .ok (l, ts')) : ∃ t, t.kind = .ident ∧ l.text = t.text ∧ ts.Leaves [t] ts' := by
  obtain ⟨t, hpeek, htake⟩ := peek_bind_eq_ok h
  split_ifs at htake with hk
  · obtain ⟨hleaves, htext⟩ := takeIdent_leaves hpeek htake hk
    exact ⟨t, hk, htext, hleaves⟩
  · cases htake

theorem int_sound {i : IntLit} (h : int ts = .ok (i, ts')) :
    ∃ t form, t.kind = .int form ∧ i.value.toNat = Token.number form t.text ∧ ts.Leaves [t] ts' := by
  obtain ⟨t, hpeek, hvalue⟩ := peek_bind_eq_ok h
  cases hk : t.kind with
  | int form =>
    simp only [hk, Token.intValue_eq] at hvalue
    split_ifs at hvalue with hlt
    · obtain ⟨l, ts₂, htake, hpure⟩ := bind_eq_ok.1 hvalue
      obtain ⟨rfl, rfl⟩ := pure_eq_ok.1 hpure
      have hfits : t.Fits := by
        intro form' hk'
        cases hk.symm.trans hk'
        exact hlt
      exact ⟨t, form, hk, UInt64.toNat_ofNat_of_lt' hlt,
        (take_leaves hpeek htake (by simp [hk, Token.Kind.isTrivia]) (by simp [hk]) hfits).1⟩
    · cases hvalue
  | _ =>
    simp only [hk] at hvalue
    cases hvalue

def TypeSound (keep : Bool) (fuel : Nat) : Prop :=
  ∀ {ts ts' e}, typeExpr keep fuel ts = .ok (e, ts') → ∃ w, ts.Leaves w ts' ∧ Grammar.IsType w e.form

def FieldsSound (keep : Bool) (fuel : Nat) : Prop :=
  ∀ {ts ts' fs l}, fields keep fuel ts = .ok ((fs, l), ts') →
    ∃ w c, ts.Leaves (w ++ [c]) ts' ∧ Grammar.AreFields w fs.forms ∧ c.kind = .sigil .closeCurl

variable {fuel : Nat}

theorem typeSound_succ (ihType : TypeSound keep fuel) (ihFields : FieldsSound keep fuel) : TypeSound keep (fuel + 1) := by
  intro ts ts' e h
  rw [typeExpr] at h
  obtain ⟨start, ts₁, hstart, h⟩ := bind_eq_ok.1 h
  cases hstart
  obtain ⟨t, hpeek, h⟩ := peek_bind_eq_ok h
  split_ifs at h with hopen hword hident
  · simp only [bind_eq_ok, pure_eq_ok] at h
    obtain ⟨o, s₁, ho, g₁, s₂, hg₁, elem, s₃, helem, g₂, s₄, hg₂, c, s₅, hc, span, s₆, hspan, rfl, rfl⟩ := h
    obtain rfl := spanFrom_eq_ok hspan
    obtain ⟨w, hw, htype⟩ := ihType helem
    obtain ⟨tClose, hkClose, hc⟩ := sigil_sound hc
    refine ⟨t :: w ++ [tClose], ?_, .list hopen htype hkClose⟩
    have hbegin := (takeSigil_leaves hpeek ho hopen).trans (gap_leaves hg₁)
    simpa using (hbegin.trans hw).trans ((gap_leaves hg₂).trans hc)
  · rw [isWord_iff] at hword
    simp only [bind_eq_ok, pure_eq_ok] at h
    obtain ⟨k, s₁, hk, g₁, s₂, hg₁, o, s₃, ho, g₂, s₄, hg₂, ⟨vs, c⟩, s₅, hvs, span, s₆, hspan, rfl, rfl⟩ := h
    obtain rfl := spanFrom_eq_ok hspan
    obtain ⟨tOpen, hkOpen, ho⟩ := sigil_sound ho
    obtain ⟨w, tClose, hw, hfields, hkClose⟩ := ihFields hvs
    refine ⟨t :: tOpen :: w ++ [tClose], ?_, .oneOf hword hkOpen hfields hkClose⟩
    have hbegin := (takeIdent_leaves hpeek hk hword.1).1.trans ((gap_leaves hg₁).trans ho)
    simpa using hbegin.trans ((gap_leaves hg₂).trans hw)
  · rw [isWord_iff] at hword
    simp only [bind_eq_ok, pure_eq_ok] at h
    obtain ⟨n, s₁, hn, rfl, rfl⟩ := h
    obtain ⟨hn, htext⟩ := takeIdent_leaves hpeek hn hident
    refine ⟨[t], hn, ?_⟩
    rw [TypeExpr.form, htext]
    exact .name hident hword
  · cases h

theorem fieldsSound_succ (ihType : TypeSound keep fuel) (ihFields : FieldsSound keep fuel) :
    FieldsSound keep (fuel + 1) := by
  intro ts ts' fs l h
  rw [fields] at h
  obtain ⟨t, hpeek, h⟩ := peek_bind_eq_ok h
  split_ifs at h with hclose
  · simp only [bind_eq_ok, pure_eq_ok] at h
    obtain ⟨c, s₁, hc, hout, rfl⟩ := h
    cases hout
    exact ⟨[], t, takeSigil_leaves hpeek hc hclose, .nil, hclose⟩
  · simp only [bind_eq_ok, pure_eq_ok] at h
    obtain ⟨start, s₁, hstart, n, s₂, hn, g₁, s₃, hg₁, c, s₄, hc, g₂, s₅, hg₂, type, s₆, htype, g₃, s₇, hg₃, semi, s₈,
      hsemi, span, s₉, hspan, g₄, s₁₀, hg₄, ⟨rest, close⟩, s₁₁, hrest, hout, rfl⟩ := h
    cases hstart
    cases hout
    obtain rfl := spanFrom_eq_ok hspan
    obtain ⟨tn, hkn, htext, hn⟩ := ident_sound hn
    obtain ⟨tColon, hkColon, hc⟩ := sigil_sound hc
    obtain ⟨w, hw, hform⟩ := ihType htype
    obtain ⟨tSemi, hkSemi, hsemi⟩ := sigil_sound hsemi
    obtain ⟨v, tClose, hv, hforms, hkClose⟩ := ihFields hrest
    refine ⟨tn :: tColon :: w ++ tSemi :: v, tClose, ?_, ?_, hkClose⟩
    · have hname := hn.trans ((gap_leaves hg₁).trans hc)
      have htyped := hname.trans ((gap_leaves hg₂).trans (hw.trans (gap_leaves hg₃)))
      simpa using (htyped.trans hsemi).trans ((gap_leaves hg₄).trans hv)
    · rw [FieldList.forms, htext]
      exact .cons hkn hkColon hform hkSemi hforms

theorem typeSound_fieldsSound (keep : Bool) (fuel : Nat) : TypeSound keep fuel ∧ FieldsSound keep fuel := by
  induction fuel with
  | zero =>
    constructor
    · intro ts ts' e h
      obtain ⟨t, -, h⟩ := peek_bind_eq_ok h
      cases h
    · intro ts ts' fs l h
      obtain ⟨t, -, h⟩ := peek_bind_eq_ok h
      cases h
  | succ fuel ih => exact ⟨typeSound_succ ih.1 ih.2, fieldsSound_succ ih.1 ih.2⟩

theorem enumItems_sound {items : List (EnumItem × Gap)} (h : enumItems keep fuel ts = .ok ((items, l), ts')) :
    ∃ w c, ts.Leaves (w ++ [c]) ts' ∧ Grammar.AreItems w (items.map fun p => p.1.form) ∧
      c.kind = .sigil .closeCurl := by
  induction fuel generalizing ts items with
  | zero =>
    obtain ⟨t, -, h⟩ := peek_bind_eq_ok h
    cases h
  | succ fuel ih =>
    rw [enumItems] at h
    obtain ⟨t, hpeek, h⟩ := peek_bind_eq_ok h
    split_ifs at h with hclose
    · simp only [bind_eq_ok, pure_eq_ok] at h
      obtain ⟨c, s₁, hc, hout, rfl⟩ := h
      cases hout
      exact ⟨[], t, takeSigil_leaves hpeek hc hclose, .nil, hclose⟩
    · simp only [bind_eq_ok, pure_eq_ok, enumItem] at h
      obtain ⟨item, s₁, ⟨start, s₂, hstart, n, s₃, hn, g₁, s₄, hg₁, e, s₅, he, g₂, s₆, hg₂, i, s₇, hi, g₃, s₈, hg₃, semi,
        s₉, hsemi, span, s₁₀, hspan, rfl, rfl⟩, g₄, s₁₁, hg₄, ⟨rest, close⟩, s₁₂, hrest, hout, rfl⟩ := h
      cases hstart
      cases hout
      obtain rfl := spanFrom_eq_ok hspan
      obtain ⟨tn, hkn, htext, hn⟩ := ident_sound hn
      obtain ⟨tEquals, hkEquals, he⟩ := sigil_sound he
      obtain ⟨ti, form, hki, hvalue, hi⟩ := int_sound hi
      obtain ⟨tSemi, hkSemi, hsemi⟩ := sigil_sound hsemi
      obtain ⟨w, tClose, hw, hitems, hkClose⟩ := ih hrest
      refine ⟨tn :: tEquals :: ti :: tSemi :: w, tClose, ?_, ?_, hkClose⟩
      · have hname := hn.trans ((gap_leaves hg₁).trans he)
        have hnumber := hname.trans ((gap_leaves hg₂).trans (hi.trans (gap_leaves hg₃)))
        simpa using (hnumber.trans hsemi).trans ((gap_leaves hg₄).trans hw)
      · rw [List.map_cons, EnumItem.form, htext, hvalue]
        exact .cons hkn hkEquals hki hkSemi hitems

theorem enumDecl_sound {d : EnumDecl} (hpeek : peek ts = .ok (t, ts)) (hword : t.IsWord "enum")
    (h : enumDecl keep fuel t ts = .ok (d, ts')) : ∃ w, ts.Leaves w ts' ∧ Grammar.IsDecl w (Decl.enum d).form := by
  simp only [enumDecl, bind_eq_ok, pure_eq_ok] at h
  obtain ⟨start, s₁, hstart, k, s₂, hk, g₁, s₃, hg₁, n, s₄, hn, g₂, s₅, hg₂, o, s₆, ho, g₃, s₇, hg₃, ⟨items, c⟩, s₈,
    hitems, span, s₉, hspan, rfl, rfl⟩ := h
  cases hstart
  obtain rfl := spanFrom_eq_ok hspan
  obtain ⟨tn, hkn, htext, hn⟩ := ident_sound hn
  obtain ⟨tOpen, hkOpen, ho⟩ := sigil_sound ho
  obtain ⟨w, tClose, hw, hforms, hkClose⟩ := enumItems_sound hitems
  refine ⟨t :: tn :: tOpen :: w ++ [tClose], ?_, ?_⟩
  · have hbegin := (takeIdent_leaves hpeek hk hword.1).1.trans ((gap_leaves hg₁).trans hn)
    simpa using hbegin.trans (((gap_leaves hg₂).trans ho).trans ((gap_leaves hg₃).trans hw))
  · rw [Decl.form, EnumDecl.items, List.map_map, htext]
    exact .enum hword hkn hkOpen hforms hkClose

theorem sequenceDecl_sound {d : SequenceDecl} (hpeek : peek ts = .ok (t, ts)) (hword : t.IsWord "sequence")
    (h : sequenceDecl keep fuel t ts = .ok (d, ts')) :
    ∃ w, ts.Leaves w ts' ∧ Grammar.IsDecl w (Decl.sequence d).form := by
  simp only [sequenceDecl, bind_eq_ok, pure_eq_ok] at h
  obtain ⟨start, s₁, hstart, k, s₂, hk, g₁, s₃, hg₁, n, s₄, hn, g₂, s₅, hg₂, o, s₆, ho, g₃, s₇, hg₃, ⟨fs, c⟩, s₈,
    hfs, span, s₉, hspan, rfl, rfl⟩ := h
  cases hstart
  obtain rfl := spanFrom_eq_ok hspan
  obtain ⟨tn, hkn, htext, hn⟩ := ident_sound hn
  obtain ⟨tOpen, hkOpen, ho⟩ := sigil_sound ho
  obtain ⟨w, tClose, hw, hforms, hkClose⟩ := (typeSound_fieldsSound keep fuel).2 hfs
  refine ⟨t :: tn :: tOpen :: w ++ [tClose], ?_, ?_⟩
  · have hbegin := (takeIdent_leaves hpeek hk hword.1).1.trans ((gap_leaves hg₁).trans hn)
    simpa using hbegin.trans (((gap_leaves hg₂).trans ho).trans ((gap_leaves hg₃).trans hw))
  · rw [Decl.form, htext]
    exact .sequence hword hkn hkOpen hforms hkClose

theorem decls_sound {ds : List (Decl × Gap)} (heof : ∀ t ∈ ts.core, t.kind ≠ .eof)
    (h : decls keep fuel ts = .ok (ds, ts')) :
    Grammar.IsSchema ts.core (ds.map fun p => p.1.form) ∧ ts.failure = none ∧ ∀ t ∈ ts.core, t.Fits := by
  induction fuel generalizing ts ts' ds with
  | zero =>
    obtain ⟨t, -, h⟩ := peek_bind_eq_ok h
    cases h
  | succ fuel ih =>
    -- a declaration is taken from the front, and the rest is read the same way
    have hdecl : ∀ {d : Decl} {w : List Token} {s₁ s₂ s₃ : TokenStream} {g : Gap} {rest : List (Decl × Gap)},
        ts.Leaves w s₁ → Grammar.IsDecl w d.form → gap keep s₁ = .ok (g, s₂) → decls keep fuel s₂ = .ok (rest, s₃) →
        Grammar.IsSchema ts.core (((d, g) :: rest).map fun p => p.1.form) ∧ ts.failure = none ∧
          ∀ t ∈ ts.core, t.Fits := by
      intro d w s₁ s₂ s₃ g rest hw hform hg hrest
      have hleaves : ts.Leaves w s₂ := by simpa using hw.trans (gap_leaves hg)
      rw [hleaves.core, List.forall_mem_append] at heof
      obtain ⟨hschema, hfailure, hfits⟩ := ih heof.2 hrest
      rw [hleaves.core]
      exact ⟨.cons hform hschema, hleaves.failure ▸ hfailure, List.forall_mem_append.2 ⟨hleaves.fits, hfits⟩⟩
    rw [decls] at h
    obtain ⟨t, hpeek, h⟩ := peek_bind_eq_ok h
    split_ifs at h with hend henum hsequence hident
    · obtain ⟨rfl, rfl⟩ := pure_eq_ok.1 h
      obtain ⟨-, ⟨r, hr⟩ | ⟨hnil, hfailure, -⟩⟩ := peek_eq_ok hpeek
      · refine absurd hend (heof t ?_)
        rw [core, hr, Token.significant_cons (by simp [hend, Token.Kind.isTrivia])]
        exact List.mem_cons_self
      · have hcore : ts'.core = [] := by rw [core, hnil]; rfl
        rw [hcore]
        exact ⟨.nil, hfailure, by simp⟩
    · simp only [bind_eq_ok, pure_eq_ok] at h
      obtain ⟨d, s₁, hd, g, s₂, hg, rest, s₃, hrest, rfl, rfl⟩ := h
      obtain ⟨w, hw, hform⟩ := enumDecl_sound hpeek (isWord_iff.1 henum) hd
      exact hdecl hw hform hg hrest
    · simp only [bind_eq_ok, pure_eq_ok] at h
      obtain ⟨d, s₁, hd, g, s₂, hg, rest, s₃, hrest, rfl, rfl⟩ := h
      obtain ⟨w, hw, hform⟩ := sequenceDecl_sound hpeek (isWord_iff.1 hsequence) hd
      exact hdecl hw hform hg hrest
    · cases h
    · cases h

end Sound

/-! ### Sentences are accepted -/

section Complete

variable {rest : List Token} {fuel : Nat}

/-- The given tokens are all that is left of a source that was tokenized to its end. -/
structure Ahead (ts : TokenStream) (w : List Token) : Prop where
  core : ts.core = w
  failure : ts.failure = none

theorem Ahead.skipGap (h : Ahead ts w) : Ahead (skipGap ts) w := ⟨(core_skipGap ts).trans h.core, h.failure⟩

theorem offset_bind {f : Nat → Parser β} : (offset >>= f) ts = f ts.offset ts := rfl

theorem gap_bind {f : Gap → Parser β} : (gap keep >>= f) ts =
    f (if keep then (splitGap ts.offset ts.tokens).1 else []) (skipGap ts) := rfl

theorem spanFrom_bind {start : Nat} {f : Span → Parser β} :
    (spanFrom start >>= f) ts = f ⟨start, ts.offset - start⟩ ts := rfl

theorem take_bind {f : Lexeme → Parser β} : (take t >>= f) ts = f ⟨ts.offset, t.text⟩ ts.advance := rfl

theorem Ahead.peek (h : Ahead ts (t :: rest)) (hr : ts.Ready) : peek ts = .ok (t, ts) ∧ Ahead ts.advance rest := by
  obtain ⟨r, hts, ht⟩ := hr.tokens_eq h.core
  have hcore := h.core
  rw [core_advance hts ht] at hcore
  exact ⟨peek_of_tokens hts, (List.cons.inj hcore).2, (failure_advance ts).trans h.failure⟩

theorem sigil_complete {s : Sigil} (h : Ahead ts (t :: rest)) (hr : ts.Ready) (hk : t.kind = .sigil s) :
    ∃ l ts', sigil s ts = .ok (l, ts') ∧ Ahead ts' rest := by
  obtain ⟨hpeek, hrest⟩ := h.peek hr
  refine ⟨⟨ts.offset, t.text⟩, _, ?_, hrest⟩
  rw [sigil, bind_of_ok hpeek, if_pos hk]
  rfl

theorem ident_complete (h : Ahead ts (t :: rest)) (hr : ts.Ready) (hk : t.kind = .ident) :
    ∃ l ts', ident ts = .ok (l, ts') ∧ l.text = t.text ∧ Ahead ts' rest := by
  obtain ⟨hpeek, hrest⟩ := h.peek hr
  refine ⟨⟨ts.offset, t.text⟩, _, ?_, rfl, hrest⟩
  rw [ident, bind_of_ok hpeek, if_pos hk]
  rfl

theorem int_complete (h : Ahead ts (t :: rest)) (hr : ts.Ready) (hk : t.kind = .int form) (hfits : t.Fits) :
    ∃ i ts', int ts = .ok (i, ts') ∧ i.value.toNat = Token.number form t.text ∧ Ahead ts' rest := by
  obtain ⟨hpeek, hrest⟩ := h.peek hr
  have hlt : Token.number form t.text < 0x10000000000000000 := hfits form hk
  refine ⟨⟨⟨ts.offset, t.text⟩, UInt64.ofNat (Token.number form t.text)⟩, _, ?_, UInt64.toNat_ofNat_of_lt' hlt, hrest⟩
  rw [int, bind_of_ok hpeek]
  simp only [hk, Token.intValue_eq]
  rw [if_pos hlt, take_bind]
  rfl

def TypeComplete (keep : Bool) (fuel : Nat) : Prop :=
  ∀ {ts w f rest}, Grammar.IsType w f → w.length < fuel → Ahead ts (w ++ rest) → ts.Ready →
    ∃ e ts', typeExpr keep fuel ts = .ok (e, ts') ∧ e.form = f ∧ Ahead ts' rest

def FieldsComplete (keep : Bool) (fuel : Nat) : Prop :=
  ∀ {ts w fs c rest}, Grammar.AreFields w fs → c.kind = .sigil .closeCurl → w.length < fuel →
    Ahead ts (w ++ c :: rest) → ts.Ready →
    ∃ gs l ts', fields keep fuel ts = .ok ((gs, l), ts') ∧ gs.forms = fs ∧ Ahead ts' rest

theorem typeComplete_succ (ihType : TypeComplete keep fuel) (ihFields : FieldsComplete keep fuel) :
    TypeComplete keep (fuel + 1) := by
  intro ts w f rest h hfuel ha hr
  cases h with
  | @name t hk hword =>
    obtain ⟨hpeek, hrest⟩ := ha.peek hr
    refine ⟨.name ⟨ts.offset, t.text⟩, _, ?_, rfl, hrest⟩
    rw [typeExpr, offset_bind, bind_of_ok hpeek, if_neg (by simp [hk]), if_neg (by simpa [isWord_iff] using hword),
      if_pos hk, take_bind]
    rfl
  | @list o c v e hko htype hkc =>
    simp only [List.cons_append, List.append_assoc, List.nil_append] at ha
    simp only [List.length_cons, List.length_append, List.length_nil] at hfuel
    obtain ⟨hpeek, ha₁⟩ := ha.peek hr
    obtain ⟨elem, s₁, helem, hform, ha₂⟩ := ihType htype (by omega) ha₁.skipGap (ready_skipGap _)
    obtain ⟨l, s₂, hl, ha₃⟩ := sigil_complete ha₂.skipGap (ready_skipGap _) hkc
    refine ⟨?tree, s₂, ?run, ?_, ha₃⟩
    case run =>
      rw [typeExpr, offset_bind, bind_of_ok hpeek, if_pos hko, take_bind, gap_bind, bind_of_ok helem, gap_bind,
        bind_of_ok hl]
      rfl
    rw [TypeExpr.form, hform]
  | @oneOf k o c v vs hword hko hfields hkc =>
    simp only [List.cons_append, List.append_assoc, List.nil_append] at ha
    simp only [List.length_cons, List.length_append, List.length_nil] at hfuel
    obtain ⟨hpeek, ha₁⟩ := ha.peek hr
    obtain ⟨l, s₁, hl, ha₂⟩ := sigil_complete ha₁.skipGap (ready_skipGap _) hko
    obtain ⟨gs, c', s₂, hgs, hforms, ha₃⟩ := ihFields hfields hkc (by omega) ha₂.skipGap (ready_skipGap _)
    refine ⟨?union, s₂, ?run, ?_, ha₃⟩
    case run =>
      rw [typeExpr, offset_bind, bind_of_ok hpeek, if_neg (by simp [hword.1]), if_pos (isWord_iff.2 hword), take_bind,
        gap_bind, bind_of_ok hl, gap_bind, bind_of_ok hgs]
      rfl
    rw [TypeExpr.form, hforms]

theorem fieldsComplete_succ (ihType : TypeComplete keep fuel) (ihFields : FieldsComplete keep fuel) :
    FieldsComplete keep (fuel + 1) := by
  intro ts w fs c rest h hkc hfuel ha hr
  cases h with
  | nil =>
    obtain ⟨hpeek, hrest⟩ := ha.peek hr
    refine ⟨.nil, ⟨ts.offset, c.text⟩, _, ?_, rfl, hrest⟩
    rw [fields, bind_of_ok hpeek, if_pos hkc, take_bind]
    rfl
  | @cons n colon s w v t fs hkn hkColon htype hkSemi hfields =>
    simp only [List.cons_append, List.append_assoc] at ha
    simp only [List.length_cons, List.length_append] at hfuel
    obtain ⟨hpeek, -⟩ := ha.peek hr
    obtain ⟨name, s₁, hname, htext, ha₁⟩ := ident_complete ha hr hkn
    obtain ⟨l₁, s₂, hl₁, ha₂⟩ := sigil_complete ha₁.skipGap (ready_skipGap _) hkColon
    obtain ⟨e, s₃, he, hform, ha₃⟩ := ihType htype (by omega) ha₂.skipGap (ready_skipGap _)
    obtain ⟨l₂, s₄, hl₂, ha₄⟩ := sigil_complete ha₃.skipGap (ready_skipGap _) hkSemi
    obtain ⟨gs, l₃, s₅, hgs, hforms, ha₅⟩ := ihFields hfields hkc (by omega) ha₄.skipGap (ready_skipGap _)
    refine ⟨?list, l₃, s₅, ?run, ?_, ha₅⟩
    case run =>
      rw [fields, bind_of_ok hpeek, if_neg (by simp [hkn]), offset_bind, bind_of_ok hname, gap_bind, bind_of_ok hl₁,
        gap_bind, bind_of_ok he, gap_bind, bind_of_ok hl₂, spanFrom_bind, gap_bind, bind_of_ok hgs]
      rfl
    rw [FieldList.forms, htext, hform, hforms]

theorem typeComplete_fieldsComplete (keep : Bool) (fuel : Nat) : TypeComplete keep fuel ∧ FieldsComplete keep fuel := by
  induction fuel with
  | zero =>
    constructor
    · intro ts w f rest _ hfuel
      exact absurd hfuel (Nat.not_lt_zero _)
    · intro ts w fs c rest _ _ hfuel
      exact absurd hfuel (Nat.not_lt_zero _)
  | succ fuel ih => exact ⟨typeComplete_succ ih.1 ih.2, fieldsComplete_succ ih.1 ih.2⟩

theorem enumItem_complete {n e i s : Token} (hkn : n.kind = .ident) (hke : e.kind = .sigil .equals)
    (hki : i.kind = .int form) (hks : s.kind = .sigil .semicolon) (hfits : i.Fits)
    (ha : Ahead ts (n :: e :: i :: s :: rest)) (hr : ts.Ready) :
    ∃ item ts', enumItem keep ts = .ok (item, ts') ∧ item.form = (n.text, Token.number form i.text) ∧
      Ahead ts' rest := by
  obtain ⟨name, s₁, hname, htext, ha₁⟩ := ident_complete ha hr hkn
  obtain ⟨l₁, s₂, hl₁, ha₂⟩ := sigil_complete ha₁.skipGap (ready_skipGap _) hke
  obtain ⟨int, s₃, hint, hvalue, ha₃⟩ := int_complete ha₂.skipGap (ready_skipGap _) hki hfits
  obtain ⟨l₂, s₄, hl₂, ha₄⟩ := sigil_complete ha₃.skipGap (ready_skipGap _) hks
  refine ⟨?item, s₄, ?run, ?_, ha₄⟩
  case run =>
    rw [enumItem, offset_bind, bind_of_ok hname, gap_bind, bind_of_ok hl₁, gap_bind, bind_of_ok hint, gap_bind,
      bind_of_ok hl₂]
    rfl
  rw [EnumItem.form, htext, hvalue]

theorem enumItems_complete {items : List (Bytes × Nat)} {c : Token} (h : Grammar.AreItems w items)
    (hkc : c.kind = .sigil .closeCurl) (hfuel : w.length < fuel) (hfits : ∀ t ∈ w, t.Fits)
    (ha : Ahead ts (w ++ c :: rest)) (hr : ts.Ready) :
    ∃ is l ts', enumItems keep fuel ts = .ok ((is, l), ts') ∧ is.map (fun p => p.1.form) = items ∧ Ahead ts' rest := by
  induction h generalizing ts fuel with
  | nil =>
    obtain ⟨fuel, rfl⟩ := Nat.exists_eq_succ_of_ne_zero (Nat.ne_zero_of_lt hfuel)
    obtain ⟨hpeek, hrest⟩ := ha.peek hr
    refine ⟨[], ⟨ts.offset, c.text⟩, _, ?_, rfl, hrest⟩
    rw [enumItems, bind_of_ok hpeek, if_pos hkc, take_bind]
    rfl
  | @cons n e i s form w items hkn hke hki hks _ ih =>
    obtain ⟨fuel, rfl⟩ := Nat.exists_eq_succ_of_ne_zero (Nat.ne_zero_of_lt hfuel)
    simp only [List.cons_append] at ha
    simp only [List.length_cons] at hfuel
    obtain ⟨hpeek, -⟩ := ha.peek hr
    obtain ⟨item, s₁, hitem, hform, ha₁⟩ := enumItem_complete hkn hke hki hks (hfits i (by simp)) ha hr
    obtain ⟨is, l, s₂, his, hforms, ha₂⟩ := ih (show w.length < fuel by omega) (fun t ht => hfits t (by simp [ht]))
      ha₁.skipGap (ready_skipGap _)
    refine ⟨?items, l, s₂, ?run, ?_, ha₂⟩
    case run =>
      rw [enumItems, bind_of_ok hpeek, if_neg (by simp [hkn]), bind_of_ok hitem, gap_bind, bind_of_ok his]
      rfl
    rw [List.map_cons, hform, hforms]

theorem enumDecl_complete (keep : Bool) {k n o c : Token} {items : List (Bytes × Nat)} (hkn : n.kind = .ident)
    (hko : o.kind = .sigil .openCurl) (hitems : Grammar.AreItems w items) (hkc : c.kind = .sigil .closeCurl)
    (hfuel : w.length < fuel) (hfits : ∀ t ∈ w, t.Fits) (ha : Ahead ts (k :: n :: o :: w ++ c :: rest))
    (hr : ts.Ready) :
    ∃ d ts', enumDecl keep fuel k ts = .ok (d, ts') ∧ (Decl.enum d).form = .enum n.text items ∧ Ahead ts' rest := by
  obtain ⟨hpeek, ha₁⟩ := ha.peek hr
  obtain ⟨name, s₁, hname, htext, ha₂⟩ := ident_complete ha₁.skipGap (ready_skipGap _) hkn
  obtain ⟨l₁, s₂, hl₁, ha₃⟩ := sigil_complete ha₂.skipGap (ready_skipGap _) hko
  obtain ⟨is, l₂, s₃, his, hforms, ha₄⟩ := enumItems_complete hitems hkc hfuel hfits ha₃.skipGap (ready_skipGap _)
  refine ⟨?decl, s₃, ?run, ?_, ha₄⟩
  case run =>
    rw [enumDecl, offset_bind, take_bind, gap_bind, bind_of_ok hname, gap_bind, bind_of_ok hl₁, gap_bind,
      bind_of_ok his]
    rfl
  rw [Decl.form, EnumDecl.items, List.map_map, htext]
  exact congrArg _ hforms

theorem sequenceDecl_complete (keep : Bool) {k n o c : Token} {fs : FieldForms} (hkn : n.kind = .ident)
    (hko : o.kind = .sigil .openCurl) (hfields : Grammar.AreFields w fs) (hkc : c.kind = .sigil .closeCurl)
    (hfuel : w.length < fuel) (ha : Ahead ts (k :: n :: o :: w ++ c :: rest)) (hr : ts.Ready) :
    ∃ d ts', sequenceDecl keep fuel k ts = .ok (d, ts') ∧ (Decl.sequence d).form = .sequence n.text fs ∧
      Ahead ts' rest := by
  obtain ⟨hpeek, ha₁⟩ := ha.peek hr
  obtain ⟨name, s₁, hname, htext, ha₂⟩ := ident_complete ha₁.skipGap (ready_skipGap _) hkn
  obtain ⟨l₁, s₂, hl₁, ha₃⟩ := sigil_complete ha₂.skipGap (ready_skipGap _) hko
  obtain ⟨gs, l₂, s₃, hgs, hforms, ha₄⟩ := (typeComplete_fieldsComplete keep fuel).2 hfields hkc hfuel ha₃.skipGap
    (ready_skipGap _)
  refine ⟨?decl, s₃, ?run, ?_, ha₄⟩
  case run =>
    rw [sequenceDecl, offset_bind, take_bind, gap_bind, bind_of_ok hname, gap_bind, bind_of_ok hl₁, gap_bind,
      bind_of_ok hgs]
    rfl
  rw [Decl.form, htext, hforms]

theorem decls_complete (keep : Bool) {forms : List DeclForm} (h : Grammar.IsSchema w forms) (hfuel : w.length < fuel)
    (hfits : ∀ t ∈ w, t.Fits) (ha : Ahead ts w) (hr : ts.Ready) :
    ∃ ds ts', decls keep fuel ts = .ok (ds, ts') ∧ ds.map (fun p => p.1.form) = forms := by
  induction h generalizing ts fuel with
  | nil =>
    obtain ⟨fuel, rfl⟩ := Nat.exists_eq_succ_of_ne_zero (Nat.ne_zero_of_lt hfuel)
    have hpeek : peek ts = .ok (⟨.eof, []⟩, ts) := by
      simp [Parser.peek, TokenStream.peek, hr.tokens_eq_nil ha.core, ha.failure, Except.map]
    refine ⟨[], ts, ?_, rfl⟩
    rw [decls, bind_of_ok hpeek, if_pos rfl]
    rfl
  | @cons w v f fs hdecl _ ih =>
    obtain ⟨fuel, rfl⟩ := Nat.exists_eq_succ_of_ne_zero (Nat.ne_zero_of_lt hfuel)
    rw [List.length_append] at hfuel
    rw [List.forall_mem_append] at hfits
    cases hdecl with
    | @enum k n o c u items hword hkn hko hitems hkc =>
      simp only [List.cons_append, List.append_assoc, List.nil_append] at ha
      simp only [List.length_cons, List.length_append, List.length_nil] at hfuel
      obtain ⟨hpeek, -⟩ := ha.peek hr
      obtain ⟨d, s₁, hd, hform, ha₁⟩ := enumDecl_complete keep hkn hko hitems hkc (show u.length < fuel by omega)
        (fun t ht => hfits.1 t (by simp [ht])) ha hr
      obtain ⟨ds, s₂, hds, hforms⟩ := ih (show v.length < fuel by omega) hfits.2 ha₁.skipGap (ready_skipGap _)
      refine ⟨?enums, s₂, ?run, ?_⟩
      case run =>
        rw [decls, bind_of_ok hpeek, if_neg (by simp [hword.1]), if_pos (isWord_iff.2 hword), bind_of_ok hd, gap_bind,
          bind_of_ok hds]
        rfl
      rw [List.map_cons, hform, hforms]
    | @sequence k n o c u gs hword hkn hko hfields hkc =>
      simp only [List.cons_append, List.append_assoc, List.nil_append] at ha
      simp only [List.length_cons, List.length_append, List.length_nil] at hfuel
      have hother : ¬ isWord k "enum" = true := by
        rw [isWord_iff]
        intro h
        exact absurd (h.2.symm.trans hword.2) (by decide)
      obtain ⟨hpeek, -⟩ := ha.peek hr
      obtain ⟨d, s₁, hd, hform, ha₁⟩ := sequenceDecl_complete keep hkn hko hfields hkc
        (show u.length < fuel by omega) ha hr
      obtain ⟨ds, s₂, hds, hforms⟩ := ih (show v.length < fuel by omega) hfits.2 ha₁.skipGap (ready_skipGap _)
      refine ⟨?sequences, s₂, ?run, ?_⟩
      case run =>
        rw [decls, bind_of_ok hpeek, if_neg (by simp [hword.1]), if_neg hother, if_pos (isWord_iff.2 hword),
          bind_of_ok hd, gap_bind, bind_of_ok hds]
        rfl
      rw [List.map_cons, hform, hforms]

end Complete

end Parser

namespace SchemaTree

variable {src : Bytes} {keep : Bool}

theorem parse_eq_ok_iff {tree : SchemaTree} : parse src keep = .ok tree ↔
    ∃ ts ts', TokenStream.ofSource src = .ok ts ∧ Parser.schema keep ts.fuel ts = .ok (tree, ts') := by
  change (TokenStream.ofSource src >>= fun ts => Parser.schema keep ts.fuel ts >>= fun x => pure x.1) = .ok tree ↔ _
  cases hts : TokenStream.ofSource src with
  | error e => simp
  | ok ts =>
    rw [ok_bind]
    cases hschema : Parser.schema keep ts.fuel ts with
    | error e => simp [hschema]
    | ok out =>
      rw [ok_bind]
      constructor
      · intro h
        cases h
        exact ⟨ts, out.2, rfl, hschema⟩
      · rintro ⟨_, ts', hts', hok⟩
        cases hts'
        cases hschema.symm.trans hok
        rfl

theorem parse_sound {tree : SchemaTree} (h : parse src keep = .ok tree) :
    ∃ ts, TokenStream.ofSource src = .ok ts ∧ src.length ≤ maxSourceLen ∧ Utf8.valid src = true ∧
      Tokenizes src ts.tokens ∧ Grammar.IsSchema ts.core tree.forms ∧ ∀ t ∈ ts.core, t.Fits := by
  obtain ⟨ts, ts', hts, hschema⟩ := parse_eq_ok_iff.1 h
  rw [Parser.schema, Parser.gap_bind] at hschema
  obtain ⟨ds, s, hds, hpure⟩ := Parser.bind_eq_ok.1 hschema
  cases hpure
  have heof : ∀ t ∈ (Parser.skipGap ts).core, t.kind ≠ .eof := by
    rw [Parser.core_skipGap]
    exact fun t ht => TokenStream.ofSource_ne_eof hts t (List.mem_filter.1 ht).1
  obtain ⟨hforms, hfailure, hfits⟩ := Parser.decls_sound heof hds
  rw [Parser.core_skipGap] at hforms hfits
  obtain ⟨hlen, hvalid, htokens, -⟩ := TokenStream.ofSource_eq_ok_iff.1 ⟨hts, hfailure⟩
  refine ⟨ts, hts, hlen, hvalid, htokens, ?_, hfits⟩
  rw [forms, decls, List.map_map]
  exact hforms

theorem parse_complete {tokens : List Token} {forms : List DeclForm} (keep : Bool) (hlen : src.length ≤ maxSourceLen)
    (hvalid : Utf8.valid src = true) (htokens : Tokenizes src tokens)
    (h : Grammar.IsSchema (Token.significant tokens) forms) (hfits : ∀ t ∈ Token.significant tokens, t.Fits) :
    ∃ tree, parse src keep = .ok tree ∧ tree.forms = forms := by
  let ts : TokenStream := ⟨tokens, none, 0⟩
  have hts : TokenStream.ofSource src = .ok ts := (TokenStream.ofSource_eq_ok_iff.2 ⟨hlen, hvalid, htokens, rfl⟩).1
  have hfuel : (Token.significant tokens).length < ts.fuel := Nat.lt_succ_of_le (List.length_filter_le _ _)
  obtain ⟨ds, ts', hds, hforms⟩ := Parser.decls_complete keep h hfuel hfits ⟨Parser.core_skipGap ts, rfl⟩
    (Parser.ready_skipGap ts)
  refine ⟨?tree, parse_eq_ok_iff.2 ⟨ts, ts', hts, ?run⟩, ?_⟩
  case run =>
    rw [Parser.schema, Parser.gap_bind, Parser.bind_of_ok hds]
    rfl
  rw [SchemaTree.forms, decls, List.map_map]
  exact hforms

/-- A source is accepted exactly if it is a short enough UTF-8 text that falls apart into tokens, these are a sentence of
the grammar, and every number in it fits into 64 bits. The tree says what the sentence says, and a sentence says one
thing. -/
theorem parse_iff_sentence (src : Bytes) (keep : Bool) :
    ((∃ tree, parse src keep = .ok tree) ↔
      src.length ≤ 2 ^ 31 - 1 ∧ (∃ text : String, src = Bytes.ofString text) ∧
        ∃ tokens, Tokenizes src tokens ∧ (∃ forms, Grammar.IsSchema (Token.significant tokens) forms) ∧
          ∀ t ∈ tokens, ∀ form, t.kind = .int form → Token.number form t.text ≤ 2 ^ 64 - 1) ∧
    ∀ tree, parse src keep = .ok tree → ∀ tokens, Tokenizes src tokens →
      ∀ forms, Grammar.IsSchema (Token.significant tokens) forms ↔ forms = tree.forms := by
  refine ⟨⟨?_, ?_⟩, ?_⟩
  · rintro ⟨tree, h⟩
    obtain ⟨ts, hts, hlen, hvalid, htokens, hschema, hfits⟩ := parse_sound h
    refine ⟨hlen, Utf8.valid_iff.1 hvalid, ts.tokens, htokens, ⟨_, hschema⟩, fun t ht form hk => ?_⟩
    have hlt := hfits t (Token.mem_significant_of_int ht hk) form hk
    omega
  · rintro ⟨hlen, htext, tokens, htokens, ⟨forms, hschema⟩, hnumbers⟩
    obtain ⟨tree, htree, -⟩ := parse_complete keep hlen (Utf8.valid_iff.2 htext) htokens hschema fun t ht form hk => by
      have hle := hnumbers t (List.mem_filter.1 ht).1 form hk
      omega
    exact ⟨tree, htree⟩
  · intro tree h tokens htokens forms
    obtain ⟨ts, hts, hlen, hvalid, htokens', hschema, hfits⟩ := parse_sound h
    obtain rfl := htokens'.unique htokens
    constructor
    · intro hforms
      obtain ⟨tree', htree', hform⟩ := parse_complete keep hlen hvalid htokens' hforms hfits
      cases h.symm.trans htree'
      exact hform.symm
    · rintro rfl
      exact hschema

theorem parse_iff_sentence_sample :
    let src := Bytes.ofString "enum E{A=0x1_0;}// \nsequence enum{oneof:oneof{e:[E];};}"
    let forms : List DeclForm := [.enum "E" [("A", 16)],
      .sequence "enum" (.cons "oneof" (.oneOf (.cons "e" (.list (.name "E")) .nil)) .nil)]
    ∃ tokens, Tokenizes src tokens ∧ Grammar.IsSchema (Token.significant tokens) forms := by
  intro src forms
  obtain ⟨tree, htree, hforms⟩ : ∃ tree, parse src false = .ok tree ∧ tree.forms = forms :=
    exists_parse (by decide +kernel)
  obtain ⟨hiff, hunique⟩ := parse_iff_sentence src false
  obtain ⟨-, -, tokens, htokens, -⟩ := hiff.1 ⟨tree, htree⟩
  exact ⟨tokens, htokens, (hunique tree htree tokens htokens forms).2 hforms.symm⟩

end SchemaTree

end Flatwire
