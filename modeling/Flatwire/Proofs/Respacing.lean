import Mathlib.Data.List.Forall2
import Flatwire.Proofs.Parsing

/-! Sources that differ in blanks, line ends and comments only. The parser goes through two such sources in lockstep:
it fails on both for the same cause, or builds trees with the same words, where each word of one tree stands at the
place that corresponds to that of the other. -/

namespace Flatwire

/-! ### Trees with the same words -/

/-- The same text, at places that correspond. -/
def Lexeme.Alike (R : Nat → Nat → Prop) (l l' : Lexeme) : Prop := l.text = l'.text ∧ R l.start l'.start

mutual

inductive TypeExpr.Alike (R : Nat → Nat → Prop) : TypeExpr → TypeExpr → Prop
  | name {i i' : Lexeme} (h : i.Alike R i') : TypeExpr.Alike R (.name i) (.name i')
  | list {s s' : Span} {o o' c c' : Lexeme} {g₁ g₁' g₂ g₂' : Gap} {e e' : TypeExpr} (h : TypeExpr.Alike R e e') :
      TypeExpr.Alike R (.list s o g₁ e g₂ c) (.list s' o' g₁' e' g₂' c')
  | oneOf {s s' : Span} {k k' o o' c c' : Lexeme} {g₁ g₁' g₂ g₂' : Gap} {vs vs' : FieldList} (hk : k.Alike R k')
      (hvs : FieldList.Alike R vs vs') : TypeExpr.Alike R (.oneOf s k g₁ o g₂ vs c) (.oneOf s' k' g₁' o' g₂' vs' c')

inductive FieldList.Alike (R : Nat → Nat → Prop) : FieldList → FieldList → Prop
  | nil : FieldList.Alike R .nil .nil
  | cons {s s' : Span} {n n' c c' e e' : Lexeme} {g₁ g₁' g₂ g₂' g₃ g₃' g g' : Gap} {t t' : TypeExpr} {r r' : FieldList}
      (hn : n.Alike R n') (ht : TypeExpr.Alike R t t') (hr : FieldList.Alike R r r') :
      FieldList.Alike R (.cons (.mk s n g₁ c g₂ t g₃ e) g r) (.cons (.mk s' n' g₁' c' g₂' t' g₃' e') g' r')

end

structure EnumItem.Alike (R : Nat → Nat → Prop) (i i' : EnumItem) : Prop where
  name : i.name.Alike R i'.name
  lexeme : i.value.lexeme.Alike R i'.value.lexeme
  value : i.value.value = i'.value.value

inductive Decl.Alike (R : Nat → Nat → Prop) : Decl → Decl → Prop
  | enum {d d' : EnumDecl} (hname : d.name.Alike R d'.name) (hitems : List.Forall₂ (EnumItem.Alike R) d.items d'.items) :
      Decl.Alike R (.enum d) (.enum d')
  | sequence {d d' : SequenceDecl} (hname : d.name.Alike R d'.name) (hfields : d.fieldList.Alike R d'.fieldList) :
      Decl.Alike R (.sequence d) (.sequence d')

def SchemaTree.Alike (R : Nat → Nat → Prop) (t t' : SchemaTree) : Prop := List.Forall₂ (Decl.Alike R) t.decls t'.decls

/-! ### Streams with the same significant tokens -/

namespace Token

/-- Where the significant tokens stand. -/
def starts : Nat → List Token → List Nat
  | _, [] => []
  | offset, t :: ts =>
    if t.kind.isTrivia then starts (offset + t.text.length) ts else offset :: starts (offset + t.text.length) ts

theorem length_starts (offset : Nat) (ts : List Token) : (starts offset ts).length = (significant ts).length := by
  induction ts generalizing offset with
  | nil => rfl
  | cons t ts ih =>
    rw [starts]
    cases h : t.kind.isTrivia with
    | true => simp [significant_trivia h, ih]
    | false => simp [significant_cons h, ih]

theorem starts_splitGap (offset : Nat) (ts : List Token) :
    starts (Parser.splitGap offset ts).2.1 (Parser.splitGap offset ts).2.2 = starts offset ts := by
  induction ts generalizing offset with
  | nil => rfl
  | cons t ts ih =>
    cases h : t.kind.isTrivia with
    | true => rw [Parser.splitGap_trivia offset ts h, ih, starts, if_pos h]
    | false => rw [Parser.splitGap_significant offset ts h]

theorem starts_increase (offset : Nat) {ts : List Token} (h : ∀ t ∈ ts, 0 < t.text.length) :
    (starts offset ts).Pairwise (· < ·) ∧ ∀ x ∈ starts offset ts, offset ≤ x := by
  induction ts generalizing offset with
  | nil => simp [starts]
  | cons t ts ih =>
    rw [List.forall_mem_cons] at h
    obtain ⟨hpairs, hle⟩ := ih (offset + t.text.length) h.2
    have hbehind : ∀ x ∈ starts (offset + t.text.length) ts, offset < x := by
      intro x hx
      have := hle x hx
      omega
    rw [starts]
    split_ifs
    · exact ⟨hpairs, fun x hx => Nat.le_of_lt (hbehind x hx)⟩
    · refine ⟨List.pairwise_cons.2 ⟨hbehind, hpairs⟩, List.forall_mem_cons.2 ⟨Nat.le_refl _, fun x hx => ?_⟩⟩
      exact Nat.le_of_lt (hbehind x hx)

end Token

namespace TokenStream

def starts (ts : TokenStream) : List Nat := Token.starts ts.offset ts.tokens

/-- The same significant tokens up to the end of the source, at places that correspond. -/
structure Twin (R : Nat → Nat → Prop) (ts ts' : TokenStream) : Prop where
  core : ts.core = ts'.core
  starts : List.Forall₂ R ts.starts ts'.starts
  failure : ts.failure = none
  failure' : ts'.failure = none

/-- Fewer significant tokens are left. -/
def Below (n : Nat) (ts : TokenStream) : Prop := ts.core.length < n

/-- Fewer significant tokens are left, and the first one stands in front. -/
def ReadyBelow (n : Nat) (ts : TokenStream) : Prop := ts.Ready ∧ ts.Below n

/-- The token was seen in front. -/
def Front (t : Token) (n : Nat) (ts : TokenStream) : Prop :=
  ts.ReadyBelow n ∧ (t.kind ≠ .eof → ∃ w, ts.core = t :: w)

variable {R : Nat → Nat → Prop} {ts ts' : TokenStream} {t : Token} {n : Nat}

theorem Twin.skipGap (h : Twin R ts ts') : Twin R (Parser.skipGap ts) (Parser.skipGap ts') where
  core := by rw [Parser.core_skipGap, Parser.core_skipGap, h.core]
  starts := by
    have heq : ∀ s : TokenStream, (Parser.skipGap s).starts = s.starts := fun s => Token.starts_splitGap s.offset s.tokens
    rw [heq, heq]
    exact h.starts
  failure := h.failure
  failure' := h.failure'

theorem starts_advance {r : List Token} (h : ts.tokens = t :: r) (ht : t.kind.isTrivia = false) :
    ts.starts = ts.offset :: ts.advance.starts := by
  simp [starts, advance, h, Token.starts, ht]

/-- Behind the token in front, streams are left that correspond, and so does its place. -/
theorem Twin.advance {w : List Token} (h : Twin R ts ts') (hr : ts.Ready) (hr' : ts'.Ready) (hcore : ts.core = t :: w) :
    R ts.offset ts'.offset ∧ Twin R ts.advance ts'.advance ∧ ts.advance.core = w ∧ ts'.advance.core = w := by
  obtain ⟨r, hts, ht⟩ := hr.tokens_eq hcore
  obtain ⟨r', hts', -⟩ := hr'.tokens_eq (h.core.symm.trans hcore)
  have hstarts := h.starts
  rw [starts_advance hts ht, starts_advance hts' ht, List.forall₂_cons] at hstarts
  have hw : ts.advance.core = w := by simpa [core_advance hts ht] using hcore
  have hw' : ts'.advance.core = w := by simpa [core_advance hts' ht] using h.core.symm.trans hcore
  exact ⟨hstarts.1, ⟨hw.trans hw'.symm, hstarts.2, (failure_advance ts).trans h.failure,
    (failure_advance ts').trans h.failure'⟩, hw, hw'⟩

end TokenStream

/-! ### Parsers in lockstep -/

namespace Parser

open TokenStream

variable {R : Nat → Nat → Prop} {α β γ δ : Type} {rel : α → β → Prop} {rel' : γ → δ → Prop}
  {Pre Mid Post : TokenStream → Prop} {keep keep' : Bool} {n : Nat} {t : Token}

/-- Both give results that correspond and leave streams that do, or both fail for one cause. -/
inductive Paired (R : Nat → Nat → Prop) (Post : TokenStream → Prop) (rel : α → β → Prop) :
    Except SyntaxError (α × TokenStream) → Except SyntaxError (β × TokenStream) → Prop
  | ok {a : α} {b : β} {ts ts' : TokenStream} (hrel : rel a b) (htwin : Twin R ts ts') (hpost : Post ts)
      (hpost' : Post ts') : Paired R Post rel (.ok (a, ts)) (.ok (b, ts'))
  | error {e e' : SyntaxError} (h : e.cause = e'.cause) : Paired R Post rel (.error e) (.error e')

/-- On streams that correspond the parsers do the same. -/
def Lockstep (R : Nat → Nat → Prop) (Pre Post : TokenStream → Prop) (rel : α → β → Prop) (p : Parser α) (q : Parser β) :
    Prop :=
  ∀ ts ts', Twin R ts ts' → Pre ts → Pre ts' → Paired R Post rel (p ts) (q ts')

theorem Lockstep.bind {p : Parser α} {q : Parser β} {f : α → Parser γ} {g : β → Parser δ}
    (h : Lockstep R Pre Mid rel p q) (hf : ∀ a b, rel a b → Lockstep R Mid Post rel' (f a) (g b)) :
    Lockstep R Pre Post rel' (p >>= f) (q >>= g) := by
  intro ts ts' htwin hpre hpre'
  change Paired R Post rel' (p ts >>= fun x => f x.1 x.2) (q ts' >>= fun x => g x.1 x.2)
  have hpair := h ts ts' htwin hpre hpre'
  generalize p ts = x at hpair ⊢
  generalize q ts' = y at hpair ⊢
  cases hpair with
  | ok hrel htwin hmid hmid' => exact hf _ _ hrel _ _ htwin hmid hmid'
  | error h => exact .error h

theorem Lockstep.of_pre {p : Parser α} {q : Parser β} (h : Lockstep R Mid Post rel p q) (hpre : ∀ ts, Pre ts → Mid ts) :
    Lockstep R Pre Post rel p q :=
  fun ts ts' htwin hts hts' => h ts ts' htwin (hpre ts hts) (hpre ts' hts')

theorem lockstep_pure {a : α} {b : β} (hrel : rel a b) (hpost : ∀ ts, Pre ts → Post ts) :
    Lockstep R Pre Post rel (pure a) (pure b) :=
  fun ts ts' htwin hts hts' => .ok hrel htwin (hpost ts hts) (hpost ts' hts')

theorem lockstep_refuse (t : Token) (cause : SyntaxError.Cause) :
    Lockstep R Pre Post rel (refuse t cause) (refuse t cause) :=
  fun _ _ _ _ _ => .error rfl

theorem lockstep_offset : Lockstep R Pre Pre (fun _ _ => True) offset offset :=
  fun _ _ htwin hts hts' => .ok trivial htwin hts hts'

theorem lockstep_spanFrom (start start' : Nat) :
    Lockstep R Pre Pre (fun _ _ => True) (spanFrom start) (spanFrom start') :=
  fun _ _ htwin hts hts' => .ok trivial htwin hts hts'

theorem lockstep_gap : Lockstep R (Below n) (ReadyBelow n) (fun _ _ => True) (gap keep) (gap keep') := by
  have hbelow : ∀ ts : TokenStream, ts.Below n → (skipGap ts).Below n := by
    intro ts hts
    rwa [Below, core_skipGap]
  intro ts ts' htwin hts hts'
  exact .ok trivial htwin.skipGap ⟨ready_skipGap ts, hbelow ts hts⟩ ⟨ready_skipGap ts', hbelow ts' hts'⟩

theorem lockstep_peek {f : Token → Parser γ} {g : Token → Parser δ}
    (h : ∀ t, Lockstep R (Front t n) Post rel' (f t) (g t)) :
    Lockstep R (ReadyBelow n) Post rel' (peek >>= f) (peek >>= g) := by
  intro ts ts' htwin hts hts'
  cases hcore : ts.core with
  | nil =>
    have hend : ∀ s : TokenStream, s.Ready → s.core = [] → s.failure = none → peek s = .ok (⟨.eof, []⟩, s) := by
      intro s hr hs hf
      simp [peek, TokenStream.peek, hr.tokens_eq_nil hs, hf, Except.map]
    rw [bind_of_ok (hend ts hts.1 hcore htwin.failure),
      bind_of_ok (hend ts' hts'.1 (htwin.core.symm.trans hcore) htwin.failure')]
    exact h _ ts ts' htwin ⟨hts, fun hne => absurd rfl hne⟩ ⟨hts', fun hne => absurd rfl hne⟩
  | cons t w =>
    have hcore' := htwin.core.symm.trans hcore
    obtain ⟨r, hr, -⟩ := hts.1.tokens_eq hcore
    obtain ⟨r', hr', -⟩ := hts'.1.tokens_eq hcore'
    rw [bind_of_ok (peek_of_tokens hr), bind_of_ok (peek_of_tokens hr')]
    exact h t ts ts' htwin ⟨hts, fun _ => ⟨w, hcore⟩⟩ ⟨hts', fun _ => ⟨w, hcore'⟩⟩

theorem lockstep_take (ht : t.kind ≠ .eof) :
    Lockstep R (Front t n) (Below (n - 1)) (Lexeme.Alike R) (take t) (take t) := by
  intro ts ts' htwin hts hts'
  obtain ⟨w, hcore⟩ := hts.2 ht
  have hlen : ts.core.length < n := hts.1.2
  rw [hcore, List.length_cons] at hlen
  obtain ⟨hplace, hrest, hw, hw'⟩ := htwin.advance hts.1.1 hts'.1.1 hcore
  refine .ok ⟨rfl, hplace⟩ hrest ?_ ?_
  · rw [Below, hw]
    omega
  · rw [Below, hw']
    omega

theorem lockstep_sigil (s : Sigil) :
    Lockstep R (ReadyBelow n) (Below (n - 1)) (Lexeme.Alike R) (sigil s) (sigil s) := by
  refine lockstep_peek fun t => ?_
  split_ifs with hk
  · exact lockstep_take (by simp [hk])
  · exact lockstep_refuse t _

theorem lockstep_ident : Lockstep R (ReadyBelow n) (Below (n - 1)) (Lexeme.Alike R) ident ident := by
  refine lockstep_peek fun t => ?_
  split_ifs with hk
  · exact lockstep_take (by simp [hk])
  · exact lockstep_refuse t _

theorem lockstep_int : Lockstep R (ReadyBelow n) (Below (n - 1))
    (fun i i' => i.lexeme.Alike R i'.lexeme ∧ i.value = i'.value) int int := by
  refine lockstep_peek fun t => ?_
  split
  · rename_i form hk
    dsimp only
    split_ifs
    · exact (lockstep_take (by simp [hk])).bind fun l l' hl => lockstep_pure ⟨hl, rfl⟩ fun _ h => h
    · exact lockstep_refuse t _
  · exact lockstep_refuse t _

theorem below_mono {m : Nat} (h : m ≤ n) (ts : TokenStream) (hts : ts.Below m) : ts.Below n := Nat.lt_of_lt_of_le hts h

def TypeLockstep (R : Nat → Nat → Prop) (keep keep' : Bool) (fuel fuel' : Nat) : Prop :=
  ∀ n, n ≤ fuel → n ≤ fuel' →
    Lockstep R (ReadyBelow n) (Below n) (TypeExpr.Alike R) (typeExpr keep fuel) (typeExpr keep' fuel')

def FieldsLockstep (R : Nat → Nat → Prop) (keep keep' : Bool) (fuel fuel' : Nat) : Prop :=
  ∀ n, n ≤ fuel → n ≤ fuel' →
    Lockstep R (ReadyBelow n) (Below n) (fun x x' => x.1.Alike R x'.1) (fields keep fuel) (fields keep' fuel')

variable {fuel fuel' : Nat}

theorem typeLockstep_succ (ihType : TypeLockstep R keep keep' fuel fuel')
    (ihFields : FieldsLockstep R keep keep' fuel fuel') :
    TypeLockstep R keep keep' (fuel + 1) (fuel' + 1) := by
  intro n hn hn'
  rw [typeExpr, typeExpr]
  refine lockstep_offset.bind fun start start' _ => lockstep_peek fun t => ?_
  split_ifs with hopen hword hident
  · refine (lockstep_take (by simp [hopen])).bind fun o o' _ => ?_
    refine lockstep_gap.bind fun g₁ g₁' _ => ?_
    refine (ihType (n - 1) (by omega) (by omega)).bind fun e e' he => ?_
    refine lockstep_gap.bind fun g₂ g₂' _ => ?_
    refine (lockstep_sigil _).bind fun c c' _ => ?_
    exact (lockstep_spanFrom _ _).bind fun s s' _ => lockstep_pure (.list he) (below_mono (by omega))
  · refine (lockstep_take (by simp [(isWord_iff.1 hword).1])).bind fun k k' hk => ?_
    refine lockstep_gap.bind fun g₁ g₁' _ => ?_
    refine (lockstep_sigil _).bind fun o o' _ => ?_
    refine lockstep_gap.bind fun g₂ g₂' _ => ?_
    refine (ihFields (n - 1 - 1) (by omega) (by omega)).bind fun x x' hx => ?_
    exact (lockstep_spanFrom _ _).bind fun s s' _ => lockstep_pure (.oneOf hk hx) (below_mono (by omega))
  · refine (lockstep_take (by simp [hident])).bind fun i i' hi => ?_
    exact lockstep_pure (.name hi) (below_mono (by omega))
  · exact lockstep_refuse t _

theorem fieldsLockstep_succ (ihType : TypeLockstep R keep keep' fuel fuel')
    (ihFields : FieldsLockstep R keep keep' fuel fuel') : FieldsLockstep R keep keep' (fuel + 1) (fuel' + 1) := by
  intro n hn hn'
  rw [fields, fields]
  refine lockstep_peek fun t => ?_
  split_ifs with hclose
  · refine (lockstep_take (by simp [hclose])).bind fun c c' _ => ?_
    exact lockstep_pure .nil (below_mono (by omega))
  · refine Lockstep.of_pre ?_ fun ts hts => hts.1
    refine lockstep_offset.bind fun start start' _ => ?_
    refine lockstep_ident.bind fun name name' hname => ?_
    refine lockstep_gap.bind fun g₁ g₁' _ => ?_
    refine (lockstep_sigil _).bind fun c c' _ => ?_
    refine lockstep_gap.bind fun g₂ g₂' _ => ?_
    refine (ihType (n - 1 - 1) (by omega) (by omega)).bind fun e e' he => ?_
    refine lockstep_gap.bind fun g₃ g₃' _ => ?_
    refine (lockstep_sigil _).bind fun s s' _ => ?_
    refine (lockstep_spanFrom _ _).bind fun span span' _ => ?_
    refine lockstep_gap.bind fun g g' _ => ?_
    refine (ihFields (n - 1 - 1 - 1) (by omega) (by omega)).bind fun x x' hx => ?_
    exact lockstep_pure (.cons hname he hx) (below_mono (by omega))

theorem lockstep_zero (h : n ≤ 0) (p : Parser α) (q : Parser β) : Lockstep R (ReadyBelow n) Post rel p q := by
  intro ts ts' _ hts
  exact absurd (Nat.lt_of_lt_of_le hts.2 h) (Nat.not_lt_zero _)

theorem typeLockstep_fieldsLockstep (fuel fuel' : Nat) :
    TypeLockstep R keep keep' fuel fuel' ∧ FieldsLockstep R keep keep' fuel fuel' := by
  induction fuel generalizing fuel' with
  | zero => exact ⟨fun n hn _ => lockstep_zero hn _ _, fun n hn _ => lockstep_zero hn _ _⟩
  | succ fuel ih =>
    cases fuel' with
    | zero => exact ⟨fun n _ hn => lockstep_zero hn _ _, fun n _ hn => lockstep_zero hn _ _⟩
    | succ fuel' => exact ⟨typeLockstep_succ (ih fuel').1 (ih fuel').2, fieldsLockstep_succ (ih fuel').1 (ih fuel').2⟩

theorem lockstep_enumItem :
    Lockstep R (ReadyBelow n) (Below (n - 1)) (EnumItem.Alike R) (enumItem keep) (enumItem keep') := by
  refine lockstep_offset.bind fun start start' _ => ?_
  refine lockstep_ident.bind fun name name' hname => ?_
  refine lockstep_gap.bind fun g₁ g₁' _ => ?_
  refine (lockstep_sigil _).bind fun e e' _ => ?_
  refine lockstep_gap.bind fun g₂ g₂' _ => ?_
  refine lockstep_int.bind fun i i' hi => ?_
  refine lockstep_gap.bind fun g₃ g₃' _ => ?_
  refine (lockstep_sigil _).bind fun s s' _ => ?_
  exact (lockstep_spanFrom _ _).bind fun span span' _ => lockstep_pure ⟨hname, hi.1, hi.2⟩ (below_mono (by omega))

theorem lockstep_enumItems (hn : n ≤ fuel) (hn' : n ≤ fuel') :
    Lockstep R (ReadyBelow n) (Below n)
      (fun x x' => List.Forall₂ (EnumItem.Alike R) (x.1.map Prod.fst) (x'.1.map Prod.fst))
      (enumItems keep fuel) (enumItems keep' fuel') := by
  induction fuel generalizing fuel' n with
  | zero => exact lockstep_zero hn _ _
  | succ fuel ih =>
    cases fuel' with
    | zero => exact lockstep_zero hn' _ _
    | succ fuel' =>
      rw [enumItems, enumItems]
      refine lockstep_peek fun t => ?_
      split_ifs with hclose
      · refine (lockstep_take (by simp [hclose])).bind fun c c' _ => ?_
        exact lockstep_pure .nil (below_mono (by omega))
      · refine Lockstep.of_pre ?_ fun ts hts => hts.1
        refine lockstep_enumItem.bind fun item item' hitem => ?_
        refine lockstep_gap.bind fun g g' _ => ?_
        refine (ih (n := n - 1) (by omega) (by omega)).bind fun x x' hx => ?_
        exact lockstep_pure (.cons hitem hx) (below_mono (by omega))

theorem lockstep_enumDecl (ht : t.kind ≠ .eof) (hn : n ≤ fuel + 1) (hn' : n ≤ fuel' + 1) :
    Lockstep R (Front t n) (Below (n - 1)) (fun d d' => (Decl.enum d).Alike R (.enum d'))
      (enumDecl keep fuel t) (enumDecl keep' fuel' t) := by
  refine lockstep_offset.bind fun start start' _ => ?_
  refine (lockstep_take ht).bind fun k k' _ => ?_
  refine lockstep_gap.bind fun g₁ g₁' _ => ?_
  refine lockstep_ident.bind fun name name' hname => ?_
  refine lockstep_gap.bind fun g₂ g₂' _ => ?_
  refine (lockstep_sigil _).bind fun o o' _ => ?_
  refine lockstep_gap.bind fun g₃ g₃' _ => ?_
  refine (lockstep_enumItems (by omega) (by omega)).bind fun x x' hx => ?_
  exact (lockstep_spanFrom _ _).bind fun span span' _ => lockstep_pure (.enum hname hx) (below_mono (by omega))

theorem lockstep_sequenceDecl (ht : t.kind ≠ .eof) (hn : n ≤ fuel + 1) (hn' : n ≤ fuel' + 1) :
    Lockstep R (Front t n) (Below (n - 1)) (fun d d' => (Decl.sequence d).Alike R (.sequence d'))
      (sequenceDecl keep fuel t) (sequenceDecl keep' fuel' t) := by
  refine lockstep_offset.bind fun start start' _ => ?_
  refine (lockstep_take ht).bind fun k k' _ => ?_
  refine lockstep_gap.bind fun g₁ g₁' _ => ?_
  refine lockstep_ident.bind fun name name' hname => ?_
  refine lockstep_gap.bind fun g₂ g₂' _ => ?_
  refine (lockstep_sigil _).bind fun o o' _ => ?_
  refine lockstep_gap.bind fun g₃ g₃' _ => ?_
  refine ((typeLockstep_fieldsLockstep fuel fuel').2 (n - 1 - 1 - 1) (by omega) (by omega)).bind fun x x' hx => ?_
  exact (lockstep_spanFrom _ _).bind fun span span' _ => lockstep_pure (.sequence hname hx) (below_mono (by omega))

theorem lockstep_decls (hn : n ≤ fuel) (hn' : n ≤ fuel') :
    Lockstep R (ReadyBelow n) (Below n)
      (fun ds ds' => List.Forall₂ (Decl.Alike R) (ds.map Prod.fst) (ds'.map Prod.fst))
      (decls keep fuel) (decls keep' fuel') := by
  induction fuel generalizing fuel' n with
  | zero => exact lockstep_zero hn _ _
  | succ fuel ih =>
    cases fuel' with
    | zero => exact lockstep_zero hn' _ _
    | succ fuel' =>
      rw [decls, decls]
      refine lockstep_peek fun t => ?_
      split_ifs with hend henum hsequence hident
      · exact lockstep_pure .nil fun ts hts => hts.1.2
      · refine (lockstep_enumDecl (by simp [(isWord_iff.1 henum).1]) hn hn').bind fun d d' hd => ?_
        refine lockstep_gap.bind fun g g' _ => ?_
        refine (ih (n := n - 1) (by omega) (by omega)).bind fun ds ds' hds => ?_
        exact lockstep_pure (.cons hd hds) (below_mono (by omega))
      · refine (lockstep_sequenceDecl (by simp [(isWord_iff.1 hsequence).1]) hn hn').bind fun d d' hd => ?_
        refine lockstep_gap.bind fun g g' _ => ?_
        refine (ih (n := n - 1) (by omega) (by omega)).bind fun ds ds' hds => ?_
        exact lockstep_pure (.cons hd hds) (below_mono (by omega))
      · exact lockstep_refuse t _
      · exact lockstep_refuse t _

theorem lockstep_schema (keep keep' : Bool) (hn : n ≤ fuel) (hn' : n ≤ fuel') :
    Lockstep R (Below n) (Below n) (SchemaTree.Alike R) (schema keep fuel) (schema keep' fuel') := by
  refine lockstep_gap.bind fun g g' _ => ?_
  refine (lockstep_decls hn hn').bind fun ds ds' hds => ?_
  exact (lockstep_spanFrom _ _).bind fun span span' _ => lockstep_pure hds fun _ h => h

end Parser

/-! ### Sources with the same significant tokens -/

/-- Places that correspond are in the same order. -/
def Parallel (R : Nat → Nat → Prop) : Prop := ∀ x y x' y', R x y → R x' y' → (x < x' ↔ y < y')

theorem Tokenizes.text_pos {src : Bytes} {ts : List Token} (h : Tokenizes src ts) : ∀ t ∈ ts, 0 < t.text.length := by
  induction h with
  | nil => simp
  | @cons src kind len ts hne hscan _ ih =>
    refine List.forall_mem_cons.2 ⟨?_, ih⟩
    have hpos := (Token.scan_pos hne hscan).1
    have hlen := List.length_pos_of_ne_nil hne
    rw [List.length_take]
    omega

namespace TokenStream

variable {ts ts' : TokenStream}

/-- The places of the significant tokens of one number. -/
def Corresponds (ts ts' : TokenStream) (x y : Nat) : Prop :=
  ∃ k : Nat, ts.starts[k]? = some x ∧ ts'.starts[k]? = some y

theorem twin_of_core (h : ts.core = ts'.core) (hf : ts.failure = none) (hf' : ts'.failure = none) :
    Twin (Corresponds ts ts') ts ts' where
  core := h
  starts := by
    have hlen : ts.starts.length = ts'.starts.length := by
      rw [starts, starts, Token.length_starts, Token.length_starts]
      exact congrArg List.length h
    refine List.forall₂_iff_get.2 ⟨hlen, fun k hk hk' => ⟨k, ?_, ?_⟩⟩
    · rw [List.get_eq_getElem, List.getElem?_eq_getElem hk]
    · rw [List.get_eq_getElem, List.getElem?_eq_getElem hk']
  failure := hf
  failure' := hf'

theorem getElem_lt_iff {xs : List Nat} (h : xs.Pairwise (· < ·)) {i j x y : Nat} (hx : xs[i]? = some x)
    (hy : xs[j]? = some y) : x < y ↔ i < j := by
  obtain ⟨hi, rfl⟩ := List.getElem?_eq_some_iff.1 hx
  obtain ⟨hj, rfl⟩ := List.getElem?_eq_some_iff.1 hy
  have hlt := List.pairwise_iff_getElem.1 h
  rcases Nat.lt_trichotomy i j with hij | rfl | hji
  · exact iff_of_true (hlt i j hi hj hij) hij
  · simp
  · exact iff_of_false (Nat.lt_asymm (hlt j i hj hi hji)) (Nat.lt_asymm hji)

theorem parallel_corresponds {src src' : Bytes} (h : Tokenizes src ts.tokens) (h' : Tokenizes src' ts'.tokens) :
    Parallel (Corresponds ts ts') := by
  rintro x y x' y' ⟨i, hx, hy⟩ ⟨j, hx', hy'⟩
  have hlt := (Token.starts_increase ts.offset h.text_pos).1
  have hlt' := (Token.starts_increase ts'.offset h'.text_pos).1
  rw [getElem_lt_iff hlt hx hx', getElem_lt_iff hlt' hy hy']

end TokenStream

namespace SchemaTree

theorem parse_eq {src : Bytes} {ts : TokenStream} (h : TokenStream.ofSource src = .ok ts) (keep : Bool) :
    parse src keep = (Parser.schema keep ts.fuel ts).map Prod.fst := by
  rw [parse, h, ok_bind]
  cases Parser.schema keep ts.fuel ts <;> rfl

theorem parse_alike {src src' : Bytes} {ts ts' : TokenStream} (h : TokenStream.ofSource src = .ok ts)
    (h' : TokenStream.ofSource src' = .ok ts') {R : Nat → Nat → Prop} (htwin : ts.Twin R ts') (keep keep' : Bool) :
    (∃ tree tree', parse src keep = .ok tree ∧ parse src' keep' = .ok tree' ∧ tree.Alike R tree') ∨
      ∃ e e', parse src keep = .error e ∧ parse src' keep' = .error e' ∧ e.cause = e'.cause := by
  have hfuel : ts.core.length + 1 ≤ ts.fuel := Nat.succ_le_succ (List.length_filter_le _ _)
  have hfuel' : ts.core.length + 1 ≤ ts'.fuel := by
    rw [htwin.core]
    exact Nat.succ_le_succ (List.length_filter_le _ _)
  have hbelow' : ts'.Below (ts.core.length + 1) := by
    rw [TokenStream.Below, htwin.core]
    exact Nat.lt_succ_self _
  have hpair := Parser.lockstep_schema keep keep' hfuel hfuel' ts ts' htwin (Nat.lt_succ_self _) hbelow'
  rw [parse_eq h, parse_eq h']
  generalize Parser.schema keep ts.fuel ts = x at hpair ⊢
  generalize Parser.schema keep' ts'.fuel ts' = y at hpair ⊢
  cases hpair with
  | ok hrel _ _ _ => exact .inl ⟨_, _, rfl, rfl, hrel⟩
  | error hcause => exact .inr ⟨_, _, rfl, rfl, hcause⟩

end SchemaTree

end Flatwire
