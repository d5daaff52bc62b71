import Flatwire.Proofs.Prediction
import Flatwire.Proofs.Respacing
import Flatwire.Proofs.Scanning

/-! Syntax errors are reported at the first place where the source can no longer become a schema. A parser is followed
with the goals that it has still to meet: the tokens that it takes lead from the goals at its start to those at its end,
and where it fails they lead to goals that the next token does not serve. -/

namespace Flatwire

open Grammar

namespace TokenStream

variable {a b c ts ts' : TokenStream} {gs hs ks : List Goal} {t : Token}

/-- Tokens whose numbers fit lead from the goals at the first stream to those at the second one, further on in the
source. -/
def Advances (ts : TokenStream) (gs : List Goal) (ts' : TokenStream) (hs : List Goal) : Prop :=
  ∃ us, ts.tokens = us ++ ts'.tokens ∧ ts'.offset = ts.offset + (Token.texts us).length ∧ ts'.failure = ts.failure ∧
    (∀ t ∈ us, t.Fits) ∧ afterAll? gs (Token.significant us) = some hs

theorem Advances.refl (ts : TokenStream) (gs : List Goal) : ts.Advances gs ts gs :=
  ⟨[], rfl, rfl, rfl, by simp, rfl⟩

theorem Advances.trans (h : a.Advances gs b hs) (h' : b.Advances hs c ks) : a.Advances gs c ks := by
  obtain ⟨us, htokens, hoffset, hfailure, hfits, hafter⟩ := h
  obtain ⟨vs, htokens', hoffset', hfailure', hfits', hafter'⟩ := h'
  refine ⟨us ++ vs, ?_, ?_, hfailure'.trans hfailure, List.forall_mem_append.2 ⟨hfits, hfits'⟩, ?_⟩
  · rw [htokens, htokens', List.append_assoc]
  · rw [hoffset', hoffset, Token.texts_append, List.length_append, Nat.add_assoc]
  · rw [Token.significant, List.filter_append, afterAll?_append]
    change (afterAll? gs (Token.significant us)).bind (afterAll? · (Token.significant vs)) = some ks
    rw [hafter]
    exact hafter'

theorem advances_advance {r : List Token} (h : ts.tokens = t :: r) (ht : t.kind.isTrivia = false) (hfits : t.Fits)
    (hafter : after? t gs = some hs) : ts.Advances gs ts.advance hs := by
  refine ⟨[t], ?_, ?_, failure_advance ts, by simpa using hfits, ?_⟩
  · simp [advance, h]
  · simp [advance, h, Token.texts]
  · simp [Token.significant, ht, afterAll?, hafter]

theorem advances_skipGap (ts : TokenStream) (gs : List Goal) : ts.Advances gs (Parser.skipGap ts) gs := by
  obtain ⟨tokens, failure, offset⟩ := ts
  induction tokens generalizing offset with
  | nil => exact .refl _ gs
  | cons t tokens ih =>
    cases ht : t.kind.isTrivia with
    | true =>
      obtain ⟨us, htokens, hoffset, hfailure, hfits, hafter⟩ := ih (offset + t.text.length)
      simp only [Parser.skipGap] at htokens hoffset
      refine ⟨t :: us, ?_, ?_, rfl, List.forall_mem_cons.2 ⟨?_, hfits⟩, ?_⟩
      · simp only [Parser.skipGap, Parser.splitGap_trivia offset tokens ht]
        rw [List.cons_append, ← htokens]
      · simp only [Parser.skipGap, Parser.splitGap_trivia offset tokens ht]
        rw [hoffset, Token.texts_cons, List.length_append, Nat.add_assoc]
      · intro form hk
        simp [hk, Token.Kind.isTrivia] at ht
      · rw [Token.significant_trivia ht]
        exact hafter
    | false =>
      have hskip : Parser.skipGap ⟨t :: tokens, failure, offset⟩ = ⟨t :: tokens, failure, offset⟩ := by
        simp only [Parser.skipGap, Parser.splitGap_significant offset tokens ht]
      rw [hskip]
      exact .refl _ gs

/-- The token was looked at. -/
def Sees (t : Token) (n : Nat) (ts : TokenStream) : Prop := ts.ReadyBelow n ∧ Parser.peek ts = .ok (t, ts)

/-- Why no parser goes on with the goals: tokenizing failed here, a number is too large, or the token in front serves
none of them. -/
inductive Stuck (gs : List Goal) (ts : TokenStream) (e : SyntaxError) : Prop where
  | failed : ts.tokens = [] → ts.failure = some e → Stuck gs ts e
  | tooLarge {t : Token} {r : List Token} {form : IntForm} {hs : List Goal} : ts.tokens = t :: r → t.kind = .int form →
      after? t gs = some hs → 2 ^ 64 ≤ Token.number form t.text →
      e = ⟨.intTooLarge, ⟨ts.offset, t.text.length⟩⟩ → Stuck gs ts e
  | misplaced {t : Token} : ts.Ready → Parser.peek ts = .ok (t, ts) → after? t gs = none →
      (t.kind = .eof → gs ≠ []) → 2000 ≤ e.code ∧ e.code ≤ 2011 → e.span = ⟨ts.offset, t.text.length⟩ → Stuck gs ts e

end TokenStream

/-! ### Parsers and their goals -/

namespace Parser

open TokenStream

variable {α β : Type} {Pre Mid Post : TokenStream → Prop} {gs hs ks : List Goal} {keep : Bool} {n fuel : Nat}
  {t : Token}

/-- The result of a parser that meets goals until others are left, or gets stuck on the way. -/
inductive Led (Post : TokenStream → Prop) (gs hs : List Goal) (ts : TokenStream) :
    Except SyntaxError (α × TokenStream) → Prop where
  | ok {a : α} {ts' : TokenStream} : ts.Advances gs ts' hs → Post ts' → Led Post gs hs ts (.ok (a, ts'))
  | error {e : SyntaxError} {ts' : TokenStream} {ks : List Goal} : ts.Advances gs ts' ks → Stuck ks ts' e →
      Led Post gs hs ts (.error e)

def Leads (Pre Post : TokenStream → Prop) (gs hs : List Goal) (p : Parser α) : Prop :=
  ∀ ts, Pre ts → Led Post gs hs ts (p ts)

theorem Leads.bind {p : Parser α} {f : α → Parser β} (h : Leads Pre Mid gs hs p)
    (hf : ∀ a, Leads Mid Post hs ks (f a)) : Leads Pre Post gs ks (p >>= f) := by
  intro ts hts
  change Led Post gs ks ts (p ts >>= fun x => f x.1 x.2)
  have hp := h ts hts
  generalize p ts = x at hp
  cases hp with
  | @ok a ts₁ hadv hmid =>
    have hnext := hf a ts₁ hmid
    change Led Post gs ks ts (f a ts₁)
    generalize f a ts₁ = y at hnext
    cases hnext with
    | ok hadv' hpost => exact .ok (hadv.trans hadv') hpost
    | error hadv' hstuck => exact .error (hadv.trans hadv') hstuck
  | error hadv hstuck => exact .error hadv hstuck

theorem leads_pure {a : α} (hpost : ∀ ts, Pre ts → Post ts) : Leads Pre Post gs gs (pure a) :=
  fun ts hts => .ok (.refl ts gs) (hpost ts hts)

theorem leads_offset : Leads Pre Pre gs gs offset := fun ts hts => .ok (.refl ts gs) hts

theorem leads_spanFrom (start : Nat) : Leads Pre Pre gs gs (spanFrom start) := fun ts hts => .ok (.refl ts gs) hts

theorem leads_gap : Leads (Below n) (ReadyBelow n) gs gs (gap keep) := by
  intro ts hts
  refine .ok (advances_skipGap ts gs) ⟨ready_skipGap ts, ?_⟩
  change (skipGap ts).core.length < n
  rw [core_skipGap]
  exact hts

theorem peek_eq_error {ts : TokenStream} {e : SyntaxError} (h : peek ts = .error e) :
    ts.tokens = [] ∧ ts.failure = some e := by
  rw [peek, TokenStream.peek] at h
  cases htokens : ts.tokens with
  | cons t r =>
    rw [htokens] at h
    cases h
  | nil =>
    cases hfailure : ts.failure with
    | none =>
      rw [htokens, hfailure] at h
      cases h
    | some e' =>
      rw [htokens, hfailure] at h
      cases h
      exact ⟨rfl, rfl⟩

theorem leads_peek {f : Token → Parser α} (h : ∀ t, Leads (Sees t n) Post gs hs (f t)) :
    Leads (ReadyBelow n) Post gs hs (peek >>= f) := by
  intro ts hts
  cases hpeek : peek ts with
  | ok x =>
    obtain ⟨t, ts₁⟩ := x
    obtain ⟨rfl, -⟩ := peek_eq_ok hpeek
    rw [bind_of_ok hpeek]
    exact h t _ ⟨hts, hpeek⟩
  | error e =>
    have hbind : (peek >>= f) ts = .error e := by
      change (peek ts >>= fun x => f x.1 x.2) = _
      rw [hpeek]
      rfl
    rw [hbind]
    obtain ⟨hnil, hfailure⟩ := peek_eq_error hpeek
    exact .error (.refl ts gs) (.failed hnil hfailure)

theorem leads_peek_seen {f : Token → Parser α} (h : Leads (Sees t n) Post gs hs (f t)) :
    Leads (Sees t n) Post gs hs (peek >>= f) := by
  intro ts hts
  rw [bind_of_ok hts.2]
  exact h ts hts

theorem leads_take (ht : t.kind ≠ .eof) (hfits : t.Fits) (hafter : after? t gs = some hs) :
    Leads (Sees t n) (Below (n - 1)) gs hs (take t) := by
  intro ts hts
  obtain ⟨⟨hready, hbelow⟩, hpeek⟩ := hts
  obtain ⟨-, ⟨r, hr⟩ | ⟨-, -, rfl⟩⟩ := peek_eq_ok hpeek
  · have htrivia : t.kind.isTrivia = false := hready t (by rw [hr]; rfl)
    refine .ok (advances_advance hr htrivia hfits hafter) ?_
    have hlen : ts.core.length < n := hbelow
    rw [core_advance hr htrivia, List.length_cons] at hlen
    change ts.advance.core.length < n - 1
    omega
  · exact absurd rfl ht

theorem leads_takeSigil {s : Sigil} (hk : t.kind = .sigil s) (hafter : after? t gs = some hs) :
    Leads (Sees t n) (Below (n - 1)) gs hs (take t) :=
  leads_take (by simp [hk]) (by simp [Token.Fits, hk]) hafter

theorem leads_takeIdent (hk : t.kind = .ident) (hafter : after? t gs = some hs) :
    Leads (Sees t n) (Below (n - 1)) gs hs (take t) :=
  leads_take (by simp [hk]) (by simp [Token.Fits, hk]) hafter

theorem leads_refuse {cause : SyntaxError.Cause} (hafter : after? t gs = none) (heof : t.kind = .eof → gs ≠ [])
    (hcode : 2000 ≤ cause.code ∧ cause.code ≤ 2011) : Leads (Sees t n) Post gs hs (refuse t cause : Parser α) :=
  fun ts hts => .error (.refl ts gs) (.misplaced hts.1.1 hts.2 hafter heof hcode rfl)

theorem leads_sigil (s : Sigil) : Leads (ReadyBelow n) (Below (n - 1)) (.sigil s :: gs) gs (sigil s) := by
  refine leads_peek fun t => ?_
  split_ifs with hk
  · exact leads_takeSigil hk (by simp [after?, Goal.after?, hk])
  · exact leads_refuse (by simp [after?, Goal.after?, hk]) (by simp) (by cases s <;> simp [SyntaxError.Cause.code])

/-- An identifier, or what else the goals allow to stand here was excluded. -/
theorem leads_identOr (hgs : gs ≠ []) (hsome : t.kind = .ident → after? t gs = some hs)
    (hnone : t.kind ≠ .ident → after? t gs = none) :
    Leads (Sees t n) (Below (n - 1)) gs hs (if t.kind = .ident then take t else refuse t (.expectedIdent t)) := by
  split_ifs with hk
  · exact leads_takeIdent hk (hsome hk)
  · exact leads_refuse (hnone hk) (fun _ => hgs) (by simp [SyntaxError.Cause.code])

theorem leads_ident : Leads (ReadyBelow n) (Below (n - 1)) (.ident :: gs) gs ident :=
  leads_peek fun t => leads_identOr (by simp) (fun hk => by simp [after?, Goal.after?, hk])
    fun hk => by simp [after?, Goal.after?, hk]

theorem leads_int : Leads (ReadyBelow n) (Below (n - 1)) (.int :: gs) gs int := by
  refine leads_peek fun t => ?_
  split
  · rename_i form hk
    have hafter : after? t (.int :: gs) = some gs := by simp [after?, Goal.after?, hk]
    dsimp only
    rw [Token.intValue_eq]
    split_ifs with hlt
    · have hfits : t.Fits := by
        intro form' hk'
        cases hk.symm.trans hk'
        exact hlt
      exact (leads_take (by simp [hk]) hfits hafter).bind fun l => leads_pure fun _ h => h
    · intro ts hts
      obtain ⟨-, ⟨r, hr⟩ | ⟨-, -, rfl⟩⟩ := peek_eq_ok hts.2
      · exact .error (.refl ts _) (.tooLarge hr hk hafter (Nat.le_of_not_lt hlt) rfl)
      · cases hk
  · rename_i hk
    have hafter : after? t (.int :: gs) = none := by
      cases hkind : t.kind <;> simp_all [after?, Goal.after?]
    exact leads_refuse hafter (by simp) (by simp [SyntaxError.Cause.code])

/-! ### Constructs -/

def TypeLeads (keep : Bool) (fuel : Nat) : Prop :=
  ∀ n gs, n ≤ fuel → Leads (ReadyBelow n) (Below n) (.type :: gs) gs (typeExpr keep fuel)

def FieldsLeads (keep : Bool) (fuel : Nat) : Prop :=
  ∀ n gs, n ≤ fuel → Leads (ReadyBelow n) (Below n) (.fields :: gs) gs (fields keep fuel)

theorem typeLeads_succ (ihType : TypeLeads keep fuel) (ihFields : FieldsLeads keep fuel) :
    TypeLeads keep (fuel + 1) := by
  intro n gs hn
  rw [typeExpr]
  refine leads_offset.bind fun start => leads_peek fun t => ?_
  split_ifs with hopen hword hident
  · have hafter : after? t (.type :: gs) = some (.type :: .sigil .closeSquare :: gs) := by
      simp [after?, Goal.after?, hopen]
    refine (leads_takeSigil hopen hafter).bind fun o => ?_
    refine leads_gap.bind fun g₁ => ?_
    refine (ihType (n - 1) _ (by omega)).bind fun e => ?_
    refine leads_gap.bind fun g₂ => ?_
    refine (leads_sigil _).bind fun c => ?_
    exact (leads_spanFrom _).bind fun s => leads_pure (below_mono (by omega))
  · have hkind := (isWord_iff.1 hword).1
    have hafter : after? t (.type :: gs) = some (.sigil .openCurl :: .fields :: gs) := by
      simp [after?, Goal.after?, hkind, hword]
    refine (leads_takeIdent hkind hafter).bind fun k => ?_
    refine leads_gap.bind fun g₁ => ?_
    refine (leads_sigil _).bind fun o => ?_
    refine leads_gap.bind fun g₂ => ?_
    refine (ihFields (n - 1 - 1) _ (by omega)).bind fun x => ?_
    exact (leads_spanFrom _).bind fun s => leads_pure (below_mono (by omega))
  · have hafter : after? t (.type :: gs) = some gs := by simp [after?, Goal.after?, hident, hword]
    refine (leads_takeIdent hident hafter).bind fun i => ?_
    exact leads_pure (below_mono (by omega))
  · have hafter : after? t (.type :: gs) = none := by simp [after?, Goal.after?, hopen, hident, hword]
    exact leads_refuse hafter (by simp) (by simp [SyntaxError.Cause.code])

theorem fieldsLeads_succ (ihType : TypeLeads keep fuel) (ihFields : FieldsLeads keep fuel) :
    FieldsLeads keep (fuel + 1) := by
  intro n gs hn
  rw [fields]
  refine leads_peek fun t => ?_
  split_ifs with hclose
  · have hafter : after? t (.fields :: gs) = some gs := by simp [after?, Goal.after?, hclose]
    refine (leads_takeSigil hclose hafter).bind fun c => ?_
    exact leads_pure (below_mono (by omega))
  · -- the token is looked at again, and a name is all that it can be
    have hname : Leads (Sees t n) (Below (n - 1)) (.fields :: gs)
        (.sigil .colon :: .type :: .sigil .semicolon :: .fields :: gs) ident :=
      leads_peek_seen (leads_identOr (by simp) (fun hk => by simp [after?, Goal.after?, hk])
        fun hk => by simp [after?, Goal.after?, hk, hclose])
    refine leads_offset.bind fun start => ?_
    refine hname.bind fun name => ?_
    refine leads_gap.bind fun g₁ => ?_
    refine (leads_sigil _).bind fun c => ?_
    refine leads_gap.bind fun g₂ => ?_
    refine (ihType (n - 1 - 1) _ (by omega)).bind fun e => ?_
    refine leads_gap.bind fun g₃ => ?_
    refine (leads_sigil _).bind fun s => ?_
    refine (leads_spanFrom _).bind fun span => ?_
    refine leads_gap.bind fun g => ?_
    refine (ihFields (n - 1 - 1 - 1) _ (by omega)).bind fun x => ?_
    exact leads_pure (below_mono (by omega))

theorem leads_zero (h : n ≤ 0) (p : Parser α) : Leads (ReadyBelow n) Post gs hs p := by
  intro ts hts
  exact absurd (Nat.lt_of_lt_of_le hts.2 h) (Nat.not_lt_zero _)

theorem typeLeads_fieldsLeads (keep : Bool) (fuel : Nat) : TypeLeads keep fuel ∧ FieldsLeads keep fuel := by
  induction fuel with
  | zero => exact ⟨fun n gs hn => leads_zero hn _, fun n gs hn => leads_zero hn _⟩
  | succ fuel ih => exact ⟨typeLeads_succ ih.1 ih.2, fieldsLeads_succ ih.1 ih.2⟩

theorem leads_enumItem (hclose : t.kind ≠ .sigil .closeCurl) :
    Leads (Sees t n) (Below (n - 1)) (.items :: gs) (.items :: gs) (enumItem keep) := by
  have hname : Leads (Sees t n) (Below (n - 1)) (.items :: gs)
      (.sigil .equals :: .int :: .sigil .semicolon :: .items :: gs) ident :=
    leads_peek_seen (leads_identOr (by simp) (fun hk => by simp [after?, Goal.after?, hk])
      fun hk => by simp [after?, Goal.after?, hk, hclose])
  refine leads_offset.bind fun start => ?_
  refine hname.bind fun name => ?_
  refine leads_gap.bind fun g₁ => ?_
  refine (leads_sigil _).bind fun e => ?_
  refine leads_gap.bind fun g₂ => ?_
  refine leads_int.bind fun i => ?_
  refine leads_gap.bind fun g₃ => ?_
  refine (leads_sigil _).bind fun s => ?_
  exact (leads_spanFrom _).bind fun span => leads_pure (below_mono (by omega))

theorem leads_enumItems (hn : n ≤ fuel) :
    Leads (ReadyBelow n) (Below n) (.items :: gs) gs (enumItems keep fuel) := by
  induction fuel generalizing n with
  | zero => exact leads_zero hn _
  | succ fuel ih =>
    rw [enumItems]
    refine leads_peek fun t => ?_
    split_ifs with hclose
    · have hafter : after? t (.items :: gs) = some gs := by simp [after?, Goal.after?, hclose]
      refine (leads_takeSigil hclose hafter).bind fun c => ?_
      exact leads_pure (below_mono (by omega))
    · refine (leads_enumItem hclose).bind fun item => ?_
      refine leads_gap.bind fun g => ?_
      refine (ih (n := n - 1) (by omega)).bind fun x => ?_
      exact leads_pure (below_mono (by omega))

theorem leads_enumDecl (hword : isWord t "enum" = true) (hn : n ≤ fuel + 1) :
    Leads (Sees t n) (Below (n - 1)) [] [] (enumDecl keep fuel t) := by
  have hkind := (isWord_iff.1 hword).1
  have hafter : after? t [] = some [.ident, .sigil .openCurl, .items] := if_pos hword
  refine leads_offset.bind fun start => ?_
  refine (leads_takeIdent hkind hafter).bind fun k => ?_
  refine leads_gap.bind fun g₁ => ?_
  refine leads_ident.bind fun name => ?_
  refine leads_gap.bind fun g₂ => ?_
  refine (leads_sigil _).bind fun o => ?_
  refine leads_gap.bind fun g₃ => ?_
  refine (leads_enumItems (by omega)).bind fun x => ?_
  exact (leads_spanFrom _).bind fun span => leads_pure (below_mono (by omega))

theorem leads_sequenceDecl (hother : ¬ isWord t "enum" = true) (hword : isWord t "sequence" = true)
    (hn : n ≤ fuel + 1) : Leads (Sees t n) (Below (n - 1)) [] [] (sequenceDecl keep fuel t) := by
  have hkind := (isWord_iff.1 hword).1
  have hafter : after? t [] = some [.ident, .sigil .openCurl, .fields] := (if_neg hother).trans (if_pos hword)
  refine leads_offset.bind fun start => ?_
  refine (leads_takeIdent hkind hafter).bind fun k => ?_
  refine leads_gap.bind fun g₁ => ?_
  refine leads_ident.bind fun name => ?_
  refine leads_gap.bind fun g₂ => ?_
  refine (leads_sigil _).bind fun o => ?_
  refine leads_gap.bind fun g₃ => ?_
  refine ((typeLeads_fieldsLeads keep fuel).2 (n - 1 - 1 - 1) _ (by omega)).bind fun x => ?_
  exact (leads_spanFrom _).bind fun span => leads_pure (below_mono (by omega))

theorem leads_decls (hn : n ≤ fuel) : Leads (ReadyBelow n) (Below n) [] [] (decls keep fuel) := by
  induction fuel generalizing n with
  | zero => exact leads_zero hn _
  | succ fuel ih =>
    rw [decls]
    refine leads_peek fun t => ?_
    split_ifs with hend henum hsequence hident
    · exact leads_pure fun ts hts => hts.1.2
    · refine (leads_enumDecl henum hn).bind fun d => ?_
      refine leads_gap.bind fun g => ?_
      refine (ih (n := n - 1) (by omega)).bind fun ds => ?_
      exact leads_pure (below_mono (by omega))
    · refine (leads_sequenceDecl henum hsequence hn).bind fun d => ?_
      refine leads_gap.bind fun g => ?_
      refine (ih (n := n - 1) (by omega)).bind fun ds => ?_
      exact leads_pure (below_mono (by omega))
    all_goals
      have hafter : after? t [] = none := (if_neg henum).trans (if_neg hsequence)
      exact leads_refuse hafter (fun h => absurd h hend) (by simp [SyntaxError.Cause.code])

theorem leads_schema (keep : Bool) (hn : n ≤ fuel) : Leads (Below n) (Below n) [] [] (schema keep fuel) := by
  refine leads_gap.bind fun g => ?_
  refine (leads_decls hn).bind fun ds => ?_
  exact (leads_spanFrom _).bind fun span => leads_pure fun _ h => h

end Parser

/-! ### The first fault of a source -/

/-- What stands behind tokens at the front of a source, and why no schema begins like that. -/
inductive Fault (before : List Token) (rest : Bytes) (e : SyntaxError) : Prop where
  /-- No token starts here. -/
  | untokenized : rest ≠ [] → Token.scan rest = .error e.cause → 1002 ≤ e.code ∧ e.code ≤ 1005 → Fault before rest e
  /-- A number is expected, and does not fit into 64 bits. -/
  | tooLarge {t : Token} {form : IntForm} {after : Bytes} : Token.Cut rest [t] after → t.kind = .int form →
      Viable (Token.significant before ++ [t]) → 2 ^ 64 ≤ Token.number form t.text → e.code = 2012 →
      e.span.len = t.text.length → Fault before rest e
  /-- The token begins no sentence with those before it. -/
  | misplaced {t : Token} {after : Bytes} : Token.Cut rest [t] after → t.kind.isTrivia = false →
      ¬ Viable (Token.significant before ++ [t]) → 2000 ≤ e.code ∧ e.code ≤ 2011 → e.span.len = t.text.length →
      Fault before rest e
  /-- The source ends here, and the tokens before the end are no sentence. -/
  | unfinished : rest = [] → (¬ ∃ forms, IsSchema (Token.significant before) forms) →
      2000 ≤ e.code ∧ e.code ≤ 2011 → e.span.len = 0 → Fault before rest e

theorem Grammar.Viable.of_append {w v : List Token} (h : Viable (w ++ v)) : Viable w := by
  obtain ⟨u, forms, hu⟩ := h
  exact ⟨v ++ u, forms, by rwa [← List.append_assoc]⟩

theorem Fault.not_within {src rest rest' : Bytes} {ts us : List Token} {e : SyntaxError} (hcut : Token.Cut src ts rest)
    (hviable : Viable (Token.significant ts)) (hfits : ∀ t ∈ ts, t.Fits) (hcut' : Token.Cut src us rest')
    (h : Fault us rest' e) : ts <+: us := by
  rcases hcut.comparable hcut' with hle | ⟨t, ws, rfl, hws⟩
  · exact hle
  -- the token where the fault should be is one of those that are in order
  have hsame : ∀ {t' after}, Token.Cut rest' [t'] after → t' = t := by
    intro t' after ht'
    cases ht' with
    | cons _ hscan =>
      cases hws with
      | cons _ hscan' =>
        cases hscan.symm.trans hscan'
        rfl
  cases h with
  | untokenized hne hscan =>
    cases hws with
    | cons _ hok => cases hscan.symm.trans hok
  | @tooLarge t' form after ht' hk _ hlarge =>
    obtain rfl := hsame ht'
    exact absurd (hfits t' (by simp) form hk) (Nat.not_lt_of_le hlarge)
  | @misplaced t' after ht' htrivia hnot =>
    obtain rfl := hsame ht'
    refine absurd ?_ hnot
    rw [Token.significant, List.filter_append, ← Token.significant, ← Token.significant,
      Token.significant_cons htrivia, ← List.singleton_append, ← List.append_assoc] at hviable
    exact hviable.of_append
  | unfinished hnil =>
    cases hws with
    | cons hne => exact absurd hnil hne

theorem TokenStream.Stuck.fault {src tail : Bytes} {us : List Token} {ts : TokenStream} {gs : List Goal}
    {e : SyntaxError} (hvalid : Utf8.valid src = true) (hcut : Token.Cut src (us ++ ts.tokens) tail)
    (hafter : afterAll? [] (Token.significant us) = some gs) (hoffset : ts.offset = (Token.texts us).length)
    (hend : ts.failure = none ∧ tail = [] ∨ ∃ cause, tail ≠ [] ∧ Token.scan tail = .error cause ∧
      ts.failure = some ⟨cause, ⟨(Token.texts (us ++ ts.tokens)).length, Token.errorLen cause⟩⟩)
    (h : Stuck gs ts e) : ∃ rest, Token.Cut src us rest ∧ Fault us rest e ∧ e.span.start = (Token.texts us).length ∧
      e.span.len ≤ rest.length := by
  obtain ⟨rest, hrest, htail⟩ := Token.cut_append_iff.1 hcut
  have hfollow : ∀ t, afterAll? [] (Token.significant us ++ [t]) = after? t gs := by
    intro t
    rw [afterAll?_append, hafter]
    simp [afterAll?]
  have hnext : ∀ {t r}, ts.tokens = t :: r → ∃ after, Token.Cut rest [t] after ∧ t.text.length ≤ rest.length := by
    intro t r hr
    rw [hr, ← List.singleton_append] at htail
    obtain ⟨after, ht, -⟩ := Token.cut_append_iff.1 htail
    refine ⟨after, ht, ?_⟩
    rw [ht.src_eq, Token.texts_cons]
    simp
  refine ⟨rest, hrest, ?_⟩
  cases h with
  | failed hnil hfailure =>
    rw [hnil] at htail hend
    cases htail
    rcases hend with ⟨hnone, -⟩ | ⟨cause, hne, hscan, hsome⟩
    · cases hfailure.symm.trans hnone
    · cases hfailure.symm.trans hsome
      rw [List.append_nil]
      have hfound := Token.found_scan hne (hrest.valid hvalid)
      rw [hscan] at hfound
      cases hfound with
      | fault hlow hhigh hlen => exact ⟨.untokenized hne hscan ⟨hlow, hhigh⟩, rfl, hlen⟩
  | @tooLarge t r form hs hr hk hsome hlarge he =>
    obtain ⟨after, ht, hlen⟩ := hnext hr
    subst he
    refine ⟨.tooLarge ht hk (viable_iff.2 ⟨hs, (hfollow t).trans hsome⟩) hlarge rfl rfl, hoffset, hlen⟩
  | @misplaced t hready hpeek hnone heof hcode hspan =>
    rw [hspan]
    obtain ⟨-, ⟨r, hr⟩ | ⟨hnil, hfailure, rfl⟩⟩ := Parser.peek_eq_ok hpeek
    · obtain ⟨after, ht, hlen⟩ := hnext hr
      have hnot : ¬ Viable (Token.significant us ++ [t]) := by
        rw [viable_iff, hfollow, hnone]
        simp
      exact ⟨.misplaced ht (hready t (by rw [hr]; rfl)) hnot hcode (by rw [hspan]), hoffset, hlen⟩
    · rw [hnil] at htail
      cases htail
      have hempty : tail = [] := by
        rcases hend with ⟨-, h⟩ | ⟨cause, -, -, hsome⟩
        · exact h
        · cases hfailure.symm.trans hsome
      refine ⟨.unfinished hempty ?_ hcode (by rw [hspan]; rfl), hoffset, Nat.zero_le _⟩
      rw [isSchema_iff, hafter, Option.some.injEq]
      exact heof rfl

/-- A source of whole characters that is no schema is refused at its first fault: the tokens before it begin a
sentence, no fault stands further in front, and what is marked begins there and lies inside the source. -/
theorem SchemaTree.parse_error_earliest {src : Bytes} {keep : Bool} {ts : TokenStream} {e : SyntaxError}
    (hts : TokenStream.ofSource src = .ok ts) (h : SchemaTree.parse src keep = .error e) :
    ∃ before rest, Token.Cut src before rest ∧ Viable (Token.significant before) ∧ Fault before rest e ∧
      (∀ before' rest' e', Token.Cut src before' rest' → Fault before' rest' e' → before <+: before') ∧
      e.span.start = (Token.texts before).length ∧ e.span.start + e.span.len ≤ src.length := by
  obtain ⟨hvalid, hzero, tail, hcut, hend⟩ := TokenStream.cut_ofSource hts
  have hbelow : ts.Below ts.fuel := Nat.lt_succ_of_le (List.length_filter_le _ _)
  have hled := Parser.leads_schema keep (Nat.le_refl ts.fuel) ts hbelow
  rw [SchemaTree.parse_eq hts] at h
  cases hschema : Parser.schema keep ts.fuel ts with
  | ok x =>
    rw [hschema] at h
    cases h
  | error e' =>
    rw [hschema] at h hled
    cases h
    cases hled with
    | @error _ ts' gs hadv hstuck =>
      obtain ⟨us, htokens, hoffset, hfailure, hfits, hafter⟩ := hadv
      rw [htokens] at hcut hend
      rw [← hfailure] at hend
      rw [hzero, Nat.zero_add] at hoffset
      obtain ⟨rest, hrest, hfault, hstart, hlen⟩ := hstuck.fault hvalid hcut hafter hoffset hend
      have hviable : Viable (Token.significant us) := viable_iff.2 ⟨gs, hafter⟩
      refine ⟨us, rest, hrest, hviable, hfault, fun us' rest' e' hcut' hfault' =>
        hfault'.not_within hrest hviable hfits hcut', hstart, ?_⟩
      rw [hrest.src_eq, List.length_append, hstart]
      exact Nat.add_le_add_left hlen _

theorem SchemaTree.parse_eq_error {src : Bytes} {keep : Bool} {e : SyntaxError}
    (h : (SchemaTree.parse src keep).map (fun _ => ()) = .error e) : SchemaTree.parse src keep = .error e := by
  cases hparse : SchemaTree.parse src keep with
  | error e' =>
    rw [hparse] at h
    cases h
    rfl
  | ok tree =>
    rw [hparse] at h
    cases h

/-- The list is not closed behind its element type. -/
theorem SchemaTree.parse_error_earliest_sample :
    let src := Bytes.ofString "sequence Point \x7b x : [oneof \x7b a : u8; \x7d; y : u32; \x7d"
    let e : SyntaxError := ⟨.expectedSigil .closeSquare ⟨.sigil .semicolon, ";"⟩, ⟨39, 1⟩⟩
    (∃ ts, TokenStream.ofSource src = .ok ts) ∧ SchemaTree.parse src = .error e ∧
      ∃ before rest, Token.Cut src before rest ∧ Viable (Token.significant before) ∧ Fault before rest e ∧
        (Token.texts before).length = 39 := by
  intro src e
  obtain ⟨ts, hts⟩ : ∃ ts, TokenStream.ofSource src = .ok ts := ⟨_, rfl⟩
  have hparse : SchemaTree.parse src = .error e := SchemaTree.parse_eq_error (by decide +kernel)
  obtain ⟨before, rest, hcut, hviable, hfault, -, hstart, -⟩ := SchemaTree.parse_error_earliest hts hparse
  exact ⟨⟨ts, hts⟩, hparse, before, rest, hcut, hviable, hfault, hstart.symm⟩

end Flatwire
