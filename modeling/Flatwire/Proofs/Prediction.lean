import Flatwire.Proofs.Parsing

/-! Which tokens can follow the beginning of a sentence. What is still to come after some tokens of a sentence is a list
of goals, to be met one after the other before further declarations; the first goal and the next token alone tell which
goals are left then. So a sentence can be followed token by token, and the tokens that lead to goals at all are those
that begin a sentence, since every goal can be met. -/

namespace Flatwire.Grammar

/-- The tokens are the beginning of a sentence. -/
def Viable (w : List Token) : Prop := ∃ v forms, IsSchema (w ++ v) forms

/-- A piece of a sentence. -/
inductive Goal where
  | sigil (s : Sigil)
  | ident
  | int
  | type
  /-- Fields, or variants, with the brace that closes them. -/
  | fields
  /-- The items of an enum, with the brace that closes them. -/
  | items
deriving DecidableEq

/-- The tokens are such a piece. -/
inductive Meets : Goal → List Token → Prop where
  | sigil {s : Sigil} {t : Token} : t.kind = .sigil s → Meets (.sigil s) [t]
  | ident {t : Token} : t.kind = .ident → Meets .ident [t]
  | int {form : IntForm} {t : Token} : t.kind = .int form → Meets .int [t]
  | type {w : List Token} {f : TypeForm} : IsType w f → Meets .type w
  | fields {w : List Token} {fs : FieldForms} {c : Token} : AreFields w fs → c.kind = .sigil .closeCurl →
      Meets .fields (w ++ [c])
  | items {w : List Token} {is : List (Bytes × Nat)} {c : Token} : AreItems w is → c.kind = .sigil .closeCurl →
      Meets .items (w ++ [c])

/-- The tokens meet the goals one after the other. -/
inductive MeetAll : List Goal → List Token → Prop where
  | nil : MeetAll [] []
  | cons {g : Goal} {gs : List Goal} {w v : List Token} : Meets g w → MeetAll gs v → MeetAll (g :: gs) (w ++ v)

/-- The tokens meet the goals, and declarations follow up to the end. -/
def Completes (gs : List Goal) (w : List Token) : Prop :=
  ∃ u v forms, MeetAll gs u ∧ IsSchema v forms ∧ w = u ++ v

/-! ### One token -/

/-- What is left of a goal behind its first token, if it can begin with the token. -/
def Goal.after? (t : Token) : Goal → Option (List Goal)
  | sigil s => if t.kind = .sigil s then some [] else none
  | ident => if t.kind = .ident then some [] else none
  | int =>
    match t.kind with
    | .int _ => some []
    | _ => none
  | type =>
    if t.kind = .sigil .openSquare then some [type, sigil .closeSquare]
    else if Parser.isWord t "oneof" then some [sigil .openCurl, fields]
    else if t.kind = .ident then some []
    else none
  | fields =>
    if t.kind = .sigil .closeCurl then some []
    else if t.kind = .ident then some [sigil .colon, type, sigil .semicolon, fields]
    else none
  | items =>
    if t.kind = .sigil .closeCurl then some []
    else if t.kind = .ident then some [sigil .equals, int, sigil .semicolon, items]
    else none

/-- What is left of goals behind the next token. Without a goal a declaration begins. -/
def after? (t : Token) : List Goal → Option (List Goal)
  | g :: gs => (g.after? t).map (· ++ gs)
  | [] =>
    if Parser.isWord t "enum" then some [.ident, .sigil .openCurl, .items]
    else if Parser.isWord t "sequence" then some [.ident, .sigil .openCurl, .fields]
    else none

/-- What is left of goals behind some tokens. -/
def afterAll? : List Goal → List Token → Option (List Goal)
  | gs, [] => some gs
  | gs, t :: w => (after? t gs).bind (afterAll? · w)

section MeetAll

variable {g : Goal} {gs hs : List Goal} {w v : List Token} {s : Sigil}

theorem meetAll_nil_iff : MeetAll [] w ↔ w = [] := by
  constructor
  · rintro ⟨⟩
    rfl
  · rintro rfl
    exact .nil

theorem meetAll_cons_iff : MeetAll (g :: gs) w ↔ ∃ u v, Meets g u ∧ MeetAll gs v ∧ w = u ++ v := by
  constructor
  · rintro ⟨⟩
    exact ⟨_, _, ‹_›, ‹_›, rfl⟩
  · rintro ⟨u, v, hu, hv, rfl⟩
    exact .cons hu hv

theorem meetAll_singleton_iff : MeetAll [g] w ↔ Meets g w := by
  simp [meetAll_cons_iff, meetAll_nil_iff]

theorem meetAll_append_iff : MeetAll (gs ++ hs) w ↔ ∃ u v, MeetAll gs u ∧ MeetAll hs v ∧ w = u ++ v := by
  induction gs generalizing w with
  | nil => simp [meetAll_nil_iff]
  | cons g gs ih =>
    simp only [List.cons_append, meetAll_cons_iff, ih]
    constructor
    · rintro ⟨u, _, hu, ⟨u', v, hu', hv, rfl⟩, rfl⟩
      exact ⟨u ++ u', v, ⟨u, u', hu, hu', rfl⟩, hv, (List.append_assoc ..).symm⟩
    · rintro ⟨_, v, ⟨u, u', hu, hu', rfl⟩, hv, rfl⟩
      exact ⟨u, u' ++ v, hu, ⟨u', v, hu', hv, rfl⟩, List.append_assoc ..⟩

/-! What meets each of the goals. -/

theorem meets_sigil_iff : Meets (.sigil s) w ↔ ∃ t, t.kind = .sigil s ∧ w = [t] := by
  constructor
  · rintro ⟨h⟩
    exact ⟨_, h, rfl⟩
  · rintro ⟨t, h, rfl⟩
    exact .sigil h

theorem meets_ident_iff : Meets .ident w ↔ ∃ t, t.kind = .ident ∧ w = [t] := by
  constructor
  · rintro ⟨⟩
    exact ⟨_, ‹_›, rfl⟩
  · rintro ⟨t, h, rfl⟩
    exact .ident h

theorem meets_int_iff : Meets .int w ↔ ∃ t form, t.kind = .int form ∧ w = [t] := by
  constructor
  · rintro ⟨⟩
    exact ⟨_, _, ‹_›, rfl⟩
  · rintro ⟨t, form, h, rfl⟩
    exact .int h

theorem meets_type_iff : Meets .type w ↔ ∃ f, IsType w f := by
  constructor
  · rintro ⟨⟩
    exact ⟨_, ‹_›⟩
  · rintro ⟨f, h⟩
    exact .type h

theorem meets_fields_iff : Meets .fields w ↔ ∃ u fs c, AreFields u fs ∧ c.kind = .sigil .closeCurl ∧ w = u ++ [c] := by
  constructor
  · rintro ⟨⟩
    exact ⟨_, _, _, ‹_›, ‹_›, rfl⟩
  · rintro ⟨u, fs, c, hfields, hc, rfl⟩
    exact .fields hfields hc

theorem meets_items_iff : Meets .items w ↔ ∃ u is c, AreItems u is ∧ c.kind = .sigil .closeCurl ∧ w = u ++ [c] := by
  constructor
  · rintro ⟨⟩
    exact ⟨_, _, _, ‹_›, ‹_›, rfl⟩
  · rintro ⟨u, is, c, hitems, hc, rfl⟩
    exact .items hitems hc

theorem meetAll_sigil_iff : MeetAll (.sigil s :: gs) w ↔ ∃ t v, t.kind = .sigil s ∧ MeetAll gs v ∧ w = t :: v := by
  rw [meetAll_cons_iff]
  simp only [meets_sigil_iff]
  constructor
  · rintro ⟨_, v, ⟨t, ht, rfl⟩, hv, rfl⟩
    exact ⟨t, v, ht, hv, rfl⟩
  · rintro ⟨t, v, ht, hv, rfl⟩
    exact ⟨[t], v, ⟨t, ht, rfl⟩, hv, rfl⟩

end MeetAll

/-! ### The goals behind a token -/

section After

variable {t : Token} {w : List Token}

theorem type_after_iff : Meets .type (t :: w) ↔ ∃ hs, Goal.type.after? t = some hs ∧ MeetAll hs w := by
  rw [meets_type_iff]
  constructor
  · rintro ⟨f, h⟩
    cases h with
    | name hk hword => exact ⟨[], by simp [Goal.after?, hk, Parser.isWord_iff, hword], .nil⟩
    | list ho htype hc => exact ⟨_, if_pos ho, .cons (.type htype) (meetAll_singleton_iff.2 (.sigil hc))⟩
    | oneOf hk ho hfields hc =>
      refine ⟨[.sigil .openCurl, .fields], by simp [Goal.after?, hk.1, Parser.isWord_iff, hk], ?_⟩
      exact meetAll_sigil_iff.2 ⟨_, _, ho, meetAll_singleton_iff.2 (.fields hfields hc), rfl⟩
  · rintro ⟨hs, hafter, hw⟩
    rw [Goal.after?] at hafter
    split_ifs at hafter with hopen hword hident
    · cases hafter
      obtain ⟨u, v, hu, hv, rfl⟩ := meetAll_cons_iff.1 hw
      obtain ⟨f, hf⟩ := meets_type_iff.1 hu
      obtain ⟨c, hc, rfl⟩ := meets_sigil_iff.1 (meetAll_singleton_iff.1 hv)
      exact ⟨_, .list hopen hf hc⟩
    · cases hafter
      obtain ⟨o, v, ho, hv, rfl⟩ := meetAll_sigil_iff.1 hw
      obtain ⟨u, fs, c, hfields, hc, rfl⟩ := meets_fields_iff.1 (meetAll_singleton_iff.1 hv)
      exact ⟨_, .oneOf (Parser.isWord_iff.1 hword) ho hfields hc⟩
    · cases hafter
      obtain rfl := meetAll_nil_iff.1 hw
      exact ⟨_, .name hident (by rwa [← Parser.isWord_iff])⟩

theorem fields_after_iff : Meets .fields (t :: w) ↔ ∃ hs, Goal.fields.after? t = some hs ∧ MeetAll hs w := by
  rw [meets_fields_iff]
  constructor
  · rintro ⟨u, fs, c, hfields, hc, heq⟩
    cases hfields with
    | nil =>
      cases heq
      exact ⟨[], if_pos hc, .nil⟩
    | @cons n colon s w' v type fs hn hcolon htype hs hrest =>
      simp only [List.cons_append, List.cons.injEq, List.append_assoc] at heq
      obtain ⟨rfl, rfl⟩ := heq
      refine ⟨[.sigil .colon, .type, .sigil .semicolon, .fields], by simp [Goal.after?, hn], ?_⟩
      refine meetAll_sigil_iff.2 ⟨_, _, hcolon, .cons (.type htype) ?_, rfl⟩
      exact meetAll_sigil_iff.2 ⟨_, _, hs, meetAll_singleton_iff.2 (.fields hrest hc), rfl⟩
  · rintro ⟨hs, hafter, hw⟩
    rw [Goal.after?] at hafter
    split_ifs at hafter with hclose hident
    · cases hafter
      obtain rfl := meetAll_nil_iff.1 hw
      exact ⟨[], _, t, .nil, hclose, rfl⟩
    · cases hafter
      obtain ⟨colon, v₁, hcolon, hv₁, rfl⟩ := meetAll_sigil_iff.1 hw
      obtain ⟨u, v₂, hu, hv₂, rfl⟩ := meetAll_cons_iff.1 hv₁
      obtain ⟨f, hf⟩ := meets_type_iff.1 hu
      obtain ⟨s, v₃, hs, hv₃, rfl⟩ := meetAll_sigil_iff.1 hv₂
      obtain ⟨v, fs, c, hfields, hc, rfl⟩ := meets_fields_iff.1 (meetAll_singleton_iff.1 hv₃)
      exact ⟨_, _, c, .cons hident hcolon hf hs hfields, hc, by simp⟩

theorem items_after_iff : Meets .items (t :: w) ↔ ∃ hs, Goal.items.after? t = some hs ∧ MeetAll hs w := by
  rw [meets_items_iff]
  constructor
  · rintro ⟨u, is, c, hitems, hc, heq⟩
    cases hitems with
    | nil =>
      cases heq
      exact ⟨[], if_pos hc, .nil⟩
    | cons hn hequals hi hs hrest =>
      simp only [List.cons_append, List.cons.injEq] at heq
      obtain ⟨rfl, rfl⟩ := heq
      refine ⟨[.sigil .equals, .int, .sigil .semicolon, .items], by simp [Goal.after?, hn], ?_⟩
      refine meetAll_sigil_iff.2 ⟨_, _, hequals, meetAll_cons_iff.2 ⟨_, _, .int hi, ?_, rfl⟩, rfl⟩
      exact meetAll_sigil_iff.2 ⟨_, _, hs, meetAll_singleton_iff.2 (.items hrest hc), rfl⟩
  · rintro ⟨hs, hafter, hw⟩
    rw [Goal.after?] at hafter
    split_ifs at hafter with hclose hident
    · cases hafter
      obtain rfl := meetAll_nil_iff.1 hw
      exact ⟨[], _, t, .nil, hclose, rfl⟩
    · cases hafter
      obtain ⟨equals, v₁, hequals, hv₁, rfl⟩ := meetAll_sigil_iff.1 hw
      obtain ⟨u, v₂, hu, hv₂, rfl⟩ := meetAll_cons_iff.1 hv₁
      obtain ⟨i, form, hi, rfl⟩ := meets_int_iff.1 hu
      obtain ⟨s, v₃, hs, hv₃, rfl⟩ := meetAll_sigil_iff.1 hv₂
      obtain ⟨v, is, c, hitems, hc, rfl⟩ := meets_items_iff.1 (meetAll_singleton_iff.1 hv₃)
      exact ⟨_, _, c, .cons hident hequals hi hs hitems, hc, rfl⟩

theorem meets_token_iff {g : Goal} {P : Token → Prop} [DecidablePred P] (hg : ∀ w, Meets g w ↔ ∃ t, P t ∧ w = [t])
    (hafter : ∀ t, g.after? t = if P t then some [] else none) :
    Meets g (t :: w) ↔ ∃ hs, g.after? t = some hs ∧ MeetAll hs w := by
  rw [hg, hafter]
  split_ifs with h
  · simp [h, meetAll_nil_iff]
  · simp [h]

theorem meets_after_iff {g : Goal} : Meets g (t :: w) ↔ ∃ hs, g.after? t = some hs ∧ MeetAll hs w := by
  cases g with
  | sigil s => exact meets_token_iff (fun _ => meets_sigil_iff) fun _ => rfl
  | ident => exact meets_token_iff (fun _ => meets_ident_iff) fun _ => rfl
  | int =>
    rw [meets_int_iff, Goal.after?]
    cases hk : t.kind <;> simp [hk, meetAll_nil_iff]
  | type => exact type_after_iff
  | fields => exact fields_after_iff
  | items => exact items_after_iff

theorem not_meets_nil {g : Goal} : ¬ Meets g [] := by
  intro h
  cases g with
  | sigil s => simp [meets_sigil_iff] at h
  | ident => simp [meets_ident_iff] at h
  | int => simp [meets_int_iff] at h
  | type =>
    obtain ⟨f, hf⟩ := meets_type_iff.1 h
    cases hf
  | fields => simp [meets_fields_iff] at h
  | items => simp [meets_items_iff] at h

end After

/-! ### Sentences -/

section Completes

variable {gs : List Goal} {t : Token} {w v : List Token}

theorem completes_nil_left_iff : Completes [] w ↔ ∃ forms, IsSchema w forms := by
  simp [Completes, meetAll_nil_iff]

theorem completes_nil_right_iff : Completes gs [] ↔ gs = [] := by
  constructor
  · rintro ⟨u, v, forms, hu, -, heq⟩
    obtain ⟨rfl, -⟩ := List.append_eq_nil_iff.1 heq.symm
    cases gs with
    | nil => rfl
    | cons g gs =>
      obtain ⟨u, v, hu, -, heq⟩ := meetAll_cons_iff.1 hu
      obtain ⟨rfl, -⟩ := List.append_eq_nil_iff.1 heq.symm
      exact absurd hu not_meets_nil
  · rintro rfl
    exact completes_nil_left_iff.2 ⟨[], .nil⟩

theorem isSchema_after_iff : (∃ forms, IsSchema (t :: w) forms) ↔ ∃ hs, after? t [] = some hs ∧ Completes hs w := by
  constructor
  · rintro ⟨forms, h⟩
    generalize hl : t :: w = l at h
    cases h with
    | nil => cases hl
    | @cons u v d ds hdecl hrest =>
      cases hdecl with
      | @enum k n o c u is hk hn ho hitems hc =>
        simp only [List.cons_append, List.cons.injEq] at hl
        obtain ⟨rfl, rfl⟩ := hl
        refine ⟨_, if_pos (Parser.isWord_iff.2 hk), n :: o :: (u ++ [c]), v, _, ?_, hrest, rfl⟩
        refine meetAll_cons_iff.2 ⟨[n], _, .ident hn, ?_, rfl⟩
        exact meetAll_sigil_iff.2 ⟨o, _, ho, meetAll_singleton_iff.2 (.items hitems hc), rfl⟩
      | @sequence k n o c u fs hk hn ho hfields hc =>
        simp only [List.cons_append, List.cons.injEq] at hl
        obtain ⟨rfl, rfl⟩ := hl
        have hother : ¬ t.IsWord "enum" := fun h => absurd (h.2.symm.trans hk.2) (by decide)
        refine ⟨[.ident, .sigil .openCurl, .fields], by simp [after?, Parser.isWord_iff, hk, hother],
          n :: o :: (u ++ [c]), v, _, ?_, hrest, rfl⟩
        refine meetAll_cons_iff.2 ⟨[n], _, .ident hn, ?_, rfl⟩
        exact meetAll_sigil_iff.2 ⟨o, _, ho, meetAll_singleton_iff.2 (.fields hfields hc), rfl⟩
  · rintro ⟨hs, hafter, u, v, forms, hu, hv, rfl⟩
    rw [after?] at hafter
    split_ifs at hafter with henum hsequence
    · cases hafter
      obtain ⟨_, u₁, hname, hu₁, rfl⟩ := meetAll_cons_iff.1 hu
      obtain ⟨n, hn, rfl⟩ := meets_ident_iff.1 hname
      obtain ⟨o, u₂, ho, hu₂, rfl⟩ := meetAll_sigil_iff.1 hu₁
      obtain ⟨u, is, c, hitems, hc, rfl⟩ := meets_items_iff.1 (meetAll_singleton_iff.1 hu₂)
      exact ⟨_, .cons (.enum (Parser.isWord_iff.1 henum) hn ho hitems hc) hv⟩
    · cases hafter
      obtain ⟨_, u₁, hname, hu₁, rfl⟩ := meetAll_cons_iff.1 hu
      obtain ⟨n, hn, rfl⟩ := meets_ident_iff.1 hname
      obtain ⟨o, u₂, ho, hu₂, rfl⟩ := meetAll_sigil_iff.1 hu₁
      obtain ⟨u, fs, c, hfields, hc, rfl⟩ := meets_fields_iff.1 (meetAll_singleton_iff.1 hu₂)
      exact ⟨_, .cons (.sequence (Parser.isWord_iff.1 hsequence) hn ho hfields hc) hv⟩

theorem completes_cons_iff : Completes gs (t :: w) ↔ ∃ hs, after? t gs = some hs ∧ Completes hs w := by
  cases gs with
  | nil => rw [completes_nil_left_iff, isSchema_after_iff]
  | cons g gs =>
    constructor
    · rintro ⟨u, v, forms, hu, hv, heq⟩
      obtain ⟨a, b, ha, hb, rfl⟩ := meetAll_cons_iff.1 hu
      cases a with
      | nil => exact absurd ha not_meets_nil
      | cons s a =>
        simp only [List.cons_append, List.cons.injEq, List.append_assoc] at heq
        obtain ⟨rfl, rfl⟩ := heq
        obtain ⟨hs, hafter, hmeet⟩ := meets_after_iff.1 ha
        refine ⟨hs ++ gs, by rw [after?, hafter]; rfl, a ++ b, v, forms, ?_, hv, (List.append_assoc ..).symm⟩
        exact meetAll_append_iff.2 ⟨a, b, hmeet, hb, rfl⟩
    · rintro ⟨hs, hafter, u, v, forms, hu, hv, rfl⟩
      obtain ⟨ks, hks, rfl⟩ := Option.map_eq_some_iff.1 hafter
      obtain ⟨a, b, ha, hb, rfl⟩ := meetAll_append_iff.1 hu
      exact ⟨t :: a ++ b, v, forms, .cons (meets_after_iff.2 ⟨ks, hks, ha⟩) hb, hv, rfl⟩

theorem completes_append_iff : Completes gs (w ++ v) ↔ ∃ hs, afterAll? gs w = some hs ∧ Completes hs v := by
  induction w generalizing gs with
  | nil => simp [afterAll?]
  | cons t w ih =>
    rw [List.cons_append, completes_cons_iff]
    simp only [ih, afterAll?, Option.bind_eq_some_iff]
    constructor
    · rintro ⟨hs, hafter, ks, hks, hv⟩
      exact ⟨ks, ⟨hs, hafter, hks⟩, hv⟩
    · rintro ⟨ks, ⟨hs, hafter, hks⟩, hv⟩
      exact ⟨hs, hafter, ks, hks, hv⟩

theorem exists_meets (g : Goal) : ∃ w, Meets g w := by
  cases g with
  | sigil s => exact ⟨[⟨.sigil s, s.text⟩], .sigil rfl⟩
  | ident => exact ⟨[⟨.ident, "x"⟩], .ident rfl⟩
  | int => exact ⟨[⟨.int .plain, "0"⟩], .int rfl⟩
  | type => exact ⟨[⟨.ident, "x"⟩], .type (.name rfl fun h => absurd h.2 (by decide))⟩
  | fields => exact ⟨[⟨.sigil .closeCurl, Sigil.closeCurl.text⟩], .fields .nil rfl⟩
  | items => exact ⟨[⟨.sigil .closeCurl, Sigil.closeCurl.text⟩], .items .nil rfl⟩

theorem exists_completes (gs : List Goal) : ∃ w, Completes gs w := by
  have hmeet : ∃ u, MeetAll gs u := by
    induction gs with
    | nil => exact ⟨[], .nil⟩
    | cons g gs ih =>
      obtain ⟨w, hw⟩ := exists_meets g
      obtain ⟨u, hu⟩ := ih
      exact ⟨w ++ u, .cons hw hu⟩
  obtain ⟨u, hu⟩ := hmeet
  exact ⟨u ++ [], u, [], [], hu, .nil, rfl⟩

theorem viable_iff : Viable w ↔ ∃ gs, afterAll? [] w = some gs := by
  have hviable : Viable w ↔ ∃ v, Completes [] (w ++ v) := by simp only [Viable, completes_nil_left_iff]
  rw [hviable]
  constructor
  · rintro ⟨v, hv⟩
    obtain ⟨gs, hgs, -⟩ := completes_append_iff.1 hv
    exact ⟨gs, hgs⟩
  · rintro ⟨gs, hgs⟩
    obtain ⟨v, hv⟩ := exists_completes gs
    exact ⟨v, completes_append_iff.2 ⟨gs, hgs, hv⟩⟩

theorem isSchema_iff : (∃ forms, IsSchema w forms) ↔ afterAll? [] w = some [] := by
  rw [← completes_nil_left_iff, ← List.append_nil w, completes_append_iff]
  simp [completes_nil_right_iff]

theorem afterAll?_append (gs : List Goal) (w v : List Token) :
    afterAll? gs (w ++ v) = (afterAll? gs w).bind (afterAll? · v) := by
  induction w generalizing gs with
  | nil => rfl
  | cons t w ih => simp only [List.cons_append, afterAll?, ih, Option.bind_assoc]

end Completes

end Flatwire.Grammar
