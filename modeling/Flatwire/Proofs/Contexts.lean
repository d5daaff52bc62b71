import Flatwire.Proofs.Munch
import Flatwire.Tree.Context

/-! Contexts follow the parser. Between steps a context stands where the parser's stream begins: what is pending or still
to come is that stream, and the source left begins with its text. A step adds to the children and to the count exactly
what the parser takes, also when a child with a context of its own takes it. So both find the same nodes and errors. -/

namespace Flatwire.Context

variable {c d : Context} {ts ts' : TokenStream} {t : Token} {e : SyntaxError} {α β : Type} {keep : Bool} {fuel : Nat}
  {m n : Parsing Unit} {p : Parser α} {k : α → Parser β} {R : α → TokenStream → List Node → Prop}
  {S : β → TokenStream → List Node → Prop} {ns ms : List Node}

/-- The context stands where the stream begins. -/
structure At (c : Context) (ts : TokenStream) : Prop where
  ahead : c.pending = none ∧ c.stream = ts ∨ ∃ t, c.pending = some t ∧ ts.peek = .ok t ∧ c.stream = ts.advance
  offset : c.offset = ts.offset
  src : Token.texts ts.tokens <+: c.src
  solid : ∀ t ∈ ts.tokens, t.text ≠ []

/-- From one place to another the context took the nodes and counted all bytes between. -/
structure Moves (keep : Bool) (c : Context) (ts : TokenStream) (ns : List Node) (d : Context) (ts' : TokenStream) :
    Prop where
  there : d.At ts'
  le : ts.offset ≤ ts'.offset
  lt : ns ≠ [] → ts.offset < ts'.offset
  src : d.src = c.src.drop (ts'.offset - ts.offset)
  consumed : d.consumed = c.consumed + (ts'.offset - ts.offset)
  children : d.children = c.children ++ ns
  spells : keep = true → ts.Spells ns ts'

/-- The context gets as far as the parser does from the stream, or to the parser's error. -/
def Follows (keep : Bool) (m : Parsing Unit) (p : Parser α) (c : Context) (ts : TokenStream)
    (R : α → TokenStream → List Node → Prop) : Prop :=
  match p ts with
  | .error e => m c = .error e
  | .ok (a, ts') => ∃ d ns, m c = .ok ((), d) ∧ Moves keep c ts ns d ts' ∧ R a ts' ns

theorem At.moves (h : c.At ts) : Moves keep c ts [] c ts :=
  ⟨h, Nat.le_refl _, fun h => absurd rfl h, by simp, by simp, by simp, fun _ => .refl ts⟩

theorem Moves.trans {b : Context} {ts₁ : TokenStream} (h : Moves keep c ts ns b ts₁) (h' : Moves keep b ts₁ ms d ts') :
    Moves keep c ts (ns ++ ms) d ts' := by
  have hle := h.le
  have hle' := h'.le
  refine ⟨h'.there, by omega, fun hne => ?_, ?_, ?_, by rw [h'.children, h.children, List.append_assoc],
    fun hk => (h.spells hk).trans (h'.spells hk)⟩
  · rcases ne_or_eq ns [] with hns | rfl
    · exact Nat.lt_of_lt_of_le (h.lt hns) hle'
    · exact Nat.lt_of_le_of_lt hle (h'.lt hne)
  · rw [h'.src, h.src, List.drop_drop]
    congr 1
    omega
  · rw [h'.consumed, h.consumed]
    omega

theorem Follows.pure {a : α} (h : c.At ts) (hr : R a ts []) : Follows keep (pure ()) (pure a) c ts R :=
  ⟨c, [], rfl, h.moves, hr⟩

theorem Follows.congr {q : Parser α} (h : Follows keep m q c ts R) (hp : p ts = q ts) (hm : n c = m c) :
    Follows keep n p c ts R := by
  unfold Follows at h ⊢
  rwa [hp, hm]

theorem Follows.andThen {r : Parsing Unit} (h : Follows keep m p c ts R) (herror : ∀ e, m c = .error e → r c = .error e)
    (hok : ∀ a ts₁ ns d, m c = .ok ((), d) → Moves keep c ts ns d ts₁ → R a ts₁ ns → r c = n d)
    (hk : ∀ a ts₁ ns d, d.At ts₁ → R a ts₁ ns → Follows keep n (k a) d ts₁ fun y ts' ms => S y ts' (ns ++ ms)) :
    Follows keep r (p >>= k) c ts S := by
  have hbind : (p >>= k) ts = p ts >>= fun x => k x.1 x.2 := rfl
  unfold Follows at h hk ⊢
  rw [hbind]
  cases hp : p ts with
  | error e =>
    rw [hp] at h
    exact herror e h
  | ok x =>
    rw [hp] at h
    obtain ⟨d, ns, hm, hmoves, hr⟩ := h
    have hnext := hk x.1 x.2 ns d hmoves.there hr
    rw [ok_bind, hok x.1 x.2 ns d hm hmoves hr]
    cases hq : k x.1 x.2 with
    | error e => rwa [hq] at hnext
    | ok y =>
      rw [hq] at hnext
      obtain ⟨d', ms, hn, hmoves', hs⟩ := hnext
      exact ⟨d', ns ++ ms, hn, hmoves.trans hmoves', hs⟩

theorem Follows.bind (h : Follows keep m p c ts R)
    (hk : ∀ a ts₁ ns d, d.At ts₁ → R a ts₁ ns → Follows keep n (k a) d ts₁ fun y ts' ms => S y ts' (ns ++ ms)) :
    Follows keep (m >>= fun _ => n) (p >>= k) c ts S := by
  have hbind : (m >>= fun _ => n) c = m c >>= fun x => n x.2 := rfl
  refine h.andThen (fun e he => ?_) (fun a ts₁ ns d hd _ _ => ?_) hk
  · rw [hbind, he]
    rfl
  · rw [hbind, hd]
    rfl

theorem Follows.andOn (h : Follows keep m p c ts R) (hne : ∀ a ts₁ ns, R a ts₁ ns → ns ≠ [])
    (hk : ∀ a ts₁ ns d, d.At ts₁ → R a ts₁ ns → Follows keep n (k a) d ts₁ fun y ts' ms => S y ts' (ns ++ ms)) :
    Follows keep (Context.andOn m n) (p >>= k) c ts S := by
  refine h.andThen (fun e he => ?_) (fun a ts₁ ns d hd hmoves hr => ?_) hk
  · rw [Context.andOn, he]
    rfl
  · have hlt := hmoves.lt (hne a ts₁ ns hr)
    rw [Context.andOn, hd, ok_bind]
    exact if_neg (by rw [hmoves.consumed]; omega)

/-- After the last step the parser puts the tree together. -/
theorem Follows.last (h : Follows keep m p c ts R)
    (hk : ∀ a ts₁ ns, R a ts₁ ns → ∃ b, k a ts₁ = .ok (b, ts₁) ∧ S b ts₁ ns) : Follows keep m (p >>= k) c ts S := by
  have hbind : (p >>= k) ts = p ts >>= fun x => k x.1 x.2 := rfl
  unfold Follows at h ⊢
  rw [hbind]
  cases hp : p ts with
  | error e => rwa [hp] at h
  | ok x =>
    rw [hp] at h
    obtain ⟨d, ns, hm, hmoves, hr⟩ := h
    obtain ⟨b, hb, hs⟩ := hk x.1 x.2 ns hr
    rw [ok_bind, hb]
    exact ⟨d, ns, hm, hmoves, hs⟩

/-! ### Looking and taking -/

theorem tokens_of_peek (h : ts.peek = .ok t) : (∃ r, ts.tokens = t :: r) ∨ ts.tokens = [] ∧ t = ⟨.eof, []⟩ := by
  have hpeek : Parser.peek ts = .ok (t, ts) := by rw [Parser.peek, h]; rfl
  exact (Parser.peek_eq_ok hpeek).2.imp_right fun h => ⟨h.1, h.2.2⟩

/-- The context with a token pending. -/
def holding (c : Context) (ts : TokenStream) (t : Token) : Context := { c with pending := some t, stream := ts.advance }

theorem At.holding (h : c.At ts) (hp : ts.peek = .ok t) (keep : Bool) : Moves keep c ts [] (c.holding ts t) ts :=
  { h.moves with there := { h with ahead := .inr ⟨t, rfl, hp, rfl⟩ } }

theorem At.look (h : c.At ts) (hp : ts.peek = .ok t) : look c = .ok (t, c.holding ts t) := by
  have htext : c.src.take t.text.length = t.text := by
    rcases tokens_of_peek hp with ⟨r, hr⟩ | ⟨-, rfl⟩
    · exact (List.prefix_iff_eq_take.1 ((List.prefix_append _ _).trans (hr ▸ h.src))).symm
    · rfl
  rcases h.ahead with ⟨hpend, hstream⟩ | ⟨t', hpend, hpeek, hstream⟩
  · simp only [Context.look, hpend, hstream, hp, Except.map, ok_bind, htext]
    rfl
  · cases hpeek.symm.trans hp
    have hsame : c.holding ts t = c := by rw [Context.holding, ← hpend, ← hstream]
    simp only [Context.look, hpend, ok_bind, htext, hsame]
    rfl

theorem At.look_error (h : c.At ts) (hp : ts.peek = .error e) : Context.look c = .error e := by
  rcases h.ahead with ⟨hpend, hstream⟩ | ⟨t, -, hpeek, -⟩
  · simp only [Context.look, hpend, hstream, hp]
    rfl
  · cases hpeek.symm.trans hp

/-- Looking is followed by looking. -/
theorem look_follows {f : Token → Parsing Unit} {q : Token → Parser α} (h : c.At ts)
    (hf : ∀ t d, ts.peek = .ok t → d.At ts → d.stream = ts.advance → Follows keep (f t) (q t) d ts R) :
    Follows keep (look >>= f) (Parser.peek >>= q) c ts R := by
  have hbind : (look >>= f) c = look c >>= fun x => f x.1 x.2 := rfl
  have hbind' : (Parser.peek >>= q) ts = Parser.peek ts >>= fun x => q x.1 x.2 := rfl
  cases hp : ts.peek with
  | error e =>
    unfold Follows
    rw [hbind, hbind', h.look_error hp, Parser.peek, hp]
    rfl
  | ok t =>
    have hd := h.holding hp keep
    have hft := hf t (c.holding ts t) hp hd.there rfl
    unfold Follows at hft ⊢
    rw [hbind, hbind', h.look hp, Parser.peek, hp]
    change match q t ts with | .error e => _ | .ok (a, ts') => _
    split at hft
    · exact hft
    · obtain ⟨d, ns, hm, hmoves, hr⟩ := hft
      exact ⟨d, ns, hm, hd.trans hmoves, hr⟩

theorem consume_moves {r : List Token} (h : c.At ts) (hts : ts.tokens = t :: r) (hc : c.stream = ts.advance)
    (kind : Option LeafKind) (hkind : keep = true → kind ≠ none) :
    ∃ d, consume t kind c = .ok ((), d) ∧ ts.offset < ts.advance.offset ∧
      Moves keep c ts (kind.map fun k => Node.leaf k ⟨ts.offset, t.text⟩).toList d ts.advance := by
  have hnext : ts.advance = ⟨r, ts.failure, ts.offset + t.text.length⟩ := by rw [TokenStream.advance, hts]
  have hpos := List.length_pos_of_ne_nil (h.solid t (by rw [hts]; exact List.mem_cons_self))
  have hsrc : Token.texts r <+: c.src.drop t.text.length := by
    obtain ⟨rest, hrest⟩ := h.src
    have htexts : Token.texts (t :: r) = t.text ++ Token.texts r := rfl
    rw [hts, htexts, List.append_assoc] at hrest
    exact ⟨rest, by rw [← hrest, List.drop_left]⟩
  refine ⟨_, rfl, ?_, ⟨.inl ⟨rfl, hc⟩, ?_, ?_, ?_⟩, ?_, fun _ => ?_, ?_, ?_, by rw [h.offset], fun hk => ?_⟩ <;>
    rw [hnext]
  · exact Nat.lt_add_of_pos_right hpos
  · exact congrArg (· + _) h.offset
  · exact hsrc
  · exact fun u hu => h.solid u (by rw [hts]; exact List.mem_cons_of_mem _ hu)
  · exact Nat.le_add_right _ _
  · exact Nat.lt_add_of_pos_right hpos
  · rw [Nat.add_sub_cancel_left]
  · rw [Nat.add_sub_cancel_left]
  · obtain ⟨k, rfl⟩ := Option.ne_none_iff_exists'.1 (hkind hk)
    refine ⟨⟨[t], hts, ?_⟩, ?_, rfl, trivial⟩ <;> simp [Token.texts, Node.unparseAll, Node.unparse]

theorem consume_follows (h : c.At ts) (hp : ts.peek = .ok t) (ht : t.kind ≠ .eof) (hc : c.stream = ts.advance)
    (k : LeafKind) : Follows keep (consume t (some k)) (Parser.take t) c ts fun l _ ns => ns = [.leaf k l] := by
  obtain ⟨r, hts⟩ := (tokens_of_peek hp).resolve_right fun h => ht (by rw [h.2])
  obtain ⟨d, hd, -, hmoves⟩ := consume_moves h hts hc (some k) fun _ => nofun
  exact ⟨d, _, hd, hmoves, rfl⟩

theorem refuse_follows {cause : SyntaxError.Cause} (h : c.At ts) :
    Follows keep (refuse t cause) (Parser.refuse t cause) c ts R := by
  unfold Follows
  simp only [Parser.refuse, refuse, h.offset]

theorem kind_follows {kind : Token.Kind} {k : LeafKind} {cause : Token → SyntaxError.Cause} (hkind : kind ≠ .eof)
    (h : c.At ts) : Follows keep (accept fun t => if t.kind = kind then .ok k else .error (cause t))
      (do let t ← Parser.peek; if t.kind = kind then Parser.take t else Parser.refuse t (cause t)) c ts
      fun l _ ns => ns = [.leaf k l] := by
  refine look_follows h fun t d hp hd hc => ?_
  by_cases ht : t.kind = kind <;> simp only [ht, if_true, if_false]
  · exact consume_follows hd hp (ht ▸ hkind) hc k
  · exact refuse_follows hd

theorem sigil_follows (h : c.At ts) (s : Sigil) :
    Follows keep (sigil s) (Parser.sigil s) c ts fun l _ ns => ns = [l.sigil] := kind_follows nofun h

theorem ident_follows (h : c.At ts) : Follows keep ident Parser.ident c ts fun l _ ns => ns = [l.ident] :=
  kind_follows nofun h

theorem int_follows (h : c.At ts) : Follows keep int Parser.int c ts fun i _ ns => ns = [i.toNode] := by
  refine look_follows h fun t d hp hd hc => ?_
  cases hk : t.kind with
  | int form =>
    by_cases hv : Parser.intValue form t.text < 0x10000000000000000 <;> simp only [hk, hv, if_true, if_false]
    · exact (consume_follows hd hp (by simp [hk]) hc _).last fun l _ _ hn => ⟨_, rfl, hn⟩
    · exact refuse_follows hd
  | _ =>
    simp only [hk]
    exact refuse_follows hd

/-! ### Gaps -/

theorem splitGap_of_triviaKind? {k : LeafKind} (h : triviaKind? t.kind = some k) (offset : Nat) (tokens : List Token) :
    Gap.toNodes (Parser.splitGap offset (t :: tokens)).1 =
        .leaf k ⟨offset, t.text⟩ :: Gap.toNodes (Parser.splitGap (offset + t.text.length) tokens).1 ∧
      (Parser.splitGap offset (t :: tokens)).2 = (Parser.splitGap (offset + t.text.length) tokens).2 := by
  cases hk : t.kind <;> simp_all [triviaKind?, Parser.splitGap, Gap.toNodes, Trivium.toNode]

theorem Moves.of_ready (h : Moves keep c ts [] d ts) (hready : ts.Ready) :
    Moves keep c ts (if keep then Gap.toNodes (Parser.splitGap ts.offset ts.tokens).1 else []) d (Parser.skipGap ts) := by
  have hsplit : Parser.splitGap ts.offset ts.tokens = ([], ts.offset, ts.tokens) := by
    cases hts : ts.tokens with
    | nil => rfl
    | cons t r => exact Parser.splitGap_significant _ _ (hready t (by rw [hts]; rfl))
  rw [Parser.skipGap, hsplit]
  simpa [Gap.toNodes] using h

theorem ready_of_peek (h : ∀ t, ts.peek = .ok t → triviaKind? t.kind = none) : ts.Ready := by
  intro u hu
  obtain ⟨r, hts⟩ := List.head?_eq_some_iff.1 hu
  have hk := h u (by rw [TokenStream.peek, hts])
  cases hkind : u.kind <;> simp_all [triviaKind?, Token.Kind.isTrivia]

theorem skip_moves (keep : Bool) {rounds : Nat} (h : c.At ts) (hr : ts.tokens.length < rounds) :
    ∃ d, skip keep rounds c = .ok ((), d) ∧
      Moves keep c ts (if keep then Gap.toNodes (Parser.splitGap ts.offset ts.tokens).1 else []) d (Parser.skipGap ts) := by
  induction rounds generalizing c ts with
  | zero => cases hr
  | succ rounds ih =>
    cases hp : ts.peek with
    | error e =>
      refine ⟨c, by rw [skip, h.look_error hp], h.moves.of_ready (ready_of_peek fun t ht => ?_)⟩
      cases ht.symm.trans hp
    | ok t =>
      have hhold := h.holding hp keep
      cases hk : triviaKind? t.kind with
      | none =>
        refine ⟨c.holding ts t, by simp only [skip, h.look hp, hk], hhold.of_ready (ready_of_peek fun u hu => ?_)⟩
        cases hu.symm.trans hp
        exact hk
      | some k =>
        obtain ⟨r, hts⟩ := (tokens_of_peek hp).resolve_right fun h => by
          rw [h.2] at hk
          cases hk
        obtain ⟨d, hd, hlt, hmoves⟩ := consume_moves hhold.there hts rfl (if keep then some k else none)
          fun h : keep = true => by simp [h]
        obtain ⟨hnodes, hrest⟩ := splitGap_of_triviaKind? hk ts.offset r
        have hnext : ts.advance = ⟨r, ts.failure, ts.offset + t.text.length⟩ := by rw [TokenStream.advance, hts]
        obtain ⟨d', hd', hmoves'⟩ := ih hmoves.there (by rw [hts] at hr; rw [hnext]; exact Nat.lt_of_succ_lt_succ hr)
        refine ⟨d', ?_, ?_⟩
        · have hcount : d.consumed ≠ (c.holding ts t).consumed := by rw [hmoves.consumed]; omega
          simp only [skip, h.look hp, hk, Context.andOn, hd, ok_bind, if_neg hcount, hd']
        · have hskip : Parser.skipGap ts.advance = Parser.skipGap ts := by
            rw [Parser.skipGap, Parser.skipGap, hts, hrest, hnext]
          have hall := hhold.trans (hmoves.trans hmoves')
          rw [hskip, hnext] at hall
          convert hall using 1
          rw [hts, hnodes]
          cases keep <;> rfl

theorem length_le_texts {us : List Token} (h : ∀ t ∈ us, t.text ≠ []) : us.length ≤ (Token.texts us).length := by
  induction us with
  | nil => exact Nat.le_refl 0
  | cons t us ih =>
    rw [List.forall_mem_cons] at h
    have hpos := List.length_pos_of_ne_nil h.1
    have hrest := ih h.2
    have htexts : Token.texts (t :: us) = t.text ++ Token.texts us := rfl
    rw [htexts, List.length_append, List.length_cons]
    omega

theorem gap_follows (h : c.At ts) (keep : Bool) :
    Follows keep (gap keep) (Parser.gap keep) c ts fun g _ ns => ns = Gap.toNodes g := by
  have hlen := Nat.le_trans (length_le_texts h.solid) h.src.length_le
  obtain ⟨d, hd, hmoves⟩ := skip_moves keep h (Nat.lt_succ_of_le hlen)
  refine ⟨d, _, hd, hmoves, ?_⟩
  cases keep <;> rfl

/-- A step with a gap behind it. -/
theorem Follows.gapped {f : α → List Node} {k : α → Gap → Parser β} (h : Follows keep m p c ts fun a _ ns => ns = f a)
    (hk : ∀ a g ts₁ d, d.At ts₁ → Follows keep n (k a g) d ts₁ fun y ts' ms => S y ts' (f a ++ (Gap.toNodes g ++ ms))) :
    Follows keep (do m; gap keep; n) (p >>= fun a => Parser.gap keep >>= k a) c ts S := by
  refine h.bind fun a _ ns _ h₁ hns => (gap_follows h₁ keep).bind fun g ts₂ ms d h₂ hms => ?_
  rw [hns, hms]
  exact hk a g ts₂ d h₂

/-! ### Children -/

/-- The nodes are all the children of a branch over what was taken. -/
def Fills (node : Node) (kind : Branch) (ts ts' : TokenStream) (ns : List Node) : Prop :=
  node = .branch kind ⟨ts.offset, ts'.offset - ts.offset⟩ ns ∧ ns ≠ []

/-- A child becomes one node of its parent. -/
theorem child_follows {kind : Branch} (node : α → Node)
    (h : Follows keep m p { c with consumed := 0, children := [] } ts fun a ts' ns => Fills (node a) kind ts ts' ns) :
    Follows keep (child kind m) p c ts fun a _ ns => ns = [node a] := by
  unfold Follows at h ⊢
  cases hp : p ts with
  | error e =>
    rw [hp] at h
    simp only [child, h]
    rfl
  | ok x =>
    rw [hp] at h
    obtain ⟨d, ns, hm, hmoves, hnode, hne⟩ := h
    have hlt := hmoves.lt hne
    have hcount : d.consumed = x.2.offset - ts.offset := hmoves.consumed.trans (Nat.zero_add _)
    have hsome : d.consumed ≠ 0 := by omega
    have hstart : d.offset - d.consumed = ts.offset := by
      rw [hcount, hmoves.there.offset, Nat.sub_sub_self hmoves.le]
    refine ⟨_, [node x.1], by simp only [child, hm, ok_bind, if_neg hsome]; rfl, ?_, rfl⟩
    refine ⟨⟨hmoves.there.ahead, hmoves.there.offset, ?_, hmoves.there.solid⟩, hmoves.le, fun _ => hlt, ?_, ?_, ?_, ?_⟩
    · exact hcount ▸ hmoves.src ▸ hmoves.there.src
    · exact hcount ▸ rfl
    · exact hcount ▸ rfl
    · rw [hnode, hstart, hcount, hmoves.children]
      rfl
    · exact fun hk => hnode ▸ (hmoves.spells hk).branch kind

theorem At.fresh (h : c.At ts) : ({ c with consumed := 0, children := [] } : Context).At ts :=
  ⟨h.ahead, h.offset, h.src, h.solid⟩

/-! ### Constructs -/

def TypeFollows (keep : Bool) (fuel : Nat) : Prop := ∀ {c : Context} {ts : TokenStream}, c.At ts →
  Follows keep (typeExpr keep fuel) (Parser.typeExpr keep fuel) c ts fun a _ ns => ns = [a.toNode]

def FieldsFollow (keep : Bool) (fuel : Nat) : Prop := ∀ {c : Context} {ts : TokenStream}, c.At ts →
  Follows keep (fields keep fuel) (Parser.fields keep fuel) c ts fun a _ ns => ns = a.1.toNodes ++ [a.2.sigil]

theorem ne_eof_of_isWord {word : String} (h : Parser.isWord t word = true) : t.kind ≠ .eof := by
  intro heof
  simp [Parser.isWord, heof] at h

theorem Follows.offset {f : Nat → Parser α} (h : Follows keep m (f ts.offset) c ts R) :
    Follows keep m (Parser.offset >>= f) c ts R := h

theorem typeFollows_succ (ihType : TypeFollows keep fuel) (ihFields : FieldsFollow keep fuel) :
    TypeFollows keep (fuel + 1) := by
  intro c ts h
  rw [typeExpr, Parser.typeExpr]
  refine Follows.offset (look_follows h fun t d hp hd hc => ?_)
  split_ifs with hopen hword hident
  · refine child_follows TypeExpr.toNode ?_
    refine (consume_follows hd.fresh hp (by simp [hopen]) hc .sigil).gapped fun opening gap₁ _ _ h₁ => ?_
    refine (ihType h₁).gapped fun elem gap₂ _ _ h₂ => ?_
    refine (sigil_follows h₂ .closeSquare).last fun closing _ _ hn => ⟨_, rfl, ?_, by simp⟩
    simp [TypeExpr.toNode, hn, Lexeme.sigil]
  · refine child_follows TypeExpr.toNode ?_
    refine (consume_follows hd.fresh hp (ne_eof_of_isWord hword) hc .keyword).gapped fun keyword gap₁ _ _ h₁ => ?_
    refine (sigil_follows h₁ .openCurl).gapped fun opening gap₂ _ _ h₂ => ?_
    refine (ihFields h₂).last fun variants _ _ hn => ⟨_, rfl, ?_, by simp⟩
    simp [TypeExpr.toNode, hn, Lexeme.keyword]
  · refine child_follows TypeExpr.toNode ?_
    obtain ⟨r, hts⟩ := (tokens_of_peek hp).resolve_right fun h => by simp [h.2] at hident
    obtain ⟨d', hd', -, hmoves⟩ := consume_moves hd.fresh hts hc (some .ident) fun _ => Option.some_ne_none _
    refine ⟨d', _, hd', hmoves, ?_, List.cons_ne_nil _ _⟩
    simp [TypeExpr.toNode, Lexeme.span, Lexeme.ident, TokenStream.advance, hts]
  · exact refuse_follows hd

/-- A loop over items with gaps behind them. -/
theorem items_follow {node : α → Node} (l : α × Gap → Parser β) (h : Follows keep m p c ts fun a _ ns => ns = [node a])
    (hl : ∀ a g ts₁ d, d.At ts₁ →
      Follows keep n (l (a, g)) d ts₁ fun y ts' ms => S y ts' (node a :: Gap.toNodes g ++ ms)) :
    Follows keep (andOn (do m; gap keep) n) ((do return (← p, ← Parser.gap keep)) >>= l) c ts S := by
  have hitem : Follows keep (do m; gap keep) (do return (← p, ← Parser.gap keep)) c ts
      fun x _ ns => ns = node x.1 :: Gap.toNodes x.2 :=
    h.bind fun a _ _ _ h₁ hn₁ => (gap_follows h₁ keep).last fun g _ _ hn₂ => ⟨_, rfl, by rw [hn₁, hn₂]; rfl⟩
  refine hitem.andOn (fun _ _ _ hn => hn ▸ nofun) fun x ts₁ ns d h₁ hn => ?_
  rw [hn]
  exact hl x.1 x.2 ts₁ d h₁

/-- A field as the parser reads it inside a list of fields. -/
def fieldOf (keep : Bool) (fuel : Nat) : Parser FieldExpr := do
  let start ← Parser.offset
  let name ← Parser.ident
  let gap₁ ← Parser.gap keep
  let colon ← Parser.sigil .colon
  let gap₂ ← Parser.gap keep
  let type ← Parser.typeExpr keep fuel
  let gap₃ ← Parser.gap keep
  let semicolon ← Parser.sigil .semicolon
  return .mk (← Parser.spanFrom start) name gap₁ colon gap₂ type gap₃ semicolon

theorem field_follows (ihType : TypeFollows keep fuel) (h : c.At ts) :
    Follows keep (field keep (typeExpr keep fuel)) (fieldOf keep fuel) c ts fun f _ ns => ns = [f.toNode] := by
  refine child_follows FieldExpr.toNode (Follows.offset ?_)
  refine (ident_follows h.fresh).gapped fun name gap₁ _ _ h₁ => ?_
  refine (sigil_follows h₁ .colon).gapped fun colon gap₂ _ _ h₂ => ?_
  refine (ihType h₂).gapped fun type gap₃ _ _ h₃ => ?_
  refine (sigil_follows h₃ .semicolon).last fun semicolon _ _ hn => ⟨_, rfl, ?_, by simp⟩
  simp [FieldExpr.toNode, hn]

theorem fieldsFollow_succ (ihType : TypeFollows keep fuel) (ihFields : FieldsFollow keep fuel) :
    FieldsFollow keep (fuel + 1) := by
  intro c ts h
  rw [fields, Parser.fields]
  refine look_follows h fun t d hp hd hc => ?_
  split_ifs with hclose
  · exact (consume_follows hd hp (by simp [hclose]) hc .sigil).last fun l _ _ hn => ⟨_, rfl, hn⟩
  · refine Follows.congr (items_follow (fun x => do
      let rest ← Parser.fields keep fuel
      return (.cons x.1 x.2 rest.1, rest.2)) (field_follows ihType hd) fun f g _ _ h₁ => ?_)
      (by simp only [fieldOf, bind_assoc, pure_bind]) rfl
    exact (ihFields h₁).last fun r _ _ hn => ⟨_, rfl, by simp [hn, FieldList.toNodes]⟩

theorem typeFollows_fieldsFollow (keep : Bool) (fuel : Nat) : TypeFollows keep fuel ∧ FieldsFollow keep fuel := by
  induction fuel with
  | zero =>
    constructor
    · intro c ts h
      rw [typeExpr, Parser.typeExpr]
      exact look_follows h fun _ _ _ hd _ => refuse_follows hd
    · intro c ts h
      rw [fields, Parser.fields]
      exact look_follows h fun _ _ _ hd _ => refuse_follows hd
  | succ fuel ih => exact ⟨typeFollows_succ ih.1 ih.2, fieldsFollow_succ ih.1 ih.2⟩

theorem enumItem_follows (h : c.At ts) :
    Follows keep (enumItem keep) (Parser.enumItem keep) c ts fun i _ ns => ns = [i.toNode] := by
  refine child_follows EnumItem.toNode (Follows.offset ?_)
  refine (ident_follows h.fresh).gapped fun name gap₁ _ _ h₁ => ?_
  refine (sigil_follows h₁ .equals).gapped fun equals gap₂ _ _ h₂ => ?_
  refine (int_follows h₂).gapped fun value gap₃ _ _ h₃ => ?_
  refine (sigil_follows h₃ .semicolon).last fun semicolon _ _ hn => ⟨_, rfl, ?_, by simp⟩
  simp [EnumItem.toNode, hn]

theorem enumItems_follow (h : c.At ts) : Follows keep (enumItems keep fuel) (Parser.enumItems keep fuel) c ts
    fun a _ ns => ns = a.1.flatMap (fun i => i.1.toNode :: Gap.toNodes i.2) ++ [a.2.sigil] := by
  induction fuel generalizing c ts with
  | zero => exact look_follows h fun _ _ _ hd _ => refuse_follows hd
  | succ fuel ih =>
    rw [enumItems, Parser.enumItems]
    refine look_follows h fun t d hp hd hc => ?_
    split_ifs with hclose
    · exact (consume_follows hd hp (by simp [hclose]) hc .sigil).last fun l _ _ hn => ⟨_, rfl, hn⟩
    · refine Follows.congr (items_follow (fun x => do
        let rest ← Parser.enumItems keep fuel
        return (x :: rest.1, rest.2)) (enumItem_follows hd) fun i g _ _ h₁ => ?_)
        (by simp only [bind_assoc, pure_bind]) rfl
      exact (ih h₁).last fun r _ _ hn => ⟨_, rfl, by simp [hn]⟩

section Word

variable {word : String} (h : c.At ts) (hp : ts.peek = .ok t) (hw : Parser.isWord t word = true)
  (hc : c.stream = ts.advance) (keep : Bool) (fuel : Nat)

include h hp hw hc

theorem enumDecl_follows : Follows keep (child .enum (decl keep t (enumItems keep fuel)))
    (Parser.enumDecl keep fuel t) c ts fun d _ ns => ns = [d.toNode] := by
  refine child_follows EnumDecl.toNode (Follows.offset ?_)
  refine (consume_follows h.fresh hp (ne_eof_of_isWord hw) hc .keyword).gapped fun keyword gap₁ _ _ h₁ => ?_
  refine (ident_follows h₁).gapped fun name gap₂ _ _ h₂ => ?_
  refine (sigil_follows h₂ .openCurl).gapped fun opening gap₃ _ _ h₃ => ?_
  refine (enumItems_follow h₃).last fun items _ _ hn => ⟨_, rfl, ?_, by simp⟩
  simp [EnumDecl.toNode, hn, Lexeme.keyword]

theorem sequenceDecl_follows : Follows keep (child .sequence (decl keep t (fields keep fuel)))
    (Parser.sequenceDecl keep fuel t) c ts fun d _ ns => ns = [d.toNode] := by
  refine child_follows SequenceDecl.toNode (Follows.offset ?_)
  refine (consume_follows h.fresh hp (ne_eof_of_isWord hw) hc .keyword).gapped fun keyword gap₁ _ _ h₁ => ?_
  refine (ident_follows h₁).gapped fun name gap₂ _ _ h₂ => ?_
  refine (sigil_follows h₂ .openCurl).gapped fun opening gap₃ _ _ h₃ => ?_
  refine ((typeFollows_fieldsFollow keep fuel).2 h₃).last fun fs _ _ hn => ⟨_, rfl, ?_, by simp⟩
  simp [SequenceDecl.toNode, hn, Lexeme.keyword]

end Word

theorem decls_follow (h : c.At ts) : Follows keep (decls keep fuel) (Parser.decls keep fuel) c ts fun ds ts' ns =>
    ns = (ds.flatMap fun d => d.1.toNode :: Gap.toNodes d.2) ∧ ts'.peek.map Token.kind = .ok .eof := by
  induction fuel generalizing c ts with
  | zero => exact look_follows h fun _ _ _ hd _ => refuse_follows hd
  | succ fuel ih =>
    rw [decls, Parser.decls]
    refine look_follows h fun t d hp hd hc => ?_
    split_ifs with heof henum hsequence hident
    · exact .pure hd ⟨rfl, by rw [hp, Except.map, heof]⟩
    · refine Follows.congr (items_follow (fun x => do return (.enum x.1, x.2) :: (← Parser.decls keep fuel))
        (enumDecl_follows hd hp henum hc keep fuel) fun _ _ _ _ h₁ => ?_) (by simp only [bind_assoc, pure_bind]) rfl
      exact (ih h₁).last fun ds _ _ hn => ⟨_, rfl, by simp [hn.1, Decl.toNode], hn.2⟩
    · refine Follows.congr (items_follow (fun x => do return (.sequence x.1, x.2) :: (← Parser.decls keep fuel))
        (sequenceDecl_follows hd hp hsequence hc keep fuel) fun _ _ _ _ h₁ => ?_)
        (by simp only [bind_assoc, pure_bind]) rfl
      exact (ih h₁).last fun ds _ _ hn => ⟨_, rfl, by simp [hn.1, Decl.toNode], hn.2⟩
    · exact refuse_follows hd
    · exact refuse_follows hd

variable {src : Bytes}

theorem At.start (hts : TokenStream.ofSource src = .ok ts) : ({ src, stream := ts } : Context).At ts := by
  obtain ⟨-, hstart, hsrc⟩ := TokenStream.texts_ofSource hts
  refine ⟨.inl ⟨rfl, rfl⟩, hstart.symm, hsrc, fun t ht => ?_⟩
  obtain ⟨front, back, hsplit⟩ := List.append_of_mem ht
  exact (TokenStream.munched_of_tokens hts hsplit).nonempty

theorem schema_follows (hts : TokenStream.ofSource src = .ok ts) (keep : Bool) :
    Follows keep (do gap keep; decls keep ts.fuel) (Parser.schema keep ts.fuel) { src, stream := ts } ts
      fun tree ts' ns => tree.toNode = .branch .schema ⟨0, ts'.offset - 0⟩ ns ∧ ts'.peek.map Token.kind = .ok .eof :=
  (gap_follows (.start hts) keep).bind fun g _ _ _ h₁ hn₁ =>
    (decls_follow h₁).last fun ds _ _ hn₂ => ⟨_, rfl, by rw [SchemaTree.toNode, hn₁, hn₂.1], hn₂.2⟩

/-- With a context for each node, the parser finds the same tree or the same error. -/
theorem parse_eq (src : Bytes) (keep : Bool) : parse src keep = (SchemaTree.parse src keep).map SchemaTree.toNode := by
  unfold parse SchemaTree.parse
  cases hts : TokenStream.ofSource src with
  | error e => rfl
  | ok ts =>
    have hall := schema_follows hts keep
    unfold Follows at hall
    cases hp : Parser.schema keep ts.fuel ts with
    | error e =>
      rw [hp] at hall
      simp only [ok_bind, hp, hall]
      rfl
    | ok x =>
      rw [hp] at hall
      obtain ⟨d, ns, hd, hmoves, hnode, -⟩ := hall
      have hconsumed : d.consumed = x.2.offset := by rw [hmoves.consumed, (TokenStream.texts_ofSource hts).2.1]; simp
      simp only [ok_bind, hp, hd]
      change Except.ok _ = Except.ok _
      rw [hnode, hconsumed, hmoves.there.offset, hmoves.children, Nat.sub_self]
      rfl

theorem Follows.spells {a : α} (h : Follows true m p c ts R) (hp : p ts = .ok (a, ts')) :
    ∃ ns, ts.Spells ns ts' ∧ R a ts' ns := by
  unfold Follows at h
  rw [hp] at h
  obtain ⟨d, ns, -, hmoves, hr⟩ := h
  exact ⟨ns, hmoves.spells rfl, hr⟩

end Flatwire.Context
