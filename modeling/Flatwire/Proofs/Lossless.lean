import Flatwire.Proofs.Contexts

/-! A syntax tree keeps its source. The context of a node counts what the node and its children take, so the nodes lie
side by side, each at the place that its span tells, and together they are what was read. -/

namespace Flatwire

namespace TokenStream

theorem Spells.exact {src : Bytes} {ts ts' : TokenStream} {n : Node} (hts : ofSource src = .ok ts)
    (h : ts.Spells [n] ts') : n.span.start = 0 ∧ n.unparse = src.take n.span.len ∧ ∀ m ∈ n.subnodes, m.Exact src := by
  obtain ⟨hlen, hstart, hsrc⟩ := texts_ofSource hts
  obtain ⟨us, hus, htext⟩ := h.tokens
  rw [Node.unparseAll_singleton] at htext
  have hsits : n.SitsAt 0 := hstart ▸ h.sits.1
  have hprefix : n.unparse <+: src := by
    rw [hus, Token.texts_append, htext] at hsrc
    exact (List.prefix_append _ _).trans hsrc
  rw [hsits.span_eq]
  exact ⟨rfl, List.prefix_iff_eq_take.1 hprefix, fun m hm => hsits.exact_of_mem hprefix hlen hm⟩

theorem exists_of_keyword {α : Type} {src : Bytes} {word : String} {p : Nat → Token → Parser α} {d : α}
    (h : (do
      let ts ← ofSource src
      match ts.keyword? word with
      | none => return none
      | some t =>
        let (d, _) ← p ts.fuel t ts
        return some d : Except SyntaxError (Option α)) = .ok (some d)) :
    ∃ ts t ts', ofSource src = .ok ts ∧ ts.peek = .ok t ∧ Parser.isWord t word = true ∧
      p ts.fuel t ts = .ok (d, ts') := by
  cases hts : ofSource src with
  | error e =>
    rw [hts] at h
    cases h
  | ok ts =>
    rw [hts, ok_bind] at h
    cases hword : ts.keyword? word with
    | none =>
      rw [hword] at h
      cases h
    | some t =>
      obtain ⟨hhead, hisWord⟩ := Option.filter_eq_some_iff.1 hword
      obtain ⟨r, hr⟩ := List.head?_eq_some_iff.1 hhead
      cases hp : p ts.fuel t ts with
      | error e => simp [hword, hp] at h
      | ok out =>
        rw [hword] at h
        simp only [hp, ok_bind] at h
        cases h
        exact ⟨ts, t, out.2, rfl, by rw [peek, hr], hisWord, hp⟩

end TokenStream

theorem SchemaTree.parse_spells {src : Bytes} {tree : SchemaTree} (h : parse src = .ok tree) :
    ∃ ts ts', TokenStream.ofSource src = .ok ts ∧ ts.Spells [tree.toNode] ts' ∧ tree.toNode.unparse = src := by
  obtain ⟨ts, ts', hts, hschema⟩ := parse_eq_ok_iff.1 h
  obtain ⟨us, hus, -, -, htokens, -⟩ := parse_sound h
  obtain rfl : ts = us := Except.ok.inj (hts.symm.trans hus)
  obtain ⟨ns, hnodes, hnode, hend⟩ := (Context.schema_follows hts true).spells hschema
  have hspells : ts.Spells [tree.toNode] ts' := by
    have hall := hnodes.branch .schema
    rwa [(TokenStream.texts_ofSource hts).2.1, ← hnode] at hall
  obtain ⟨vs, hvs, htext⟩ := hspells.tokens
  have hnil : ts'.tokens = [] := by
    cases hts' : ts'.tokens with
    | nil => rfl
    | cons t r =>
      rw [TokenStream.peek, hts'] at hend
      exact absurd (Except.ok.inj hend) (TokenStream.ofSource_ne_eof hts t (by simp [hvs, hts']))
  rw [hnil, List.append_nil] at hvs
  refine ⟨ts, ts', hts, hspells, ?_⟩
  rw [← Node.unparseAll_singleton, ← htext, ← hvs, htokens.texts_eq]

/-- Parsing loses nothing. A schema's tree is its whole source, and an enum's or a sequence's is the beginning of its
source up to where its span ends; every part of such a tree spans its own text, and the parts of it side by side. -/
theorem parse_lossless (src : Bytes) :
    (∀ tree, SchemaTree.parse src = .ok tree →
      tree.toNode.unparse = src ∧ tree.toNode.span = ⟨0, src.length⟩ ∧ ∀ n ∈ tree.toNode.subnodes, n.Exact src) ∧
    (∀ d, EnumDecl.parse src = .ok (some d) → d.toNode.span.start = 0 ∧
      d.toNode.unparse = src.take d.toNode.span.len ∧ ∀ n ∈ d.toNode.subnodes, n.Exact src) ∧
    (∀ d, SequenceDecl.parse src = .ok (some d) → d.toNode.span.start = 0 ∧
      d.toNode.unparse = src.take d.toNode.span.len ∧ ∀ n ∈ d.toNode.subnodes, n.Exact src) := by
  refine ⟨fun tree h => ?_, fun d h => ?_, fun d h => ?_⟩
  · obtain ⟨ts, ts', hts, hspells, htext⟩ := SchemaTree.parse_spells h
    have hspan := hspells.sits.1.span_eq
    rw [(TokenStream.texts_ofSource hts).2.1, htext] at hspan
    exact ⟨htext, hspan, (hspells.exact hts).2.2⟩
  · obtain ⟨ts, t, ts', hts, hpeek, hword, hd⟩ := TokenStream.exists_of_keyword h
    have hat := ((Context.At.start hts).holding hpeek true).there
    obtain ⟨_, hspells, rfl⟩ := (Context.enumDecl_follows hat hpeek hword rfl true _).spells hd
    exact hspells.exact hts
  · obtain ⟨ts, t, ts', hts, hpeek, hword, hd⟩ := TokenStream.exists_of_keyword h
    have hat := ((Context.At.start hts).holding hpeek true).there
    obtain ⟨_, hspells, rfl⟩ := (Context.sequenceDecl_follows hat hpeek hword rfl true _).spells hd
    exact hspells.exact hts

theorem exists_ok_some {ε α : Type} {x : Except ε (Option α)} {P : α → Prop} [DecidablePred P]
    (h : x.toOption.join.any P = true) : ∃ a, x = .ok (some a) ∧ P a := by
  match x with
  | .error _ => cases h
  | .ok none => cases h
  | .ok (some a) => exact ⟨a, rfl, of_decide_eq_true h⟩

theorem parse_lossless_sample :
    let enum := Bytes.ofString "enum E \x7b A = 0x1_0; // one\r\n \x7d"
    let sequence := Bytes.ofString "sequence S\x7be:[ oneof \x7b e : E; \x7d ];\x7d"
    (∃ tree, SchemaTree.parse ([0x0A] ++ enum ++ sequence) = .ok tree ∧
      tree.toNode.unparse = [0x0A] ++ enum ++ sequence) ∧
    (∃ d, EnumDecl.parse (enum ++ sequence) = .ok (some d) ∧ d.toNode.unparse = enum) ∧
    (∃ d, SequenceDecl.parse (sequence ++ enum) = .ok (some d) ∧ d.toNode.unparse = sequence) := by
  intro enum sequence
  refine ⟨?_, ?_, ?_⟩
  · obtain ⟨tree, htree, -⟩ : ∃ tree, SchemaTree.parse ([0x0A] ++ enum ++ sequence) = .ok tree ∧ True :=
      SchemaTree.exists_parse (by decide +kernel)
    exact ⟨tree, htree, ((parse_lossless _).1 tree htree).1⟩
  · obtain ⟨d, hd, hlen⟩ : ∃ d, EnumDecl.parse (enum ++ sequence) = .ok (some d) ∧ d.span.len = enum.length :=
      exists_ok_some (by decide +kernel)
    refine ⟨d, hd, ((parse_lossless _).2.1 d hd).2.1.trans ?_⟩
    change List.take d.span.len _ = enum
    rw [hlen, List.take_left]
  · obtain ⟨d, hd, hlen⟩ : ∃ d, SequenceDecl.parse (sequence ++ enum) = .ok (some d) ∧ d.span.len = sequence.length :=
      exists_ok_some (by decide +kernel)
    refine ⟨d, hd, ((parse_lossless _).2.2 d hd).2.1.trans ?_⟩
    change List.take d.span.len _ = sequence
    rw [hlen, List.take_left]

end Flatwire
