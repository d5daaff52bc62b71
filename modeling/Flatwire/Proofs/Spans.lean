import Flatwire.Proofs.Parsing
import Flatwire.Tree.Node

/-! Where nodes stand. Nodes sit at a place of the source if each of them spans its own text, behind the text of those
before it; then they lie side by side, and so do their parts. -/

namespace Flatwire

/-- The text of tokens one after the other. -/
def Token.texts (ts : List Token) : Bytes := ts.flatMap Token.text

namespace Node

/-! ### Spans -/

/-- The spans follow each other without a gap from `start` to `stop`. -/
def Tile : Nat → List Node → Nat → Prop
  | start, [], stop => start = stop
  | start, n :: ns, stop => n.span.start = start ∧ Tile (start + n.span.len) ns stop

/-- The span of a node is where its text stands in the source, and its children lie side by side in it. -/
structure Exact (src : Bytes) (n : Node) : Prop where
  inside : n.span.start + n.span.len ≤ src.length
  /-- Ends are kept in 32 bits, which they fit. -/
  stop : n.span.stop = n.span.start + n.span.len
  text : (src.drop n.span.start).take n.span.len = n.unparse
  apart : n.children.Pairwise fun a b => a.span.start + a.span.len ≤ b.span.start
  tiled : ∀ kind span children, n = .branch kind span children → Tile span.start children (span.start + span.len)

mutual

/-- The node begins at the given place, and so do its parts, each behind the text of those before it. -/
def SitsAt : Nat → Node → Prop
  | start, leaf _ l => l.start = start
  | start, branch _ s cs => s = ⟨start, (unparseAll cs).length⟩ ∧ SitAll start cs

def SitAll : Nat → List Node → Prop
  | _, [] => True
  | start, n :: ns => SitsAt start n ∧ SitAll (start + n.unparse.length) ns

end

variable {start : Nat} {n m : Node} {ns ms : List Node}

theorem unparseAll_append (ns ms : List Node) : unparseAll (ns ++ ms) = unparseAll ns ++ unparseAll ms := by
  induction ns with
  | nil => rfl
  | cons n ns ih => rw [List.cons_append, unparseAll, unparseAll, ih, List.append_assoc]

theorem unparseAll_singleton (n : Node) : unparseAll [n] = n.unparse := by simp [unparseAll]

theorem sitAll_append :
    SitAll start (ns ++ ms) ↔ SitAll start ns ∧ SitAll (start + (unparseAll ns).length) ms := by
  induction ns generalizing start with
  | nil => simp [SitAll, unparseAll]
  | cons n ns ih => simp [SitAll, unparseAll, ih, and_assoc, Nat.add_assoc]

theorem SitsAt.span_eq (h : n.SitsAt start) : n.span = ⟨start, n.unparse.length⟩ := by
  cases n with
  | leaf k l =>
    obtain rfl : l.start = start := h
    rfl
  | branch k s cs => exact h.1

theorem SitAll.tile (h : SitAll start ns) :
    Tile start ns (start + (unparseAll ns).length) := by
  induction ns generalizing start with
  | nil => rfl
  | cons n ns ih =>
    have hspan := h.1.span_eq
    have hrest := ih h.2
    simp only [Tile, hspan, unparseAll, List.length_append, true_and]
    rwa [Nat.add_assoc] at hrest

theorem SitAll.le_start (h : SitAll start ns) : ∀ n ∈ ns, start ≤ n.span.start := by
  induction ns generalizing start with
  | nil => simp
  | cons n ns ih =>
    intro m hm
    rcases List.mem_cons.1 hm with rfl | hm
    · rw [h.1.span_eq]
    · exact Nat.le_trans (Nat.le_add_right _ _) (ih h.2 m hm)

theorem SitAll.apart (h : SitAll start ns) :
    ns.Pairwise fun a b => a.span.start + a.span.len ≤ b.span.start := by
  induction ns generalizing start with
  | nil => exact .nil
  | cons n ns ih =>
    refine .cons (fun m hm => ?_) (ih h.2)
    rw [h.1.span_eq]
    exact h.2.le_start m hm

/-! ### Parts of a node -/

/-- The node that a walk has come to. -/
def Event.node? : Event → Option Node
  | enter m => some m
  | leave => none

theorem subnodes_eq (n : Node) : n.subnodes = (n.walk fun _ => true).filterMap Event.node? := rfl

theorem filterMap_walkAll (ns : List Node) :
    (walkAll (fun _ => true) ns).filterMap Event.node? = ns.flatMap subnodes := by
  induction ns with
  | nil => rfl
  | cons n ns ih => rw [walkAll, List.filterMap_append, ih, List.flatMap_cons, subnodes_eq]

theorem subnodes_leaf (k : LeafKind) (l : Lexeme) : (leaf k l).subnodes = [leaf k l] := by
  simp [subnodes_eq, walk, Event.node?]

theorem subnodes_branch (k : Branch) (s : Span) (cs : List Node) :
    (branch k s cs).subnodes = branch k s cs :: cs.flatMap subnodes := by
  simp [subnodes_eq, walk, Event.node?, ← filterMap_walkAll]

mutual

theorem SitsAt.of_mem {n m : Node} {start : Nat} (h : n.SitsAt start) (hm : m ∈ n.subnodes) :
    ∃ before after, n.unparse = before ++ m.unparse ++ after ∧ m.SitsAt (start + before.length) := by
  match n with
  | leaf k l =>
    rw [subnodes_leaf, List.mem_singleton] at hm
    exact ⟨[], [], by simp [hm], by simpa [hm] using h⟩
  | branch k s cs =>
    rw [subnodes_branch] at hm
    rcases List.mem_cons.1 hm with rfl | hm
    · exact ⟨[], [], by simp, by simpa using h⟩
    · exact SitAll.of_mem h.2 hm

theorem SitAll.of_mem {ns : List Node} {m : Node} {start : Nat} (h : SitAll start ns) (hm : m ∈ ns.flatMap subnodes) :
    ∃ before after, unparseAll ns = before ++ m.unparse ++ after ∧ m.SitsAt (start + before.length) := by
  match ns with
  | [] => simp at hm
  | n :: ns =>
    rw [List.flatMap_cons, List.mem_append] at hm
    rcases hm with hm | hm
    · obtain ⟨before, after, htext, hsits⟩ := SitsAt.of_mem h.1 hm
      exact ⟨before, after ++ unparseAll ns, by simp [unparseAll, htext], hsits⟩
    · obtain ⟨before, after, htext, hsits⟩ := SitAll.of_mem h.2 hm
      refine ⟨n.unparse ++ before, after, by simp [unparseAll, htext], ?_⟩
      rwa [List.length_append, ← Nat.add_assoc]

end

theorem SitsAt.exact {src before after : Bytes} (h : n.SitsAt before.length)
    (hsrc : src = before ++ n.unparse ++ after) (hlen : src.length ≤ maxSourceLen) : n.Exact src := by
  have hend : before.length + n.unparse.length ≤ src.length := by simp [hsrc]
  refine ⟨?_, ?_, ?_, ?_, ?_⟩
  · rw [h.span_eq]
    exact hend
  · unfold maxSourceLen at hlen
    rw [h.span_eq]
    exact Nat.mod_eq_of_lt (Nat.lt_of_le_of_lt (Nat.le_trans hend hlen) (by decide))
  · rw [h.span_eq, hsrc, List.append_assoc, List.drop_left, List.take_left]
  · cases n with
    | leaf k l => exact .nil
    | branch k s cs => exact h.2.apart
  · rintro kind span children rfl
    rw [h.1]
    exact h.2.tile

theorem SitsAt.exact_of_mem {src : Bytes} (h : n.SitsAt 0) (hsrc : n.unparse <+: src)
    (hlen : src.length ≤ maxSourceLen) (hm : m ∈ n.subnodes) : m.Exact src := by
  obtain ⟨before, after, htext, hsits⟩ := h.of_mem hm
  obtain ⟨rest, rfl⟩ := hsrc
  rw [Nat.zero_add] at hsits
  have hplace : n.unparse ++ rest = before ++ m.unparse ++ (after ++ rest) := by simp [htext]
  exact hsits.exact hplace hlen

end Node

namespace Token

theorem texts_append (ts us : List Token) : texts (ts ++ us) = texts ts ++ texts us := List.flatMap_append

theorem texts_scanAll (fuel offset : Nat) (src : Bytes) : texts (scanAll fuel offset src).1 <+: src := by
  fun_induction scanAll fuel offset src with
  | case1 | case2 | case3 => exact List.nil_prefix
  | case4 fuel offset src hne kind len hscan ts e hrest ih =>
    rw [hrest] at ih
    rw [texts, List.flatMap_cons, ← texts]
    have htext := (List.prefix_append_right_inj (src.take len)).2 ih
    rwa [List.take_append_drop] at htext

end Token

theorem Tokenizes.texts_eq {src : Bytes} {ts : List Token} (h : Tokenizes src ts) : Token.texts ts = src := by
  induction h with
  | nil => rfl
  | cons _ _ _ ih => rw [Token.texts, List.flatMap_cons, ← Token.texts, ih, List.take_append_drop]

namespace TokenStream

theorem texts_ofSource {src : Bytes} {ts : TokenStream} (h : ofSource src = .ok ts) :
    src.length ≤ maxSourceLen ∧ ts.offset = 0 ∧ Token.texts ts.tokens <+: src := by
  unfold ofSource at h
  split_ifs at h with hlen
  cases h
  exact ⟨Nat.le_of_not_lt hlen, rfl, Token.texts_scanAll _ _ src⟩

/-! ### What parsers read -/

/-- The nodes lie side by side from the one place to the other, and their text is that of the tokens between. -/
structure Spells (a : TokenStream) (ns : List Node) (b : TokenStream) : Prop where
  tokens : ∃ us, a.tokens = us ++ b.tokens ∧ Token.texts us = Node.unparseAll ns
  offset : b.offset = a.offset + (Node.unparseAll ns).length
  sits : Node.SitAll a.offset ns

namespace Spells

variable {a b c : TokenStream} {ns ms : List Node}

theorem refl (a : TokenStream) : a.Spells [] a := ⟨⟨[], rfl, rfl⟩, rfl, trivial⟩

theorem trans (h : a.Spells ns b) (h' : b.Spells ms c) : a.Spells (ns ++ ms) c := by
  obtain ⟨us, hus, htext⟩ := h.tokens
  obtain ⟨vs, hvs, htext'⟩ := h'.tokens
  refine ⟨⟨us ++ vs, by rw [hus, hvs, List.append_assoc], ?_⟩, ?_, ?_⟩
  · rw [Token.texts_append, Node.unparseAll_append, htext, htext']
  · rw [h'.offset, h.offset, Node.unparseAll_append, List.length_append, Nat.add_assoc]
  · rw [Node.sitAll_append, ← h.offset]
    exact ⟨h.sits, h'.sits⟩

theorem branch (h : a.Spells ns b) (k : Branch) : a.Spells [.branch k ⟨a.offset, b.offset - a.offset⟩ ns] b := by
  have htext : Node.unparseAll [.branch k ⟨a.offset, b.offset - a.offset⟩ ns] = Node.unparseAll ns :=
    Node.unparseAll_singleton _
  have hlen : b.offset - a.offset = (Node.unparseAll ns).length := by rw [h.offset, Nat.add_sub_cancel_left]
  refine ⟨htext ▸ h.tokens, htext ▸ h.offset, ?_⟩
  rw [hlen]
  exact ⟨⟨rfl, h.sits⟩, trivial⟩

end Spells

end TokenStream

end Flatwire
