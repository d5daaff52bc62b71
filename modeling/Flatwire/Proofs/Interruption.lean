import Flatwire.Proofs.Endings
import Flatwire.Proofs.Interning
import Flatwire.Proofs.Totality

/-! A listing that is interrupted. It is written in pieces, and the walk through the schema goes on after one of them was
refused; nothing is written any more all the same, and the failure that comes out is the one of the refused piece. So
what the destination took is a front part of the listing. -/

namespace Flatwire

namespace LayoutText

variable {σ ε : Type} {write : σ → Bytes → Option ε × σ}

/-- The destination takes the pieces one after the other, each of them in full. -/
inductive Takes (write : σ → Bytes → Option ε × σ) : σ → List Bytes → σ → Prop where
  | nil (d : σ) : Takes write d [] d
  | cons {d d' d'' : σ} {q : Bytes} {ps : List Bytes} (hq : write d q = (none, d')) (hps : Takes write d' ps d'') :
    Takes write d (q :: ps) d''

namespace Printer

variable {p : Printer σ ε} {s : Schema}

/-! ### Piece by piece -/

theorem piece_of_write {q : Bytes} {failure : Option ε} {d : σ} (hp : p.failure = none)
    (hq : write p.dest q = (failure, d)) : p.piece write q = ⟨d, p.indent, failure⟩ := by
  simp [piece, hp, hq]

theorem foldl_piece_of_failure {e : ε} (hp : p.failure = some e) (ps : List Bytes) : ps.foldl (piece write) p = p := by
  induction ps with
  | nil => rfl
  | cons q ps ih =>
    have hq : p.piece write q = p := by simp [piece, hp]
    rw [List.foldl_cons, hq, ih]

theorem piece_indented (p : Printer σ ε) (n : Nat) (q : Bytes) :
    (p.indented n).piece write q = (p.piece write q).indented n := by
  unfold piece indented
  dsimp only
  split <;> rfl

theorem foldl_piece_indented (ps : List Bytes) (p : Printer σ ε) (n : Nat) :
    ps.foldl (piece write) (p.indented n) = (ps.foldl (piece write) p).indented n := by
  induction ps generalizing p with
  | nil => rfl
  | cons q ps ih => rw [List.foldl_cons, piece_indented, ih, List.foldl_cons]

theorem indent_foldl_piece (ps : List Bytes) (p : Printer σ ε) : (ps.foldl (piece write) p).indent = p.indent := by
  have hsame : ps.foldl (piece write) p = (ps.foldl (piece write) p).indented p.indent := foldl_piece_indented ps p _
  rw [hsame, indented]

theorem foldl_piece_cases (write : σ → Bytes → Option ε × σ) (hp : p.failure = none) (ps : List Bytes) :
    (∃ d, Takes write p.dest ps d ∧ ps.foldl (piece write) p = ⟨d, p.indent, none⟩) ∨
    ∃ before q later d e d', ps = before ++ q :: later ∧ Takes write p.dest before d ∧ write d q = (some e, d') ∧
      ps.foldl (piece write) p = ⟨d', p.indent, some e⟩ := by
  induction ps generalizing p with
  | nil => exact .inl ⟨p.dest, .nil _, by rw [List.foldl_nil, ← hp]⟩
  | cons q ps ih =>
    obtain ⟨⟨failure, d₁⟩, hq⟩ : ∃ r, write p.dest q = r := ⟨_, rfl⟩
    rw [List.foldl_cons, piece_of_write hp hq]
    cases failure with
    | some e => exact .inr ⟨[], q, ps, p.dest, e, d₁, rfl, .nil _, hq, foldl_piece_of_failure rfl ps⟩
    | none =>
      obtain ⟨d, htakes, hd⟩ | ⟨before, r, later, d, e, d', rfl, htakes, hr, hd⟩ :=
        ih (p := ⟨d₁, p.indent, none⟩) rfl
      · exact .inl ⟨d, .cons hq htakes, hd⟩
      · exact .inr ⟨q :: before, r, later, d, e, d', rfl, .cons hq htakes, hr, hd⟩

/-! ### The walk through a schema -/

theorem foldl_line (body : List Bytes) (p : Printer σ ε) :
    body.foldl (line write) p = ((body.map (Line.mk p.indent)).flatMap Line.pieces).foldl (piece write) p := by
  induction body generalizing p with
  | nil => rfl
  | cons text body ih =>
    have hindent : (p.line write text).indent = p.indent := indent_foldl_piece _ p
    rw [List.foldl_cons, ih, hindent, List.map_cons, List.flatMap_cons, List.foldl_append, line]

theorem block_eq (hp : p.indent = 0) (head : Bytes) (body : List Bytes) :
    p.block write head body = ((LayoutText.block head body).flatMap Line.pieces).foldl (piece write) p := by
  have hline : ∀ (p : Printer σ ε) text, p.indent = 0 →
      p.line write text = (Line.pieces ⟨0, text⟩).foldl (piece write) p := by
    intro p text hp
    rw [line, hp]
  rw [LayoutText.block, List.flatMap_append, List.flatMap_cons, List.foldl_append, List.foldl_append, ← hline p _ hp,
    block]
  have hhead : (p.line write (head ++ Bytes.ofString " \x7b")).indent = 0 := (indent_foldl_piece _ p).trans hp
  generalize p.line write (head ++ Bytes.ofString " \x7b") = q at hhead
  have hbody : (body.foldl (line write) (q.indented (q.indent + 1))) =
      (((body.map (Line.mk 1)).flatMap Line.pieces).foldl (piece write) q).indented 1 := by
    rw [hhead, foldl_line, foldl_piece_indented]
    rfl
  have hback : (((body.map (Line.mk 1)).flatMap Line.pieces).foldl (piece write) q).indent = 0 :=
    (indent_foldl_piece _ q).trans hhead
  rw [hbody]
  generalize ((body.map (Line.mk 1)).flatMap Line.pieces).foldl (piece write) q = r at hback
  have hsame : (r.indented 1).indented ((r.indented 1).indent - 1) = r := by
    change r.indented 0 = r
    rw [← hback]
    rfl
  rw [hsame, hline r _ hback, List.flatMap_singleton]

theorem declaration_eq (hp : p.indent = 0) (t : TypeDef) :
    p.declaration write s t = ((declLines s t).flatMap Line.pieces).foldl (piece write) p := by
  cases t with
  | enum e => exact block_eq hp _ _
  | sequence q => exact block_eq hp _ _
  | primitive | string | list | oneOf => rfl

theorem union_eq (hp : p.indent = 0) (o : OneOfType) :
    p.union write s o = ((oneOfLines s o).flatMap Line.pieces).foldl (piece write) p :=
  block_eq hp _ _

theorem foldl_items {α : Type} {step : Printer σ ε → α → Printer σ ε} {lines : α → List Line}
    (hstep : ∀ {p} (_ : p.indent = 0) x, step p x = ((lines x).flatMap Line.pieces).foldl (piece write) p)
    (hp : p.indent = 0) (xs : List α) :
    xs.foldl step p = ((xs.flatMap lines).flatMap Line.pieces).foldl (piece write) p := by
  induction xs generalizing p with
  | nil => rfl
  | cons x xs ih =>
    have hnext : (step p x).indent = 0 := by rw [hstep hp, indent_foldl_piece, hp]
    rw [List.foldl_cons, ih hnext, hstep hp, List.flatMap_cons, List.flatMap_append, List.foldl_append]

theorem schema_eq (hp : p.indent = 0) : p.schema write s = (pieces s).foldl (piece write) p := by
  have htitle : p.line write (title s) = (Line.pieces ⟨0, title s⟩).foldl (piece write) p := by rw [line, hp]
  have hone : ((Line.pieces ⟨0, title s⟩).foldl (piece write) p).indent = 0 := (indent_foldl_piece _ p).trans hp
  have htwo : (((s.declTypes.flatMap (declLines s)).flatMap Line.pieces).foldl (piece write)
      ((Line.pieces ⟨0, title s⟩).foldl (piece write) p)).indent = 0 := (indent_foldl_piece _ _).trans hone
  rw [schema, htitle, foldl_items declaration_eq hone, foldl_items union_eq htwo, List.flatMap_map, pieces, lines,
    List.flatMap_cons, List.flatMap_append, List.foldl_append, List.foldl_append]

end Printer

end LayoutText

namespace Schema

variable {σ ε : Type} {s : Schema}

open LayoutText

theorem layoutTo_cases (s : Schema) (write : σ → Bytes → Option ε × σ) (dest : σ) :
    (∃ d, Takes write dest (pieces s) d ∧ s.layoutTo write dest = (none, d)) ∨
    ∃ before q later d e d', pieces s = before ++ q :: later ∧ Takes write dest before d ∧ write d q = (some e, d') ∧
      s.layoutTo write dest = (some e, d') := by
  rw [layoutTo, Printer.schema_eq rfl]
  obtain ⟨d, htakes, hd⟩ | ⟨before, q, later, d, e, d', hps, htakes, hq, hd⟩ :=
    Printer.foldl_piece_cases (p := ⟨dest, 0, none⟩) write rfl (pieces s)
  · exact .inl ⟨d, htakes, by rw [hd]⟩
  · exact .inr ⟨before, q, later, d, e, d', hps, htakes, hq, by rw [hd]⟩

end Schema

/-! ### Destinations that count -/

namespace Sink

variable {k k' : Sink} {q : Bytes} {ps : List Bytes}

theorem offer_taken (h : k.offer q = (none, k')) :
    k.left ≠ some 0 ∧ k' = ⟨k.left.map (· - 1), k.written ++ q, k.refused⟩ := by
  obtain ⟨left, written, refused⟩ := k
  rcases left with _ | _ | n
  · cases h
    exact ⟨by simp, rfl⟩
  · cases h
  · cases h
    exact ⟨by simp, rfl⟩

theorem offer_refused {e : Unit} (h : k.offer q = (some e, k')) :
    k.left = some 0 ∧ k' = ⟨some 0, k.written, k.refused + 1⟩ := by
  obtain ⟨left, written, refused⟩ := k
  rcases left with _ | _ | n
  · cases h
  · cases h
    exact ⟨rfl, rfl⟩
  · cases h

theorem takes_offer (h : LayoutText.Takes offer k ps k') :
    (∀ n, k.left = some n → ps.length ≤ n) ∧
      k' = ⟨k.left.map (· - ps.length), k.written ++ ps.flatten, k.refused⟩ := by
  induction h with
  | nil k => simp
  | cons hq _ ih =>
    obtain ⟨hleft, rfl⟩ := offer_taken hq
    obtain ⟨hlength, rfl⟩ := ih
    refine ⟨fun n hn => ?_, ?_⟩
    · have hrest := hlength (n - 1) (by simp [hn])
      have hpos : n ≠ 0 := fun hzero => hleft (hzero ▸ hn)
      rw [List.length_cons]
      omega
    · simp [Function.comp_def, Nat.sub_sub, Nat.add_comm]

end Sink

namespace Schema

open LayoutText

variable {s : Schema}

theorem writeLayout_unlimited (s : Schema) : s.writeLayout ⟨none, [], 0⟩ = (true, ⟨none, s.layoutText, 0⟩) := by
  rw [writeLayout]
  obtain ⟨k, htakes, hk⟩ | ⟨before, q, later, k, e, k', -, htakes, hq, -⟩ := s.layoutTo_cases Sink.offer ⟨none, [], 0⟩
  · obtain ⟨-, rfl⟩ := Sink.takes_offer htakes
    rw [hk]
    rfl
  · obtain ⟨-, rfl⟩ := Sink.takes_offer htakes
    cases (Sink.offer_refused hq).1

theorem writeLayout_limited (s : Schema) (n : Nat) : s.writeLayout ⟨some n, [], 0⟩ =
    if n < (pieces s).length then (false, ⟨some 0, ((pieces s).take n).flatten, 1⟩)
    else (true, ⟨some (n - (pieces s).length), s.layoutText, 0⟩) := by
  rw [writeLayout]
  obtain ⟨k, htakes, hk⟩ | ⟨before, q, later, k, e, k', hps, htakes, hq, hk⟩ :=
    s.layoutTo_cases Sink.offer ⟨some n, [], 0⟩
  · obtain ⟨hlength, rfl⟩ := Sink.takes_offer htakes
    rw [if_neg (Nat.not_lt.2 (hlength n rfl)), hk]
    rfl
  · obtain ⟨hlength, rfl⟩ := Sink.takes_offer htakes
    obtain ⟨hnone, rfl⟩ := Sink.offer_refused hq
    -- there was room for just the pieces before the refused one
    have hn : before.length = n := Nat.le_antisymm (hlength n rfl) (Nat.sub_eq_zero_iff_le.1 (Option.some.inj hnone))
    have hlt : n < (pieces s).length := by
      rw [hps, List.length_append, List.length_cons]
      omega
    rw [if_pos hlt, hk, hps, ← hn, List.take_left]
    rfl

/-- A compiled schema can be listed: its lists come behind their elements, so every type in it has a name. -/
theorem layoutText?_of_compile {tree : SchemaTree} {name : Bytes} (h : (compile tree name).schema = some s) :
    s.layoutText? = some s.layoutText := by
  obtain ⟨haccepted, heq⟩ := Compile.compile_accepted (Compile.errors_of_schema h)
  cases h.symm.trans heq
  have hrefs := haccepted.refs (Compile.closed_compileDecls tree.decls name)
  have hbelow := (Compile.interned_compileDecls tree.decls name).1.below
  generalize (Compile.compileDecls tree.decls (Compile.start name)).2.builder.schema = s at *
  have hends : ∀ id, Acc (fun b a => s.Lists a b) id := by
    intro id
    induction id using Nat.strongRecOn with
    | ind id ih => exact ⟨id, fun e he => ih e (hbelow id e he)⟩
  have hwritable := (writable_iff (fun id e he => Nat.lt_trans (hbelow id e he) (type?_lt he))
    (memberTypes_lt hrefs)).2 fun id _ => acc_iff_not_forever.1 (hends id)
  exact (exact_layoutText? s).result hwritable

/-- A compiled schema is listed by writing pieces that make up its layout. If the destination takes them all, the listing
succeeds; otherwise it ends with the failure of the first piece that was not taken, as the destination was left by that
attempt, and what was taken before is a front part of the layout. So a destination that counts gets as many pieces as
it has room for, and at most one attempt beyond. -/
theorem layoutTo_stops_at_failure {tree : SchemaTree} {name : Bytes} (h : (compile tree name).schema = some s) :
    s.layoutText? = some (pieces s).flatten ∧
    (∀ {σ ε : Type} (write : σ → Bytes → Option ε × σ) (dest : σ),
      (∃ d, Takes write dest (pieces s) d ∧ s.layoutTo write dest = (none, d)) ∨
      ∃ before q later d e d', pieces s = before ++ q :: later ∧ Takes write dest before d ∧ write d q = (some e, d') ∧
        s.layoutTo write dest = (some e, d') ∧ before.flatten <+: (pieces s).flatten) ∧
    s.writeLayout ⟨none, [], 0⟩ = (true, ⟨none, (pieces s).flatten, 0⟩) ∧
    ∀ n, s.writeLayout ⟨some n, [], 0⟩ =
      if n < (pieces s).length then (false, ⟨some 0, ((pieces s).take n).flatten, 1⟩)
      else (true, ⟨some (n - (pieces s).length), (pieces s).flatten, 0⟩) := by
  refine ⟨layoutText?_of_compile h, fun write dest => ?_, writeLayout_unlimited s, writeLayout_limited s⟩
  obtain hall | ⟨before, q, later, d, e, d', hps, htakes, hq, hd⟩ := s.layoutTo_cases write dest
  · exact .inl hall
  · refine .inr ⟨before, q, later, d, e, d', hps, htakes, hq, hd, ?_⟩
    rw [hps, List.flatten_append]
    exact List.prefix_append _ _

/-- The output fails at the name of a field, behind its indentation, and in a longer run not at all. -/
theorem layoutTo_stops_at_failure_sample :
    ∃ tree s, SchemaTree.parse "sequence A{x:u8;}" false = .ok tree ∧ (compile tree "s").schema = some s ∧
      s.writeLayout ⟨some 8, [], 0⟩ =
        (false, ⟨some 0, "schema \"s\"\nsequence A \x7b\n\tstatic_size = 1\n\t", 1⟩) ∧
      s.writeLayout ⟨some 13, [], 0⟩ =
        (true, ⟨some 1, "schema \"s\"\nsequence A \x7b\n\tstatic_size = 1\n\tx: u8 @ 0\n\x7d\n", 0⟩) := by
  obtain ⟨tree, htree, hsome⟩ : ∃ tree, SchemaTree.parse "sequence A{x:u8;}" false = .ok tree ∧
      (compile tree "s").schema.any (fun s => pieces s = List.map Bytes.ofString
        ["schema \"s\"", "\n", "sequence A \x7b", "\n", "\t", "static_size = 1", "\n", "\t", "x: u8 @ 0", "\n", "\x7d",
          "\n"]) = true := SchemaTree.exists_parse (by decide +kernel)
  obtain ⟨s, hs, hpieces⟩ := (Option.any_eq_true ..).1 hsome
  obtain ⟨-, -, -, hlimited⟩ := layoutTo_stops_at_failure hs
  rw [of_decide_eq_true hpieces] at hlimited
  exact ⟨tree, s, htree, hs, hlimited 8, hlimited 13⟩

end Schema

end Flatwire
