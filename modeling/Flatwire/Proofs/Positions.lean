import Mathlib.Data.List.Induction
import Flatwire.Proofs.WholeCharacters
import Flatwire.Source.Position

/-! Lines and columns. A line begins behind a line feed, and the characters from there on are counted; so in a valid
source positions come in the order of the offsets between characters, and no two of these share one. -/

namespace Flatwire

open Utf8

/-! ### The line so far -/

section Lines

variable {text line : Bytes}

/-- What stands between the last line feed of a text, or its start, and its end. -/
def SinceLineFeed (text line : Bytes) : Prop :=
  lineFeed ∉ line ∧ (text = line ∨ ∃ front, text = front ++ lineFeed :: line)

theorem lastLine_append (text : Bytes) (h : lineFeed ∉ line) : lastLine (text ++ line) = lastLine text ++ line := by
  have hline : ∀ b ∈ line.reverse, decide (b ≠ lineFeed) = true :=
    fun b hb => decide_eq_true fun heq => h (heq ▸ List.mem_reverse.1 hb)
  unfold lastLine
  rw [List.reverse_append, List.takeWhile_append_of_pos hline, List.reverse_append, List.reverse_reverse]

theorem lastLine_lineFeed (front : Bytes) : lastLine (front ++ [lineFeed]) = [] := by
  unfold lastLine
  rw [List.reverse_append, List.reverse_singleton, List.singleton_append, List.takeWhile_cons_of_neg (by simp)]
  rfl

theorem SinceLineFeed.eq_lastLine (h : SinceLineFeed text line) : line = lastLine text := by
  obtain ⟨hline, rfl | ⟨front, rfl⟩⟩ := h
  · exact (lastLine_append [] hline).symm
  · rw [← List.singleton_append, ← List.append_assoc, lastLine_append _ hline, lastLine_lineFeed, List.nil_append]

theorem sinceLineFeed_lastLine (text : Bytes) : SinceLineFeed text (lastLine text) := by
  induction text using List.reverseRecOn with
  | nil => exact ⟨List.not_mem_nil, .inl rfl⟩
  | append_singleton text b ih =>
    by_cases hb : b = lineFeed
    · subst hb
      rw [lastLine_lineFeed]
      exact ⟨List.not_mem_nil, .inr ⟨text, rfl⟩⟩
    · rw [lastLine_append text (mt List.mem_singleton.1 (Ne.symm hb))]
      obtain ⟨hline, hbegin⟩ := ih
      refine ⟨?_, ?_⟩
      · rw [List.mem_append, List.mem_singleton]
        exact not_or.2 ⟨hline, Ne.symm hb⟩
      · rcases hbegin with hall | ⟨front, hfront⟩
        · exact .inl (congrArg (· ++ [b]) hall)
        · refine .inr ⟨front, ?_⟩
          rw [← List.cons_append, ← List.append_assoc, ← hfront]

theorem SinceLineFeed.exists_chars (h : SinceLineFeed text line) (hvalid : valid text = true) :
    ∃ cs : List Char, line = cs.flatMap String.utf8EncodeChar := by
  apply chars_of_valid
  obtain ⟨-, rfl | ⟨front, rfl⟩⟩ := h
  · exact hvalid
  · -- the line feed is no continuation byte, so what stands in front of it is valid
    have hcut : Boundary (front ++ lineFeed :: line) front.length := boundary_append front rfl
    have hfront := hcut.valid_take hvalid
    rw [List.take_left] at hfront
    obtain ⟨ds, rfl⟩ := chars_of_valid hfront
    rw [valid_chars_append] at hvalid
    exact (valid_chars_append ['\n'] line).symm.trans hvalid

end Lines

namespace Position

/-- Reading order: by line, and in one line by column. -/
def Before (p q : Position) : Prop := p.line < q.line ∨ p.line = q.line ∧ p.column < q.column

theorem Before.ne {p q : Position} (h : p.Before q) : p ≠ q := by
  rintro rfl
  rcases h with h | ⟨-, h⟩ <;> exact absurd h (Nat.lt_irrefl _)

variable {src : Bytes} {a b : Nat}

theorem ofOffset_of_le (h : src.length ≤ a) : ofOffset src a = ofOffset src src.length := by
  unfold ofOffset
  rw [List.take_of_length_le h, List.take_length]

theorem exists_column (hsrc : valid src = true) (ha : Boundary src a) : ∃ cs : List Char,
    SinceLineFeed (src.take a) (cs.flatMap String.utf8EncodeChar) ∧ (ofOffset src a).column = 1 + cs.length := by
  have hline := sinceLineFeed_lastLine (src.take a)
  obtain ⟨cs, hcs⟩ := hline.exists_chars (ha.valid_take hsrc)
  refine ⟨cs, hcs ▸ hline, ?_⟩
  unfold ofOffset
  dsimp only
  rw [hcs, count_chars]

theorem ofOffset_before (hsrc : valid src = true) (ha : Boundary src a) (hb : Boundary src b) (hab : a < b)
    (hle : b ≤ src.length) : (ofOffset src a).Before (ofOffset src b) := by
  obtain ⟨cs, hcs⟩ := ha.exists_between hb hsrc (Nat.le_of_lt hab)
  have hne : cs ≠ [] := by
    rintro rfl
    have hlen := congrArg List.length hcs
    rw [List.flatMap_nil, List.append_nil, List.length_take, List.length_take] at hlen
    omega
  unfold Before ofOffset
  dsimp only
  rw [hcs, List.count_append]
  by_cases hfeed : lineFeed ∈ cs.flatMap String.utf8EncodeChar
  · have hpos := List.count_pos_iff.2 hfeed
    exact .inl (by omega)
  · -- on one line the characters in between are more columns
    obtain ⟨ds, hds⟩ := (sinceLineFeed_lastLine (src.take a)).exists_chars (ha.valid_take hsrc)
    have hmore := List.length_pos_iff.2 hne
    rw [List.count_eq_zero.2 hfeed, lastLine_append _ hfeed, hds, count_append, count_chars, count_chars]
    exact .inr ⟨rfl, by omega⟩

/-- Positions of a valid source: offsets between characters have them in their own order, the line counts the line feeds
in front, the column the characters behind the last of them, and whatever lies behind the end has the position of the
end. -/
theorem ofOffset_faithful (hsrc : valid src = true) :
    (∀ a b, a < b → b ≤ src.length → Boundary src a → Boundary src b →
      (ofOffset src a).Before (ofOffset src b) ∧ ofOffset src a ≠ ofOffset src b) ∧
    (∀ a, (ofOffset src a).line = 1 + (src.take a).count lineFeed ∧
      (Boundary src a → ∃ cs : List Char, SinceLineFeed (src.take a) (cs.flatMap String.utf8EncodeChar) ∧
        (ofOffset src a).column = 1 + cs.length)) ∧
    ∀ a, src.length < a → ofOffset src a = ofOffset src src.length := by
  refine ⟨fun a b hab hle ha hb => ?_, fun a => ⟨rfl, exists_column hsrc⟩, fun a ha => ofOffset_of_le (Nat.le_of_lt ha)⟩
  have hbefore := ofOffset_before hsrc ha hb hab hle
  exact ⟨hbefore, hbefore.ne⟩

/-- A line with a character of two bytes that ends in a carriage return and a line feed, and the start of another. -/
theorem ofOffset_faithful_sample :
    let src : Bytes := [0x61, 0xC3, 0xA9, 0x0D, 0x0A, 0x62]
    valid src = true ∧ Boundary src 3 ∧ Boundary src 5 ∧ ofOffset src 3 = ⟨1, 3⟩ ∧ ofOffset src 5 = ⟨2, 1⟩ ∧
      (ofOffset src 3).Before (ofOffset src 5) ∧ ofOffset src 7 = ofOffset src 6 := by
  intro src
  have hsrc : valid src = true := by decide +kernel
  have h3 : Boundary src 3 := by decide
  have h5 : Boundary src 5 := by decide
  obtain ⟨horder, -, hend⟩ := ofOffset_faithful hsrc
  exact ⟨hsrc, h3, h5, by decide +kernel, by decide +kernel, (horder 3 5 (by decide) (by decide) h3 h5).1,
    hend 7 (by decide)⟩

end Position

end Flatwire
