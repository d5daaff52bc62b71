import Flatwire.Report
import Flatwire.Proofs.Outline
import Flatwire.Proofs.Positions

/-! What reports show of a source. The line of an excerpt is found by looking for line feeds before and behind an
offset, its number by counting them, the padding and the carets by reading characters; all of them agree on one picture
of the source around the offset. -/

namespace Flatwire

open Utf8

theorem Bytes.length_splitOn (sep : UInt8) (bs : Bytes) : (splitOn sep bs).length = bs.count sep + 1 := by
  induction bs with
  | nil => rfl
  | cons b bs ih =>
    rw [splitOn]
    split_ifs with hb
    · rw [hb, List.length_cons, ih, List.count_cons_self]
    · rw [List.count_cons_of_ne hb]
      rcases hsplit : splitOn sep bs with _ | ⟨p, ps⟩
      · exact absurd hsplit (splitOn_ne_nil sep bs)
      · rw [← ih, hsplit]
        rfl

/-! ### The line around an offset -/

/-- A source around an offset: what stands in front of the line, on the line before and after the offset, and behind the
line. -/
structure LineAround (src : Bytes) (offset : Nat) (lead before after behind : Bytes) : Prop where
  source : src = lead ++ (before ++ after) ++ behind
  offset : offset = lead.length + before.length
  noFeed : lineFeed ∉ before ++ after
  begins : lead = [] ∨ ∃ front, lead = front ++ [lineFeed]
  ends : behind = [] ∨ ∃ rest, behind = lineFeed :: rest

theorem exists_lineEnd (text : Bytes) : ∃ after behind, text = after ++ behind ∧ lineFeed ∉ after ∧
    (behind = [] ∨ ∃ rest, behind = lineFeed :: rest) := by
  induction text with
  | nil => exact ⟨[], [], rfl, List.not_mem_nil, .inl rfl⟩
  | cons b text ih =>
    by_cases hb : b = lineFeed
    · exact ⟨[], b :: text, rfl, List.not_mem_nil, .inr ⟨text, by rw [hb]⟩⟩
    · obtain ⟨after, behind, rfl, hafter, hends⟩ := ih
      refine ⟨b :: after, behind, rfl, ?_, hends⟩
      exact mt List.mem_cons.1 (not_or.2 ⟨Ne.symm hb, hafter⟩)

theorem exists_lineAround {src : Bytes} {offset : Nat} (h : offset ≤ src.length) :
    ∃ lead before after behind, LineAround src offset lead before after behind := by
  obtain ⟨hbefore, hbegins⟩ := sinceLineFeed_lastLine (src.take offset)
  obtain ⟨lead, hlead, hfront⟩ : ∃ lead, src.take offset = lead ++ lastLine (src.take offset) ∧
      (lead = [] ∨ ∃ front, lead = front ++ [lineFeed]) := by
    rcases hbegins with hall | ⟨front, hfront⟩
    · exact ⟨[], hall, .inl rfl⟩
    · exact ⟨front ++ [lineFeed], by rwa [List.append_assoc], .inr ⟨front, rfl⟩⟩
  obtain ⟨after, behind, hdrop, hafter, hends⟩ := exists_lineEnd (src.drop offset)
  refine ⟨lead, lastLine (src.take offset), after, behind, ?_, ?_, ?_, hfront, hends⟩
  · rw [← List.append_assoc lead, ← hlead, List.append_assoc, ← hdrop, List.take_append_drop]
  · rw [← List.length_append, ← hlead, List.length_take_of_le h]
  · exact fun hmem => (List.mem_append.1 hmem).elim hbefore hafter

namespace LineAround

variable {src lead before after behind : Bytes} {offset : Nat} (h : LineAround src offset lead before after behind)

include h

theorem take_eq : src.take offset = lead ++ before := by
  rw [h.source, h.offset, ← List.length_append, ← List.append_assoc, List.append_assoc (lead ++ before), List.take_left]

theorem drop_eq : src.drop offset = after ++ behind := by
  rw [h.source, h.offset, ← List.length_append, ← List.append_assoc, List.append_assoc (lead ++ before), List.drop_left]

theorem offset_le : offset ≤ src.length := by
  rw [h.source, h.offset, List.length_append, List.length_append, List.length_append]
  omega

theorem sinceLineFeed : SinceLineFeed (src.take offset) before := by
  refine ⟨fun hmem => h.noFeed (List.mem_append_left _ hmem), ?_⟩
  rw [h.take_eq]
  rcases h.begins with rfl | ⟨front, rfl⟩
  · exact .inl rfl
  · exact .inr ⟨front, List.append_assoc front [lineFeed] before⟩

theorem getElem?_splitOn :
    (Bytes.splitOn lineFeed src)[(src.take offset).count lineFeed]? = some (before ++ after) := by
  have hbefore : before.count lineFeed = 0 :=
    List.count_eq_zero.2 fun hmem => h.noFeed (List.mem_append_left _ hmem)
  obtain ⟨pieces, hpieces⟩ : ∃ pieces,
      Bytes.splitOn lineFeed ((before ++ after) ++ behind) = (before ++ after) :: pieces := by
    rcases h.ends with rfl | ⟨rest, rfl⟩
    · exact ⟨[], by rw [List.append_nil, Bytes.splitOn_of_notMem h.noFeed]⟩
    · exact ⟨_, Bytes.splitOn_append h.noFeed⟩
  rw [h.take_eq, List.count_append, hbefore, Nat.add_zero, h.source]
  rcases h.begins with rfl | ⟨front, rfl⟩
  · rw [List.nil_append, hpieces]
    rfl
  · rw [List.append_assoc, List.append_assoc, List.singleton_append, Bytes.splitOn_sep, hpieces, List.count_append,
      List.count_singleton_self, ← Bytes.length_splitOn, List.getElem?_append_right (Nat.le_refl _), Nat.sub_self]
    rfl

theorem lineAt_eq : Report.lineAt src offset = (lead.length, Bytes.dropSuffix [0x0D] (before ++ after)) := by
  have hafter : ∀ b ∈ after, (b != lineFeed) = true :=
    fun b hb => bne_iff_ne.2 fun heq => h.noFeed (List.mem_append_right _ (heq ▸ hb))
  have hstop : behind.takeWhile (· != lineFeed) = [] := by
    rcases h.ends with rfl | ⟨rest, rfl⟩
    · rfl
    · exact List.takeWhile_cons_of_neg (by simp)
  unfold Report.lineAt
  rw [← h.sinceLineFeed.eq_lastLine, h.drop_eq, List.takeWhile_append_of_pos hafter, hstop, List.append_nil, h.offset]
  dsimp only
  rw [Nat.add_sub_cancel]

end LineAround

/-! ### Excerpts -/

namespace Report

/-- A line without the carriage return at its end, if it has one. -/
def WithoutReturn (line excerpt : Bytes) : Prop :=
  line = excerpt ++ [0x0D] ∨ line = excerpt ∧ line.getLast? ≠ some 0x0D

theorem withoutReturn_dropSuffix (line : Bytes) : WithoutReturn line (Bytes.dropSuffix [0x0D] line) := by
  unfold Bytes.dropSuffix
  split_ifs with h
  · obtain ⟨front, rfl⟩ := List.isSuffixOf_iff_suffix.1 h
    exact .inl (by simp)
  · refine .inr ⟨rfl, fun hlast => h (List.isSuffixOf_iff_suffix.2 ?_)⟩
    obtain ⟨front, rfl⟩ := List.getLast?_eq_some_iff.1 hlast
    exact List.suffix_append front [0x0D]

theorem WithoutReturn.isPrefix {line excerpt : Bytes} (h : WithoutReturn line excerpt) : excerpt <+: line := by
  rcases h with rfl | ⟨rfl, -⟩
  · exact List.prefix_append excerpt [0x0D]
  · exact List.prefix_refl line

/-- What a report shows of a source: what stands before the span on its line, the line without its end, the padding
under what stands before, and the number of carets. -/
structure Shows (src : Bytes) (span : Span) (before excerpt pad : Bytes) (carets : Nat) : Prop where
  begins : SinceLineFeed (src.take span.start) before
  /-- The excerpt is the line with the number that the place has. -/
  numbered : ∃ line, (Bytes.splitOn lineFeed src)[(Position.ofOffset src span.start).line - 1]? = some line ∧
    before <+: line ∧ WithoutReturn line excerpt
  width : pad.length = (Position.ofOffset src span.start).column - 1
  tabs : ∀ i : Nat, pad[i]? = (units before)[i]?.map fun u : Utf8.Unit => if u.toChar = '\t' then 0x09 else 0x20
  /-- One caret for each character of the span in the excerpt, or one caret if there are none. -/
  under : carets = if (excerpt.drop before.length).take span.len = [] then 1
    else count ((excerpt.drop before.length).take span.len)
  nonempty : 1 ≤ carets
  /-- Two carets or more stand under the excerpt. -/
  inside : valid src = true → Boundary src span.start → Boundary src (span.start + span.len) →
    carets = 1 ∨ pad.length + carets ≤ count excerpt

theorem getElem?_padding (bs : Bytes) (i : Nat) :
    (padding bs)[i]? = (units bs)[i]?.map fun u => if u.toChar = '\t' then 0x09 else 0x20 := by
  unfold padding
  rw [List.getElem?_map]
  congr 1
  funext u
  rcases u with c | b
  · by_cases hc : c = '\t'
    · rw [hc]
      rfl
    · simp [Unit.toChar, hc]
  · rfl

theorem one_le_count {bs : Bytes} (h : bs ≠ []) : 1 ≤ count bs := by
  obtain ⟨b, bs, rfl⟩ := List.exists_cons_of_ne_nil h
  unfold count units
  rw [List.length_cons, unitsAux]
  split
  · rw [unitsAux_acc]
    simp
  · rw [unitsAux_acc]
    simp

section Shown

variable {src lead before after behind excerpt : Bytes} {span : Span}

/-- The source around an excerpt: what follows begins with no continuation byte. -/
theorem exists_behind (h : LineAround src span.start lead before after behind)
    (hexcerpt : WithoutReturn (before ++ after) excerpt) :
    ∃ rest, src = (lead ++ excerpt) ++ rest ∧ rest.head?.any isContinuation = false := by
  have hends : behind.head?.any isContinuation = false := by
    rcases h.ends with rfl | ⟨rest, rfl⟩ <;> rfl
  rcases hexcerpt with hline | ⟨hline, -⟩
  · exact ⟨0x0D :: behind, by rw [h.source, hline]; simp, rfl⟩
  · exact ⟨behind, by rw [h.source, hline], hends⟩

theorem marked_eq (h : LineAround src span.start lead before after behind) {rest : Bytes}
    (hsrc : src = (lead ++ excerpt) ++ rest) :
    (src.take (min (span.start + span.len) (lead.length + excerpt.length))).drop span.start =
      (excerpt.drop before.length).take span.len := by
  have hline : src.take (lead.length + excerpt.length) = lead ++ excerpt := by
    rw [hsrc, ← List.length_append, List.take_left]
  have hdrop : (lead ++ excerpt).drop span.start = excerpt.drop before.length := by
    rw [h.offset, List.drop_length_add_append]
  rw [← List.take_take, hline, List.drop_take, Nat.add_sub_cancel_left, hdrop]

theorem count_add_le (h : LineAround src span.start lead before after behind)
    (hexcerpt : WithoutReturn (before ++ after) excerpt) (hsrc : valid src = true) (hstart : Boundary src span.start)
    (hstop : Boundary src (span.start + span.len)) (hsome : (excerpt.drop before.length).take span.len ≠ []) :
    count before + count ((excerpt.drop before.length).take span.len) ≤ count excerpt := by
  obtain ⟨rest, hrest, hhead⟩ := exists_behind h hexcerpt
  have hlen : before.length < excerpt.length := by
    apply Nat.lt_of_not_le
    intro hle
    rw [List.drop_of_length_le hle, List.take_nil] at hsome
    exact hsome rfl
  -- the excerpt ends between characters, since a line end or nothing follows it
  have hcut : Boundary src (min (span.start + span.len) (lead.length + excerpt.length)) := by
    rcases Nat.le_total (span.start + span.len) (lead.length + excerpt.length) with hle | hle
    · rwa [Nat.min_eq_left hle]
    · rw [Nat.min_eq_right hle, hrest, ← List.length_append]
      exact boundary_append _ hhead
  have hle : span.start ≤ min (span.start + span.len) (lead.length + excerpt.length) := by
    have hoffset := h.offset
    omega
  obtain ⟨ds, rfl⟩ := h.sinceLineFeed.exists_chars (hstart.valid_take hsrc)
  obtain ⟨es, hes⟩ := hstart.exists_between hcut hsrc hle
  have hmarked := marked_eq h hrest
  rw [hes, List.drop_left' (List.length_take_of_le h.offset_le)] at hmarked
  obtain ⟨tail, rfl⟩ :=
    List.prefix_of_prefix_length_le (List.prefix_append _ after) hexcerpt.isPrefix (Nat.le_of_lt hlen)
  rw [List.drop_left] at hmarked ⊢
  have hsplit := List.take_append_drop span.len tail
  rw [← hmarked] at hsplit ⊢
  rw [count_append, count_chars, count_chars, ← hsplit, count_append]
  omega

theorem caretCount_eq (h : LineAround src span.start lead before after behind)
    (hstop : span.start + span.len < 0x100000000) {rest : Bytes}
    (hrest : src = (lead ++ Bytes.dropSuffix [0x0D] (before ++ after)) ++ rest) : caretCount src span =
      max 1 (count (((Bytes.dropSuffix [0x0D] (before ++ after)).drop before.length).take span.len)) := by
  unfold caretCount Span.stop
  rw [h.lineAt_eq, Nat.mod_eq_of_lt hstop]
  dsimp only
  rw [marked_eq h hrest]

theorem shows (hstart : span.start ≤ src.length) (hstop : span.start + span.len < 0x100000000) :
    Shows src span (lastLine (src.take span.start)) (lineAt src span.start).2
      (padding (lastLine (src.take span.start))) (caretCount src span) := by
  obtain ⟨lead, before, after, behind, h⟩ := exists_lineAround hstart
  have hexcerpt := withoutReturn_dropSuffix (before ++ after)
  obtain ⟨rest, hrest, -⟩ := exists_behind h hexcerpt
  have hcarets := caretCount_eq h hstop hrest
  have hwidth : (padding before).length = count before := List.length_map ..
  have hcolumn : (Position.ofOffset src span.start).column = 1 + count before := by
    unfold Position.ofOffset
    rw [h.sinceLineFeed.eq_lastLine]
  rw [← h.sinceLineFeed.eq_lastLine, h.lineAt_eq]
  refine ⟨h.sinceLineFeed, ⟨before ++ after, ?_, List.prefix_append before after, hexcerpt⟩, ?_,
    getElem?_padding before, ?_, ?_, ?_⟩
  · have hline : (Position.ofOffset src span.start).line - 1 = (src.take span.start).count lineFeed :=
      Nat.add_sub_cancel_left 1 _
    rw [hline]
    exact h.getElem?_splitOn
  · rw [hwidth, hcolumn, Nat.add_sub_cancel_left]
  · rw [hcarets]
    split_ifs with hnone
    · rw [hnone]
      rfl
    · exact Nat.max_eq_right (one_le_count hnone)
  · rw [hcarets]
    exact Nat.le_max_left 1 _
  · intro hsrc hcutStart hcutStop
    rw [hcarets, hwidth]
    by_cases hnone : ((Bytes.dropSuffix [0x0D] (before ++ after)).drop before.length).take span.len = []
    · rw [hnone]
      exact .inl rfl
    · rw [Nat.max_eq_right (one_le_count hnone)]
      exact .inr (count_add_le h hexcerpt hsrc hcutStart hcutStop hnone)

end Shown

/-! ### Plain text -/

theorem notMem_decimal {b : UInt8} (n : Nat) (h : Json.isDecimal b = false) : b ∉ Bytes.decimal n := by
  intro hmem
  rw [Bytes.isDecimal_of_mem b hmem] at h
  cases h

/-- A position as it is told behind the name of a file. -/
def lineColumn (pos : Position) : Bytes :=
  Bytes.ofString ":" ++ Bytes.decimal pos.line ++ Bytes.ofString ":" ++ Bytes.decimal pos.column

/-- A report in plain text: a line with the place and the message, the numbered excerpt, and carets under it. -/
def layout (place : Bytes) (severity : Severity) (message number excerpt pad : Bytes) (carets : Nat) : Bytes :=
  let blank : Bytes := List.replicate number.length 0x20
  let marks : Bytes := List.replicate carets 0x5E
  Bytes.unlines [place ++ ": " ++ severity.label ++ " " ++ message, "  " ++ number ++ " | " ++ excerpt,
    "  " ++ blank ++ " | " ++ pad ++ marks]

theorem notMem_lineColumn {b : UInt8} (pos : Position) (h : Json.isDecimal b = false) (hcolon : b ≠ 0x3A) :
    b ∉ lineColumn pos := by
  unfold lineColumn
  simp only [List.mem_append, not_or]
  have hpart : b ∉ Bytes.ofString ":" := mt List.mem_singleton.1 hcolon
  exact ⟨⟨⟨hpart, notMem_decimal _ h⟩, hpart⟩, notMem_decimal _ h⟩

end Report

/-- Without colours, a text with no tab and no line feed is printed as it is. -/
def Libraries.PaintsPlain [Libraries] : Prop :=
  ∀ style text, 0x09 ∉ text → lineFeed ∉ text → Libraries.paint false style text = text

section Printed

variable [Libraries]

/-- The place of a report, with the style that it is printed in. -/
def Report.place (file : Bytes) (pos : Position) : Bytes := paint false .location (file ++ lineColumn pos)

variable (hpaint : Libraries.PaintsPlain)

include hpaint

theorem Report.located_plain (severity : Severity) (file src message : Bytes) (span : Span) :
    located false severity file src message span =
      layout (place file (Position.ofOffset src span.start)) severity message
        (Bytes.decimal (Position.ofOffset src span.start).line) (lineAt src span.start).2
        (padding (lastLine (src.take span.start))) (caretCount src span) := by
  have hlabel : paint false (.label severity) severity.label = severity.label := by
    rcases severity with _ | _ <;> exact hpaint _ _ (by decide) (by decide)
  have hnumber : ∀ n, paint false .gutter (Bytes.decimal n ++ " |") = Bytes.decimal n ++ " |" := by
    intro n
    apply hpaint <;> rw [List.mem_append, not_or] <;> exact ⟨notMem_decimal n (by decide), by decide⟩
  have hblank : ∀ n, paint false .gutter ((List.replicate n 0x20 : Bytes) ++ " |") =
      (List.replicate n 0x20 : Bytes) ++ " |" := by
    intro n
    apply hpaint <;> rw [List.mem_append, not_or] <;>
      exact ⟨fun hmem => absurd (List.mem_replicate.1 hmem).2 (by decide), by decide⟩
  have hcarets : ∀ n, paint false .carets (List.replicate n 0x5E) = List.replicate n 0x5E := by
    intro n
    apply hpaint <;> exact fun hmem => absurd (List.mem_replicate.1 hmem).2 (by decide)
  have hbar : Bytes.ofString " | " = Bytes.ofString " |" ++ Bytes.ofString " " := by decide
  unfold located layout place lineColumn
  dsimp only
  rw [hlabel, hnumber, hblank, hcarets, hbar]
  simp only [List.append_assoc]

/-- Reports point at the right text. Without colours a report on a span tells line and column of its start behind the
name of the file, and shows the line there with carets under the span. This is so for every library that prints plain
texts as they are, and a place is such a text if the name of the file is one. -/
theorem Notice.text_points_at_span (severity : Severity) (file src message : Bytes) {span : Span}
    (hstart : span.start ≤ src.length) (hstop : span.start + span.len < 0x100000000) :
    ∃ before excerpt pad carets,
      (Notice.mk severity file src message (some span)).text false =
        Report.layout (Report.place file (Position.ofOffset src span.start)) severity message
          (Bytes.decimal (Position.ofOffset src span.start).line) excerpt pad carets ∧
      Report.Shows src span before excerpt pad carets ∧
      (0x09 ∉ file → lineFeed ∉ file → Report.place file (Position.ofOffset src span.start) =
        file ++ Report.lineColumn (Position.ofOffset src span.start)) := by
  have htab := Report.notMem_lineColumn (b := 0x09) (Position.ofOffset src span.start) (by decide) (by decide)
  have hfeed := Report.notMem_lineColumn (b := lineFeed) (Position.ofOffset src span.start) (by decide) (by decide)
  refine ⟨_, _, _, _, ?_, Report.shows hstart hstop, ?_⟩
  · unfold Notice.text
    dsimp only
    rw [if_neg (Nat.not_lt.2 hstart), Report.located_plain hpaint]
  · intro hfileTab hfileFeed
    apply hpaint
    · exact fun hmem => (List.mem_append.1 hmem).elim hfileTab htab
    · exact fun hmem => (List.mem_append.1 hmem).elim hfileFeed hfeed

end Printed

/-- A span that begins behind a tab and goes on over the end of the line, which a carriage return belongs to, is marked
up to there. -/
theorem Notice.text_points_at_span_sample :
    letI := Libraries.plain
    let src : Bytes := [0x61, 0x0A, 0x09, 0xC3, 0xA9, 0x62, 0x0D, 0x0A, 0x63]
    let span : Span := ⟨3, 6⟩
    let text := (Notice.mk .error "x.sb" src "boom" (some span)).text false
    span.start ≤ src.length ∧ span.start + span.len < 0x100000000 ∧
      text = Bytes.ofString "x.sb:2:2: error: boom\n  2 | \téb\n    | \t^^\n" ∧
      ∃ before excerpt pad carets, Report.Shows src span before excerpt pad carets ∧
        text = Report.layout (Bytes.ofString "x.sb" ++ Report.lineColumn (Position.ofOffset src span.start)) .error
          "boom" (Bytes.decimal (Position.ofOffset src span.start).line) excerpt pad carets := by
  let := Libraries.plain
  intro src span text
  have hstart : span.start ≤ src.length := by decide
  have hstop : span.start + span.len < 0x100000000 := by decide
  obtain ⟨before, excerpt, pad, carets, htext, hshows, hplace⟩ :=
    Notice.text_points_at_span (fun _ _ _ _ => rfl) .error "x.sb" src "boom" hstart hstop
  rw [hplace (by decide) (by decide)] at htext
  exact ⟨hstart, hstop, by decide +kernel, before, excerpt, pad, carets, hshows, htext⟩

end Flatwire
