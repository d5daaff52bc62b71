import Mathlib.Data.List.Chain
import Flatwire.Proofs.AsciiText
import Flatwire.Text.SnakeCase

/-! Snake case as a normal form. The words of a name are divided by single underscores, whatever divided them in the name
itself; a name is in this form if and only if it is its own snake case. -/

namespace Flatwire.Text

variable {c : Char} {prev : Option Char} {out cs run : List Char}

/-- Names in snake case. -/
structure IsSnake (cs : List Char) : Prop where
  upper : ∀ c ∈ cs, c.isUpper = false
  space : ' ' ∉ cs
  hyphen : '-' ∉ cs
  start : cs.head? ≠ some '_'
  finish : cs.getLast? ≠ some '_'
  single : cs.IsChain fun a b => ¬ (a = '_' ∧ b = '_')

theorem isSeparator_iff : isSeparator c = true ↔ c = '-' ∨ c = ' ' ∨ c = '_' := by
  simp [isSeparator, or_assoc]

theorem isLower_separator (h : isSeparator c = true) : isLower c = false := by
  rcases isSeparator_iff.1 h with rfl | rfl | rfl <;> rfl

/-! ### The scan -/

/-- The output of the scan, in reverse. -/
structure Tidy (out : List Char) : Prop where
  separator : ∀ c ∈ out, isSeparator c = true → c = '_'
  start : out.getLast? ≠ some '_'
  single : out.IsChain fun a b => ¬ (a = '_' ∧ b = '_')

theorem Tidy.underscore (h : Tidy out) (hmid : midWord out = true) : Tidy ('_' :: out) := by
  cases out with
  | nil => exact absurd hmid (by decide)
  | cons c out =>
    have hc : c ≠ '_' := bne_iff_ne.1 hmid
    exact ⟨List.forall_mem_cons.2 ⟨fun _ => rfl, h.separator⟩, by rw [List.getLast?_cons_cons]; exact h.start,
      List.isChain_cons_cons.2 ⟨fun hboth => hc hboth.2, h.single⟩⟩

theorem Tidy.cons (h : Tidy out) (hc : isSeparator c = false) : Tidy (c :: out) := by
  have hne : c ≠ '_' := fun heq => by rw [heq] at hc; exact absurd hc (by decide)
  refine ⟨List.forall_mem_cons.2 ⟨fun hsep => absurd hsep (by rw [hc]; decide), h.separator⟩, ?_,
    List.isChain_cons.2 ⟨fun _ _ hboth => hne hboth.1, h.single⟩⟩
  cases out with
  | nil => exact fun heq => hne (Option.some.inj heq)
  | cons d out => rw [List.getLast?_cons_cons]; exact h.start

theorem splitWords_tidy (h : Tidy out) : Tidy (splitWords prev out cs).reverse := by
  induction cs generalizing prev out with
  | nil => rw [splitWords, List.reverse_reverse]; exact h
  | cons c cs ih =>
    rw [splitWords]
    split_ifs with hsep hmid hword
    · exact ih (h.underscore hmid)
    · exact ih h
    · exact ih ((h.underscore (Bool.and_eq_true_iff.1 hword).1).cons (Bool.eq_false_iff.2 hsep))
    · exact ih (h.cons (Bool.eq_false_iff.2 hsep))

theorem filter_splitWords : (splitWords prev out cs).filter (· != '_') =
    out.reverse.filter (· != '_') ++ cs.filter fun c => !isSeparator c := by
  induction cs generalizing prev out with
  | nil => rw [splitWords, List.filter_nil, List.append_nil]
  | cons c cs ih =>
    have hkept : isSeparator c = false → (c != '_') = true := fun hsep =>
      bne_iff_ne.2 fun heq => by rw [heq] at hsep; exact absurd hsep (by decide)
    rw [splitWords]
    split_ifs with hsep hmid hword
    · simp [ih, hsep]
    · simp [ih, hsep]
    · simp [ih, hsep, hkept (Bool.eq_false_iff.2 hsep)]
    · simp [ih, hsep, hkept (Bool.eq_false_iff.2 hsep)]

theorem splitWords_snake (hupper : ∀ c ∈ cs, isUpper c = false) (hsep : ∀ c ∈ cs, isSeparator c = true → c = '_')
    (hsingle : cs.IsChain fun a b => ¬ (a = '_' ∧ b = '_')) (hstart : cs.head? = some '_' → midWord out = true) :
    splitWords prev out cs = out.reverse ++ cs := by
  induction cs generalizing prev out with
  | nil => rw [splitWords, List.append_nil]
  | cons c cs ih =>
    obtain ⟨hc, hrestUpper⟩ := List.forall_mem_cons.1 hupper
    obtain ⟨hcsep, hrestSep⟩ := List.forall_mem_cons.1 hsep
    obtain ⟨hnext, hrestSingle⟩ := List.isChain_cons.1 hsingle
    replace ih := fun prev out => @ih prev out hrestUpper hrestSep hrestSingle
    rw [splitWords]
    split_ifs with hs hmid hword
    · -- the underscore stands after a word, and none stands after it
      obtain rfl := hcsep hs
      rw [ih _ _ fun hhead => absurd ⟨rfl, rfl⟩ (hnext _ hhead), List.reverse_cons, List.append_assoc]
      rfl
    · obtain rfl := hcsep hs
      exact absurd (hstart rfl) hmid
    · simp [startsWord, hc] at hword
    · have hmid : midWord (c :: out) = true := bne_iff_ne.2 fun heq => hs (by rw [heq]; decide)
      rw [ih _ _ fun _ => hmid, List.reverse_cons, List.append_assoc]
      rfl

/-! ### Runs of separators -/

/-- The output after a separator. -/
def atBreak (out : List Char) : List Char := if midWord out then '_' :: out else out

/-- The output without an underscore at its end. -/
def trimBreak (out : List Char) : List Char := if midWord out then out else out.tail

/-- The output for a name, in reverse. -/
def scanned (prev : Option Char) (out cs : List Char) : List Char := trimBreak (splitWords prev out cs).reverse

theorem midWord_atBreak (out : List Char) : midWord (atBreak out) = false := by
  rw [atBreak]
  split_ifs with h
  · rfl
  · exact Bool.eq_false_iff.2 h

theorem trimBreak_atBreak (out : List Char) : trimBreak (atBreak out) = trimBreak out := by
  rw [trimBreak, if_neg (Bool.eq_false_iff.1 (midWord_atBreak out)), atBreak, trimBreak]
  split_ifs <;> rfl

theorem splitWords_prev (h : midWord out = false) (prev' : Option Char) :
    splitWords prev out cs = splitWords prev' out cs := by
  cases cs with
  | nil => rfl
  | cons c cs => simp only [splitWords, h, Bool.false_and]

theorem splitWords_run (hrun : ∀ c ∈ run, isSeparator c = true) (hne : run ≠ []) :
    splitWords prev out (run ++ cs) = splitWords none (atBreak out) cs := by
  induction run generalizing prev out with
  | nil => exact absurd rfl hne
  | cons c run ih =>
    obtain ⟨hc, hrun⟩ := List.forall_mem_cons.1 hrun
    rw [List.cons_append, splitWords, if_pos hc]
    change splitWords (some c) (atBreak out) (run ++ cs) = _
    rcases eq_or_ne run [] with rfl | hmore
    · exact splitWords_prev (midWord_atBreak out) none
    · rw [ih hrun hmore, atBreak, if_neg (Bool.eq_false_iff.1 (midWord_atBreak out))]

theorem next_run (hrun : ∀ c ∈ run, isSeparator c = true) (hne : run ≠ []) :
    ((run ++ cs).head?.map isLower).getD false = false := by
  cases run with
  | nil => exact absurd rfl hne
  | cons c run => exact isLower_separator (hrun c List.mem_cons_self)

/-- Two endings that the scan takes alike are alike after any beginning; of the ending the beginning sees only whether
it starts with a small letter. -/
theorem scanned_congr {s t : List Char}
    (h : ∀ prev out, scanned prev out s = scanned prev out t)
    (hnext : (s.head?.map isLower).getD false = (t.head?.map isLower).getD false) (front : List Char) :
    scanned prev out (front ++ s) = scanned prev out (front ++ t) := by
  induction front generalizing prev out with
  | nil => exact h prev out
  | cons c front ih =>
    have hstarts : startsWord prev c (front ++ s).head? = startsWord prev c (front ++ t).head? := by
      cases front with
      | nil => simp only [startsWord, List.nil_append, hnext]
      | cons d front => rfl
    rw [List.cons_append, List.cons_append, scanned, scanned, splitWords, splitWords, hstarts]
    split_ifs <;> exact ih

/-! ### The whole form -/

theorem lower_facts (h : c.toNat < 0x80) : c.toLower.isUpper = false ∧ (c.toLower = '_' ↔ c = '_') ∧
    isSeparator c.toLower = isSeparator c ∧ isUpper c = c.isUpper ∧ (c.isUpper = false → c.toLower = c) := by
  refine forall_ascii h ?_
  decide +kernel

theorem splitWords_ascii (h : ∀ c ∈ cs, c.toNat < 0x80) : ∀ c ∈ splitWords none [] cs, c.toNat < 0x80 := by
  intro c hc
  rcases eq_or_ne c '_' with rfl | hne
  · decide
  · have hkept : c ∈ (splitWords none [] cs).filter (· != '_') := List.mem_filter.2 ⟨hc, bne_iff_ne.2 hne⟩
    rw [filter_splitWords] at hkept
    exact h c (List.mem_filter.1 hkept).1

theorem Tidy.trimBreak (h : Tidy out) : Tidy (trimBreak out) ∧ (trimBreak out).head? ≠ some '_' := by
  rw [Text.trimBreak]
  cases out with
  | nil => exact ⟨h, by decide⟩
  | cons c out =>
    split_ifs with hmid
    · exact ⟨h, fun heq => bne_iff_ne.1 hmid (Option.some.inj heq)⟩
    · obtain rfl : c = '_' := by simpa [midWord] using hmid
      obtain ⟨hnext, hsingle⟩ := List.isChain_cons.1 h.single
      refine ⟨⟨(List.forall_mem_cons.1 h.separator).2, ?_, hsingle⟩, fun heq => hnext _ heq ⟨rfl, rfl⟩⟩
      cases out with
      | nil => exact fun heq => nomatch heq
      | cons d out => exact List.getLast?_cons_cons ▸ h.start

theorem scanned_ascii (h : ∀ c ∈ cs, c.toNat < 0x80) : ∀ c ∈ scanned none [] cs, c.toNat < 0x80 := by
  intro c hc
  refine splitWords_ascii h c (List.mem_reverse.1 ?_)
  rw [scanned, trimBreak] at hc
  split_ifs at hc
  exacts [hc, List.mem_of_mem_tail hc]

theorem filter_trimBreak (out : List Char) : (trimBreak out).filter (· != '_') = out.filter (· != '_') := by
  rw [trimBreak]
  cases out with
  | nil => rfl
  | cons c out =>
    split_ifs with hmid
    · rfl
    · have hc : (c != '_') = false := Bool.eq_false_iff.2 hmid
      rw [List.tail_cons, List.filter_cons, hc, if_neg Bool.false_ne_true]

section Lowering

variable [Libraries] (hlower : Libraries.LowersPlain)

include hlower

theorem snakeChars_ascii (h : ∀ c ∈ cs, c.toNat < 0x80) :
    snakeChars cs = (scanned none [] cs).reverse.map Char.toLower := by
  have hascii := splitWords_ascii h
  rw [snakeChars, hlower _ hascii, scanned]
  generalize splitWords none [] cs = l at hascii
  rcases List.eq_nil_or_concat l with rfl | ⟨l, c, rfl⟩
  · rfl
  · have hlast := (lower_facts (hascii c (by simp))).2.1
    by_cases hc : c = '_'
    · simp [trimBreak, midWord, hc]
    · simp [trimBreak, midWord, hc, hlast]

theorem isSnake_snakeChars (h : ∀ c ∈ cs, c.toNat < 0x80) : IsSnake (snakeChars cs) := by
  have hempty : Tidy [] := ⟨by simp, by simp, List.isChain_nil⟩
  have hscan : Tidy (splitWords none [] cs).reverse := splitWords_tidy hempty
  have hnormal : Tidy (scanned none [] cs) ∧ (scanned none [] cs).head? ≠ some '_' := hscan.trimBreak
  have hascii := scanned_ascii h
  rw [snakeChars_ascii hlower h]
  generalize scanned none [] cs = r at hnormal hascii
  obtain ⟨htidy, hhead⟩ := hnormal
  -- of the separators only the underscore stands in the output, and lowering keeps each as it is
  have hsep : ∀ s, isSeparator s = true → s ≠ '_' → s ∉ r.reverse.map Char.toLower := by
    intro s hs hne hmem
    obtain ⟨c, hc, rfl⟩ := List.mem_map.1 hmem
    obtain ⟨-, heq, hkeeps, -⟩ := lower_facts (hascii c (List.mem_reverse.1 hc))
    exact hne (heq.2 (htidy.separator c (List.mem_reverse.1 hc) (hkeeps ▸ hs)))
  have hunder : ∀ o : Option Char, (∀ c ∈ o, c.toNat < 0x80) → o ≠ some '_' → o.map Char.toLower ≠ some '_' := by
    intro o ho hne heq
    obtain ⟨c, rfl, hc⟩ := Option.map_eq_some_iff.1 heq
    exact hne (congrArg some ((lower_facts (ho c rfl)).2.1.1 hc))
  refine ⟨fun c hc => ?_, hsep ' ' rfl (by decide), hsep '-' rfl (by decide), ?_, ?_, ?_⟩
  · obtain ⟨d, hd, rfl⟩ := List.mem_map.1 hc
    exact (lower_facts (hascii d (List.mem_reverse.1 hd))).1
  · rw [List.head?_map, List.head?_reverse]
    exact hunder _ (fun c hc => hascii c (List.mem_of_getLast? hc)) htidy.start
  · rw [List.getLast?_map, List.getLast?_reverse]
    exact hunder _ (fun c hc => hascii c (List.mem_of_head? hc)) hhead
  · rw [List.isChain_map, List.isChain_reverse]
    refine htidy.single.imp_of_mem_imp fun a b ha hb hne hboth => hne ?_
    exact ⟨(lower_facts (hascii a ha)).2.1.1 hboth.2, (lower_facts (hascii b hb)).2.1.1 hboth.1⟩

theorem snakeChars_of_isSnake (h : ∀ c ∈ cs, c.toNat < 0x80) (hs : IsSnake cs) : snakeChars cs = cs := by
  have hsep : ∀ c ∈ cs, isSeparator c = true → c = '_' := by
    intro c hc hsep
    rcases isSeparator_iff.1 hsep with rfl | rfl | rfl
    exacts [absurd hc hs.hyphen, absurd hc hs.space, rfl]
  have hscan : splitWords none [] cs = cs :=
    splitWords_snake (fun c hc => (lower_facts (h c hc)).2.2.2.1.trans (hs.upper c hc)) hsep hs.single
      fun heq => absurd heq hs.start
  have htrim : trimBreak cs.reverse = cs.reverse := by
    have hfinish := hs.finish
    rw [← List.head?_reverse] at hfinish
    generalize cs.reverse = r at hfinish
    rw [trimBreak]
    cases r with
    | nil => rfl
    | cons c r => exact if_pos (bne_iff_ne.2 fun heq => hfinish (congrArg some heq))
  rw [snakeChars_ascii hlower h, scanned, hscan, htrim, List.reverse_reverse]
  exact (List.map_congr_left fun c hc => (lower_facts (h c hc)).2.2.2.2 (hs.upper c hc)).trans (List.map_id cs)

theorem filter_snakeChars (h : ∀ c ∈ cs, c.toNat < 0x80) :
    (snakeChars cs).filter (· != '_') = (cs.filter fun c => !isSeparator c).map Char.toLower := by
  have hscan : (scanned none [] cs).reverse.filter (· != '_') = cs.filter fun c => !isSeparator c := by
    rw [List.filter_reverse, scanned, filter_trimBreak, List.filter_reverse, List.reverse_reverse, filter_splitWords]
    rfl
  rw [snakeChars_ascii hlower h, List.filter_map, ← hscan]
  refine congrArg (List.map _) (List.filter_congr fun c hc => ?_)
  have hunder := (lower_facts (scanned_ascii h c (List.mem_reverse.1 hc))).2.1
  rw [Function.comp_apply, Bool.eq_iff_iff, bne_iff_ne, bne_iff_ne, Ne, hunder]

end Lowering

theorem scanned_congr_run {t : List Char} (hrun : ∀ c ∈ run, isSeparator c = true) (hne : run ≠ [])
    (ht : ∀ c ∈ t, isSeparator c = true) (htne : t ≠ []) (front back : List Char) :
    scanned none [] (front ++ (run ++ back)) = scanned none [] (front ++ (t ++ back)) := by
  refine scanned_congr (fun prev out => ?_) ?_ front
  · rw [scanned, scanned, splitWords_run hrun hne, splitWords_run ht htne]
  · rw [next_run hrun hne, next_run ht htne]

theorem scanned_congr_ends {t : List Char} (hrun : ∀ c ∈ run, isSeparator c = true)
    (ht : ∀ c ∈ t, isSeparator c = true) (cs : List Char) :
    scanned none [] (run ++ (cs ++ t)) = scanned none [] cs := by
  have hstart : scanned none [] (run ++ (cs ++ t)) = scanned none [] (cs ++ t) := by
    rcases eq_or_ne run [] with rfl | hne
    exacts [rfl, congrArg (fun l => trimBreak l.reverse) (splitWords_run hrun hne)]
  rw [hstart]
  rcases eq_or_ne t [] with rfl | hne
  · rw [List.append_nil]
  · have hend : scanned none [] (cs ++ (t ++ [])) = scanned none [] (cs ++ []) := by
      refine scanned_congr (fun prev out => ?_) (next_run ht hne) cs
      rw [scanned, scanned, splitWords_run ht hne, splitWords, splitWords, List.reverse_reverse, List.reverse_reverse,
        trimBreak_atBreak]
    rw [List.append_nil, List.append_nil] at hend
    exact hend

/-! ### Bytes -/

/-- Bytes that are all separators. -/
def IsSeparators (run : Bytes) : Prop := ∀ b ∈ run, b = 0x2D ∨ b = 0x20 ∨ b = 0x5F

theorem IsSeparators.ascii {run : Bytes} (h : IsSeparators run) : ∀ b ∈ run, b < 0x80 := by
  intro b hb
  rcases h b hb with rfl | rfl | rfl <;> decide

theorem IsSeparators.chars {run : Bytes} (h : IsSeparators run) : ∀ c ∈ run.chars, isSeparator c = true := by
  intro c hc
  rw [Utf8.chars_ascii h.ascii] at hc
  obtain ⟨b, hb, rfl⟩ := List.mem_map.1 hc
  rcases h b hb with rfl | rfl | rfl <;> decide

theorem IsSeparators.chars_ne {run : Bytes} (h : IsSeparators run) (hne : run ≠ []) : run.chars ≠ [] := by
  rw [Utf8.chars_ascii h.ascii]
  exact fun heq => hne (List.map_eq_nil_iff.1 heq)

section Names

variable [Libraries]

theorem chars_snakeCase (name : Bytes) : (snakeCase name).chars = snakeChars name.chars := Utf8.chars_ofChars _

section Lowering

variable (hlower : Libraries.LowersPlain)

include hlower

theorem snakeCase_congr {name other : Bytes} (h : ∀ b ∈ name, b < 0x80) (ho : ∀ b ∈ other, b < 0x80)
    (heq : scanned none [] name.chars = scanned none [] other.chars) :
    snakeCase name = snakeCase other := by
  have hchars : snakeChars name.chars = snakeChars other.chars := by
    rw [snakeChars_ascii hlower (Utf8.chars_lt h), snakeChars_ascii hlower (Utf8.chars_lt ho), heq]
  exact congrArg Bytes.ofChars hchars

theorem snakeCase_of_isSnake {name : Bytes} (h : ∀ b ∈ name, b < 0x80) (hs : IsSnake name.chars) :
    snakeCase name = name := by
  have hfixed := congrArg Bytes.ofChars (snakeChars_of_isSnake hlower (Utf8.chars_lt h) hs)
  rwa [Utf8.ofChars_chars h] at hfixed

theorem ascii_snakeCase {name : Bytes} (h : ∀ b ∈ name, b < 0x80) : ∀ b ∈ snakeCase name, b < 0x80 := by
  have hchars : ∀ c ∈ snakeChars name.chars, c.toNat < 0x80 := by
    rw [snakeChars_ascii hlower (Utf8.chars_lt h)]
    exact List.forall_mem_map.2 fun c hc => toNat_toLower (scanned_ascii (Utf8.chars_lt h) c (List.mem_reverse.1 hc))
  exact Utf8.ofChars_lt hchars

end Lowering

/-- Snake case is a normal form of ASCII names. It has the words of the name, in lower case and joined by single
underscores; the names that are in this form stay as they are, and it does not matter what separators stand in a name
between two words, or around it. -/
theorem snakeCase_normal_form (hlower : Libraries.LowersPlain) (name : Bytes) (h : ∀ b ∈ name, b < 0x80) :
    IsSnake (snakeCase name).chars ∧ snakeCase (snakeCase name) = snakeCase name ∧
    (snakeCase name = name ↔ IsSnake name.chars) ∧
    (snakeCase name).chars.filter (· != '_') = (name.chars.filter fun c => !isSeparator c).map Char.toLower ∧
    (∀ front run other back, name = front ++ (run ++ back) → run ≠ [] → other ≠ [] → IsSeparators run →
      IsSeparators other → snakeCase (front ++ (other ++ back)) = snakeCase name) ∧
    ∀ lead trail, IsSeparators lead → IsSeparators trail → snakeCase (lead ++ (name ++ trail)) = snakeCase name := by
  have hsnake : IsSnake (snakeCase name).chars := chars_snakeCase name ▸ isSnake_snakeChars hlower (Utf8.chars_lt h)
  refine ⟨hsnake, snakeCase_of_isSnake hlower (ascii_snakeCase hlower h) hsnake,
    ⟨fun heq => heq ▸ hsnake, snakeCase_of_isSnake hlower h⟩,
    chars_snakeCase name ▸ filter_snakeChars hlower (Utf8.chars_lt h), ?_, ?_⟩
  · rintro front run other back rfl hne hother hrun hsep
    obtain ⟨hfront, hrest⟩ := List.forall_mem_append.1 h
    have hback := (List.forall_mem_append.1 hrest).2
    have hnew := List.forall_mem_append.2 ⟨hsep.ascii, hback⟩
    refine snakeCase_congr hlower (List.forall_mem_append.2 ⟨hfront, hnew⟩) h ?_
    rw [Utf8.chars_append hfront hnew, Utf8.chars_append hsep.ascii hback, Utf8.chars_append hfront hrest,
      Utf8.chars_append hrun.ascii hback]
    exact scanned_congr_run hsep.chars (hsep.chars_ne hother) hrun.chars (hrun.chars_ne hne) _ _
  · intro lead trail hlead htrail
    have hend := List.forall_mem_append.2 ⟨h, htrail.ascii⟩
    refine snakeCase_congr hlower (List.forall_mem_append.2 ⟨hlead.ascii, hend⟩) h ?_
    rw [Utf8.chars_append hlead.ascii hend, Utf8.chars_append h htrail.ascii]
    exact scanned_congr_ends hlead.chars htrail.chars _

end Names

theorem snakeCase_normal_form_sample :
    letI := Libraries.plain
    (∀ b ∈ Bytes.ofString "HTTPServer - id2Name", b < 0x80) ∧ snakeCase "HTTPServer - id2Name" = "http_server_id2_name" ∧
      IsSnake (snakeCase "HTTPServer - id2Name").chars ∧
      snakeCase ("HTTPServer" ++ (Bytes.ofString "_-_" ++ "id2Name")) = snakeCase "HTTPServer - id2Name" := by
  let := Libraries.plain
  have hascii : ∀ b ∈ Bytes.ofString "HTTPServer - id2Name", b < 0x80 := by decide +kernel
  have hrun : IsSeparators " - " ∧ IsSeparators "_-_" := by
    unfold IsSeparators
    decide +kernel
  have h := snakeCase_normal_form (fun _ _ => rfl) "HTTPServer - id2Name" hascii
  exact ⟨hascii, by decide +kernel, h.1, h.2.2.2.2.1 "HTTPServer" " - " "_-_" "id2Name" (by decide +kernel)
    (by decide +kernel) (by decide +kernel) hrun.1 hrun.2⟩

end Flatwire.Text
