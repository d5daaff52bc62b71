import Flatwire.Generate.Accessors
import Flatwire.Proofs.AsciiText
import Flatwire.Proofs.Listing

/-! The declarations in generated source, read from its text line by line: types, constants and functions at package
level, and the fields and methods of each type. -/

namespace Flatwire

namespace Bytes

variable {sep : UInt8} {bs cs : Bytes}

theorem splitOn_ne_nil (sep : UInt8) (bs : Bytes) : splitOn sep bs ≠ [] := by
  cases bs with
  | nil => simp [splitOn]
  | cons b bs =>
    rw [splitOn]
    split
    · simp
    · split <;> simp

theorem splitOn_of_notMem (h : sep ∉ bs) : splitOn sep bs = [bs] := by
  induction bs with
  | nil => rfl
  | cons b bs ih =>
    obtain ⟨hb, hbs⟩ := not_or.1 (mt List.mem_cons.2 h)
    rw [splitOn, if_neg (Ne.symm hb), ih hbs]

theorem splitOn_sep (sep : UInt8) (bs cs : Bytes) :
    splitOn sep (bs ++ sep :: cs) = splitOn sep bs ++ splitOn sep cs := by
  induction bs with
  | nil => simp [splitOn]
  | cons b bs ih =>
    rw [List.cons_append, splitOn, splitOn, ih]
    split_ifs with hb
    · rfl
    · cases hsplit : splitOn sep bs with
      | nil => exact absurd hsplit (splitOn_ne_nil sep bs)
      | cons p ps => rfl

theorem splitOn_append (h : sep ∉ bs) : splitOn sep (bs ++ sep :: cs) = bs :: splitOn sep cs := by
  rw [splitOn_sep, splitOn_of_notMem h]
  rfl

theorem not_mem_of_mem_splitOn : ∀ p ∈ splitOn sep bs, sep ∉ p ∧ ∀ b ∈ p, b ∈ bs := by
  induction bs with
  | nil => simp [splitOn]
  | cons b bs ih =>
    rw [splitOn]
    split_ifs with hb
    · refine List.forall_mem_cons.2 ⟨by simp, fun p hp => ?_⟩
      exact ⟨(ih p hp).1, fun c hc => List.mem_cons_of_mem _ ((ih p hp).2 c hc)⟩
    · cases hsplit : splitOn sep bs with
      | nil => exact absurd hsplit (splitOn_ne_nil sep bs)
      | cons q qs =>
        rw [hsplit] at ih
        obtain ⟨hq, hqs⟩ := List.forall_mem_cons.1 ih
        refine List.forall_mem_cons.2 ⟨⟨?_, ?_⟩, fun p hp => ?_⟩
        · exact mt List.mem_cons.1 (not_or.2 ⟨Ne.symm hb, hq.1⟩)
        · exact List.forall_mem_cons.2 ⟨List.mem_cons_self, fun c hc => List.mem_cons_of_mem _ (hq.2 c hc)⟩
        · exact ⟨(hqs p hp).1, fun c hc => List.mem_cons_of_mem _ ((hqs p hp).2 c hc)⟩

end Bytes

namespace Generate

/-- A declaration of source: at package level, or a field or method of a type. -/
inductive Item where
  | package (ident : Bytes)
  | member (type ident : Bytes)
deriving DecidableEq, Repr

/-- What an indented line belongs to. -/
inductive Scope where
  | code
  | constants
  | fields (type : Bytes)
deriving DecidableEq, Repr

def firstWord (bs : Bytes) : Bytes := bs.takeWhile Token.isWord

def lastWord (bs : Bytes) : Bytes := (bs.reverse.takeWhile Token.isWord).reverse

/-- What an indented line declares. A field without a name is called by its type. -/
def readIndented : Scope → Bytes → List Item
  | .code, _ => []
  | .constants, line => [.package (firstWord line)]
  | .fields type, line => [.member type (lastWord (line.takeWhile (· != 0x20)))]

/-- What a line declares, and what the lines after it belong to. -/
def readLine (scope : Scope) (line : Bytes) : List Item × Scope :=
  if line.head? = some 0x09 then (readIndented scope line.tail, scope)
  else if line = "const (" then ([], .constants)
  else if (Bytes.ofString "type ").isPrefixOf line then
    let name := firstWord (line.drop 5)
    ([.package name], if line.drop (5 + name.length) = " struct \x7b" then .fields name else .code)
  else if (Bytes.ofString "func (").isPrefixOf line then
    let receiver := (line.drop 6).takeWhile (· != 0x29)
    ([.member (lastWord receiver) (firstWord (line.drop (6 + receiver.length + 2)))], .code)
  else if (Bytes.ofString "func ").isPrefixOf line then ([.package (firstWord (line.drop 5))], .code)
  else ([], .code)

def readLines : Scope → List Bytes → List Item
  | _, [] => []
  | scope, l :: ls => (readLine scope l).1 ++ readLines (readLine scope l).2 ls

/-- The declarations of source text in order. -/
def outline (text : Bytes) : List Item := readLines .code (Bytes.splitOn 0x0A text)

example :
    outline "type AReader struct \x7b\n\tbuf []byte\n\x7d\nfunc (r AReader) Addr() int \x7b\n\treturn r.addr\n\x7d\n" =
    [.package "AReader", .member "AReader" "buf", .member "AReader" "Addr"] := by decide +kernel

/-! ### Lines -/

/-- The lines declare these items, whatever text follows them. -/
def Reads (scope : Scope) (lines : List Bytes) (items : List Item) (scope' : Scope) : Prop :=
  ∀ rest, readLines scope (Bytes.splitOn 0x0A (Bytes.unlines lines ++ rest)) =
    items ++ readLines scope' (Bytes.splitOn 0x0A rest)

variable {scope scope' scope'' : Scope} {lines lines' : List Bytes} {items items' : List Item} {l : Bytes}

theorem Reads.nil (scope : Scope) : Reads scope [] [] scope := fun _ => rfl

theorem Reads.append (h : Reads scope lines items scope') (h' : Reads scope' lines' items' scope'') :
    Reads scope (lines ++ lines') (items ++ items') scope'' := by
  intro rest
  rw [Bytes.unlines, List.flatMap_append, List.append_assoc, ← Bytes.unlines, ← Bytes.unlines, h, h', List.append_assoc]

theorem Reads.outline_eq (h : Reads .code lines items .code) : outline (Bytes.unlines lines) = items := by
  have hread := h []
  rw [List.append_nil] at hread
  rw [outline, hread]
  exact List.append_nil items

theorem Reads.line (h : 0x0A ∉ l) : Reads scope [l] (readLine scope l).1 (readLine scope l).2 := by
  intro rest
  have hline : Bytes.unlines [l] ++ rest = l ++ 0x0A :: rest := by simp [Bytes.unlines]
  rw [hline, Bytes.splitOn_append h]
  rfl

theorem Reads.flatMap {α : Type} {xs : List α} {f : α → List Bytes} {g : α → List Item}
    (h : ∀ x ∈ xs, Reads scope (f x) (g x) scope) : Reads scope (xs.flatMap f) (xs.flatMap g) scope := by
  induction xs with
  | nil => exact .nil scope
  | cons x xs ih =>
    obtain ⟨hx, hxs⟩ := List.forall_mem_cons.1 h
    exact hx.append (ih hxs)

/-- Every line after the first is indented. -/
def tabbed : Bytes → Bool
  | [] => true
  | b :: bs => (b != 0x0A || bs.head? == some 0x09) && tabbed bs

theorem tabbed_append {a b : Bytes} (ha : tabbed a = true) (hb : tabbed b = true) : tabbed (a ++ b) = true := by
  induction a with
  | nil => exact hb
  | cons c a ih =>
    simp only [tabbed, Bool.and_eq_true, Bool.or_eq_true, bne_iff_ne, beq_iff_eq] at ha
    simp only [List.cons_append, tabbed, Bool.and_eq_true, Bool.or_eq_true, bne_iff_ne, beq_iff_eq]
    refine ⟨ha.1.imp_right fun hhead => ?_, ih ha.2⟩
    cases a with
    | nil => cases hhead
    | cons d a => exact hhead

theorem tabbed_of_not_mem {a : Bytes} (h : 0x0A ∉ a) : tabbed a = true := by
  induction a with
  | nil => rfl
  | cons b a ih =>
    obtain ⟨hb, ha⟩ := not_or.1 (mt List.mem_cons.2 h)
    simp [tabbed, ih ha, Ne.symm hb]

theorem readLines_tabbed {p : Bytes} (rest : Bytes) (h : tabbed l = true) (hhead : (p ++ l).head? = some 0x09)
    (hp : 0x0A ∉ p) :
    readLines .code (Bytes.splitOn 0x0A (p ++ (l ++ 0x0A :: rest))) = readLines .code (Bytes.splitOn 0x0A rest) := by
  have hskip : ∀ p : Bytes, p.head? = some 0x09 → ∀ ls, readLines .code (p :: ls) = readLines .code ls := by
    intro p hp ls
    rw [readLines, readLine, if_pos hp]
    rfl
  induction l generalizing p with
  | nil =>
    rw [List.append_nil] at hhead
    rw [List.nil_append, Bytes.splitOn_append hp, hskip p hhead]
  | cons b l ih =>
    simp only [tabbed, Bool.and_eq_true, Bool.or_eq_true, bne_iff_ne, beq_iff_eq] at h
    by_cases hb : b = 0x0A
    · subst hb
      have hfirst : p.head? = some 0x09 := by
        cases p with
        | nil => cases hhead
        | cons c p => exact hhead
      rw [List.cons_append, Bytes.splitOn_append hp, hskip p hfirst]
      exact ih (p := []) h.2 (h.1.resolve_left fun h => h rfl) List.not_mem_nil
    · have hstep := ih (p := p ++ [b]) h.2 (by rwa [List.append_assoc]) (by simp [hp, Ne.symm hb])
      rwa [List.append_assoc] at hstep

theorem Reads.indented (h : tabbed l = true) : Reads .code [0x09 :: l] [] .code := by
  intro rest
  have hline : Bytes.unlines [0x09 :: l] ++ rest = [0x09] ++ (l ++ 0x0A :: rest) := by simp [Bytes.unlines]
  rw [hline, readLines_tabbed rest h rfl (by decide), List.nil_append]

/-! ### Forms of lines -/

/-- Letters, digits and underscores only. -/
def IsWord (w : Bytes) : Prop := ∀ b ∈ w, Token.isWord b = true

instance : DecidablePred IsWord := fun w => decidable_of_iff (w.all Token.isWord = true) List.all_eq_true

variable {w name type lead rest : Bytes}

theorem firstWord_append (h : IsWord w) (hrest : ∀ b ∈ rest.head?, Token.isWord b = false) :
    firstWord (w ++ rest) = w := Token.takeWhile_span h hrest

theorem lastWord_append (h : IsWord w) (hlead : ∀ b ∈ lead.getLast?, Token.isWord b = false) :
    lastWord (lead ++ w) = w := by
  have hspan : (w.reverse ++ lead.reverse).takeWhile Token.isWord = w.reverse :=
    Token.takeWhile_span (fun b hb => h b (List.mem_reverse.1 hb)) (by rwa [List.head?_reverse])
  rw [lastWord, List.reverse_append, hspan, List.reverse_reverse]

theorem readLine_type (h : IsWord name) (hrest : ∀ b ∈ rest.head?, Token.isWord b = false) :
    readLine scope (Bytes.ofString "type " ++ (name ++ rest)) =
      ([.package name], if rest = " struct \x7b" then .fields name else .code) := by
  have hdrop : ∀ r : Bytes, (Bytes.ofString "type " ++ r).drop 5 = r := fun r => rfl
  rw [readLine, if_neg (by exact fun h => by cases h), if_neg (by exact fun h => by cases h), if_pos (by exact rfl)]
  simp only [hdrop, firstWord_append h hrest, ← List.drop_drop, List.drop_left]

theorem readLine_struct (h : IsWord name) :
    readLine scope (Bytes.ofString "type " ++ (name ++ " struct \x7b")) =
      ([.package name], .fields name) := by
  rw [readLine_type h (by rintro b ⟨⟩; decide), if_pos rfl]

theorem readLine_alias (h : IsWord name) (hrest : ∀ b ∈ rest.head?, b ≠ 0x73) :
    readLine scope (Bytes.ofString "type " ++ (name ++ 0x20 :: rest)) = ([.package name], .code) := by
  have hother : (0x20 :: rest : Bytes) ≠ " struct \x7b" := by
    intro heq
    exact hrest 0x73 (by rw [(List.cons.inj heq).2]; rfl) rfl
  rw [readLine_type h (by rintro b ⟨⟩; decide), if_neg hother]

theorem readLine_method (htype : IsWord type) (hname : IsWord name) (hlead : lead.all (· != 0x29) = true)
    (hend : lead.getLast?.all (fun b => !Token.isWord b) = true) :
    readLine scope (Bytes.ofString "func (" ++ (lead ++ type ++ (Bytes.ofString ") " ++ (name ++ 0x28 :: rest)))) =
      ([.member type name], .code) := by
  have htype' : ∀ b ∈ type, (b != 0x29) = true := by
    intro b hb
    refine bne_iff_ne.2 fun h => ?_
    cases (h ▸ htype b hb :)
  have hreceiver : (lead ++ type ++ (Bytes.ofString ") " ++ (name ++ 0x28 :: rest))).takeWhile (· != 0x29) =
      lead ++ type :=
    Token.takeWhile_span (List.forall_mem_append.2 ⟨List.all_eq_true.1 hlead, htype'⟩) (by rintro b ⟨⟩; rfl)
  have hend : ∀ b ∈ lead.getLast?, Token.isWord b = false := by
    intro b hb
    rw [Option.mem_def.1 hb] at hend
    simpa using hend
  have hword : firstWord (name ++ 0x28 :: rest) = name := firstWord_append hname (by rintro b ⟨⟩; decide)
  have hdrop : ∀ r : Bytes, (Bytes.ofString "func (" ++ r).drop 6 = r := fun r => rfl
  have hclose : ∀ r : Bytes, (Bytes.ofString ") " ++ r).drop 2 = r := fun r => rfl
  rw [readLine, if_neg (by exact fun h => by cases h), if_neg (by exact fun h => by cases h),
    if_neg (by exact fun h => by cases h), if_pos (by exact rfl)]
  simp only [hdrop, hreceiver, ← List.drop_drop, List.drop_left, hclose, hword, lastWord_append htype hend]

theorem readLine_function (h : IsWord name) (hne : name ≠ []) :
    readLine scope (Bytes.ofString "func " ++ (name ++ 0x28 :: rest)) = ([.package name], .code) := by
  have hword : firstWord (name ++ 0x28 :: rest) = name := firstWord_append h (by rintro b ⟨⟩; decide)
  obtain ⟨b, name, rfl⟩ := List.exists_cons_of_ne_nil hne
  have hopen : (Bytes.ofString "func (").isPrefixOf (Bytes.ofString "func " ++ (b :: name ++ 0x28 :: rest)) ≠ true := by
    intro hpre
    have hpre : Bytes.ofString "func " ++ [0x28] <+: Bytes.ofString "func " ++ (b :: name ++ 0x28 :: rest) :=
      List.isPrefixOf_iff_prefix.1 hpre
    rw [List.prefix_append_right_inj, List.cons_append, List.cons_prefix_cons] at hpre
    cases (hpre.1 ▸ h b List.mem_cons_self :)
  rw [readLine, if_neg (by exact fun h => by cases h), if_neg (by exact fun h => by cases h),
    if_neg (by exact fun h => by cases h), if_neg hopen, if_pos (by exact rfl)]
  exact congrArg (fun w => ([Item.package w], Scope.code)) hword

/-! ### Identifiers -/

theorem IsWord.append {v : Bytes} (hw : IsWord w) (hv : IsWord v) : IsWord (w ++ v) := List.forall_mem_append.2 ⟨hw, hv⟩

theorem IsWord.not_mem {b : UInt8} (h : IsWord w) (hb : Token.isWord b = false) : b ∉ w := fun hmem => by
  rw [h b hmem] at hb
  cases hb

/-- A text that a lower-case letter does not stand first in. -/
def IsExported (w : Bytes) : Prop := ∀ b ∈ w.head?, (97 ≤ b && b ≤ 122) = false

end Generate

/-- What is assumed of the libraries that make identifiers: an ASCII word stays one, and gets a capital if it begins with
a small letter. -/
class Libraries.Titled [Libraries] : Prop where
  compose : Libraries.ComposesPlain
  word : ∀ w, Generate.IsWord w → 0x5F ∉ w → Generate.IsWord (Libraries.title w)
  exported : ∀ w, Generate.IsWord w → 0x5F ∉ w → Generate.IsExported (Libraries.title w)

namespace Generate

theorem IsWord.ascii (h : IsWord w) : ∀ b ∈ w, b < 0x80 :=
  fun b hb => UInt8.lt_iff_toNat_lt.2 (Token.isWord_byte (h b hb)).1

section Titled

variable [Libraries] [Libraries.Titled]

/-- The words of a name, between its underscores. -/
theorem isWord_of_mem_words (h : IsWord w) {p : Bytes}
    (hp : p ∈ (Bytes.splitOn 0x5F (Libraries.compose w)).filter fun w => !w.isEmpty) : IsWord p ∧ 0x5F ∉ p := by
  rw [Libraries.Titled.compose w h.ascii] at hp
  obtain ⟨hunder, hmem⟩ := Bytes.not_mem_of_mem_splitOn p (List.mem_of_mem_filter hp)
  exact ⟨fun c hc => h c (hmem c hc), hunder⟩

theorem isWord_exportedName (h : IsWord w) : IsWord (exportedName w) := by
  rw [exportedName]
  split_ifs
  · exact (by decide : IsWord (Bytes.ofString "X"))
  · intro b hb
    obtain ⟨p, hp, hbp⟩ := List.mem_flatMap.1 hb
    obtain ⟨hword, hunder⟩ := isWord_of_mem_words h hp
    exact Libraries.Titled.word p hword hunder b hbp

theorem isWord_unionName {path : List Bytes} (h : ∀ n ∈ path, IsWord n) : IsWord (unionName path) := by
  intro b hb
  obtain ⟨n, hn, hbn⟩ := List.mem_flatMap.1 hb
  exact isWord_exportedName (h n hn) b hbn

theorem isExported_exportedName (h : IsWord w) : IsExported (exportedName w) := by
  have hjoined : ∀ ps : List Bytes, (∀ p ∈ ps, IsWord p ∧ 0x5F ∉ p) → IsExported (ps.flatMap Libraries.title) := by
    intro ps hps
    induction ps with
    | nil => exact fun b hb => by cases hb
    | cons p ps ih =>
      obtain ⟨⟨hword, hunder⟩, hrest⟩ := List.forall_mem_cons.1 hps
      rw [List.flatMap_cons]
      cases htitle : Libraries.title p with
      | nil => exact ih hrest
      | cons c cs => exact fun b hb => Libraries.Titled.exported p hword hunder b (by rw [htitle]; exact hb)
  rw [exportedName]
  split_ifs
  · rintro b ⟨⟩
    decide
  · exact hjoined _ fun p hp => isWord_of_mem_words h hp

end Titled

end Generate

end Flatwire
