import Flatwire.Proofs.Outline

/-! What the source of each type of a schema declares. Names are words, so that no text in the source but the body of a
function goes over a line end, and such a body is indented. -/

namespace Flatwire

variable {w : Bytes}

namespace Text

theorem quote_plain (h : ∀ b ∈ w, (Token.isWord b || b == 0x28) = true) : quote w = "\"" ++ w ++ "\"" := by
  have hbyte : ∀ n : Fin 256, (Token.isWord (UInt8.ofNat n) || UInt8.ofNat n == 0x28) = true →
      String.utf8EncodeChar (Char.ofNat n) = [UInt8.ofNat n] ∧ quoteChar (Char.ofNat n) = [UInt8.ofNat n] := by
    decide +kernel
  have hunits : (Utf8.units w).flatMap quoteUnit = w := by
    induction w with
    | nil => rfl
    | cons b w ih =>
      obtain ⟨hb, hw⟩ := List.forall_mem_cons.1 h
      have hspec := hbyte ⟨b.toNat, b.toNat_lt⟩
      rw [UInt8.ofNat_toNat] at hspec
      obtain ⟨hencode, hquote⟩ := hspec hb
      have hcons : b :: w = String.utf8EncodeChar (Char.ofNat b.toNat) ++ w := by
        rw [hencode]
        rfl
      rw [hcons, Utf8.units_utf8EncodeChar, List.flatMap_cons, ih hw, quoteUnit, hquote, hencode]
  rw [quote, hunits]

end Text

namespace Generate

variable {s : Schema} {id : TypeId} {fuel : Nat} {rows : List (Bytes × Bytes)}

theorem isWord_of_isName (h : Token.isName w = true) : IsWord w := Token.isWord_of_isName h

theorem IsWord.line (h : IsWord w) : 0x0A ∉ w := h.not_mem (by decide)

theorem line_decimal (n : Nat) : 0x0A ∉ Bytes.decimal n := fun h => by
  cases Bytes.isDecimal_of_mem _ h

theorem line_widthBits (width : UInt8) : 0x0A ∉ widthBits width := line_decimal _

theorem line_primitiveSuffix (k : PrimitiveKind) : 0x0A ∉ primitiveSuffix k := by
  cases k <;> decide +kernel

theorem line_primitiveType (k : PrimitiveKind) : 0x0A ∉ primitiveType k := by
  cases k <;> decide +kernel

theorem line_quote (h : ∀ b ∈ w, (Token.isWord b || b == 0x28) = true) : 0x0A ∉ Text.quote w := by
  have hw : 0x0A ∉ w := fun hmem => by cases h _ hmem
  rw [Text.quote_plain h]
  simp +decide [hw]

/-- Names of a schema, with the identifiers that are made from them. -/
structure Spoken (s : Schema) : Prop where
  enum : ∀ id e, s.type? id = some (.enum e) → IsWord e.name ∧ ∀ v ∈ e.variants, IsWord v.name
  sequence : ∀ id q, s.type? id = some (.sequence q) → IsWord q.name ∧ ∀ f ∈ q.fields, IsWord f.name
  union : ∀ id o, s.type? id = some (.oneOf o) → (∀ n ∈ o.path, IsWord n) ∧ ∀ v ∈ o.variants, IsWord v.name

theorem spoken_of_legible (h : s.Legible) : Spoken s := by
  have hmembers : ∀ id t, s.type? id = some t → ∀ n ∈ t.memberNames, IsWord n := fun id t ht n hn =>
    isWord_of_isName (h.members id t ht n hn)
  constructor
  · intro id e ht
    refine ⟨isWord_of_isName (h.names id e.name (by rw [Schema.declName?, ht]; rfl)).1, fun v hv => ?_⟩
    exact hmembers id _ ht v.name (List.mem_map_of_mem hv)
  · intro id q ht
    refine ⟨isWord_of_isName (h.names id q.name (by rw [Schema.declName?, ht]; rfl)).1, fun f hf => ?_⟩
    exact hmembers id _ ht f.name (List.mem_map_of_mem hf)
  · intro id o ht
    refine ⟨fun n hn => isWord_of_isName ((h.paths id o ht).2 n hn), fun v hv => ?_⟩
    exact hmembers id _ ht v.name (List.mem_map_of_mem hv)

section Types

variable [Libraries] [Libraries.Titled] (h : Spoken s)

include h

theorem line_writerType : 0x0A ∉ writerType s fuel id := by
  induction fuel generalizing id with
  | zero => exact List.not_mem_nil
  | succ fuel ih =>
    rw [writerType]
    split
    · simp +decide [line_primitiveSuffix]
    · decide
    · next e ht => exact (isWord_exportedName (h.enum _ e ht).1).line
    · next q ht => simp +decide [(isWord_exportedName (h.sequence _ q ht).1).line]
    · next o ht => simp +decide [(isWord_unionName (h.union _ o ht).1).line]
    · split_ifs
      · decide
      · decide
      · simp +decide [ih]
    · exact List.not_mem_nil

theorem line_readerType : 0x0A ∉ readerType s fuel id := by
  induction fuel generalizing id with
  | zero => exact List.not_mem_nil
  | succ fuel ih =>
    rw [readerType]
    split
    · exact line_primitiveType _
    · decide
    · next e ht => exact (isWord_exportedName (h.enum _ e ht).1).line
    · next q ht => simp +decide [(isWord_exportedName (h.sequence _ q ht).1).line]
    · next o ht => simp +decide [(isWord_unionName (h.union _ o ht).1).line]
    · simp +decide [ih]
    · exact List.not_mem_nil

theorem line_fieldType : 0x0A ∉ fieldType s id := by
  rw [fieldType]
  split
  · exact line_primitiveType _
  · decide
  · next q ht => simp +decide [(isWord_exportedName (h.sequence _ q ht).1).line]
  · exact line_writerType h

end Types

theorem line_tight {a : Address} (h : 0x0A ∉ a.base) : 0x0A ∉ a.tight := by
  rw [Address.tight]
  split_ifs
  · exact h
  · simp +decide [h, line_decimal]

theorem line_spaced {a : Address} (h : 0x0A ∉ a.base) : 0x0A ∉ a.spaced := by
  rw [Address.spaced]
  split_ifs
  · exact h
  · simp +decide [h, line_decimal]

theorem tabbed_tabs {a l : Bytes} {n : Nat} (ha : tabbed a = true) (hl : tabbed (l ++ [0x09]) = true) (hn : 0 < n) :
    tabbed (a ++ l ++ tabs n) = true := by
  obtain ⟨k, rfl⟩ : ∃ k, n = k + 1 := ⟨n - 1, (Nat.sub_add_cancel hn).symm⟩
  have hsplit : a ++ l ++ tabs (k + 1) = a ++ ((l ++ [0x09]) ++ tabs k) := by simp [tabs, List.replicate_succ]
  have hrest : 0x0A ∉ tabs k := fun hmem => by cases List.eq_of_mem_replicate hmem
  rw [hsplit]
  exact tabbed_append ha (tabbed_append hl (tabbed_of_not_mem hrest))

theorem tabbed_readExpr [Libraries] [Libraries.Titled] (h : Spoken s) {buf : Bytes} {addr : Address} {depth : Nat}
    (hbuf : 0x0A ∉ buf) (haddr : 0x0A ∉ addr.base) (hdepth : 0 < depth) : tabbed (readExpr s fuel id buf addr depth) = true := by
  induction fuel generalizing id buf addr depth with
  | zero => rfl
  | succ fuel ih =>
    have htight := line_tight haddr
    have hspaced := line_spaced haddr
    rw [readExpr]
    split
    · apply tabbed_of_not_mem
      simp +decide [line_primitiveSuffix, hbuf, htight]
    · apply tabbed_of_not_mem
      simp +decide [hbuf, htight]
    · next e ht =>
      apply tabbed_of_not_mem
      simp +decide [(isWord_exportedName (h.enum _ e ht).1).line, widthSuffix, line_widthBits, hbuf, htight]
    · next q ht =>
      apply tabbed_of_not_mem
      simp +decide [(isWord_exportedName (h.sequence _ q ht).1).line, hbuf, hspaced]
    · next o ht =>
      apply tabbed_of_not_mem
      simp +decide [(isWord_unionName (h.union _ o ht).1).line, hbuf, hspaced]
    · next elem _ =>
      refine tabbed_append (tabbed_append (tabbed_of_not_mem ?_) ?_) (by decide)
      · simp +decide [hbuf, htight, line_decimal]
      · split
        · apply tabbed_of_not_mem
          simp +decide [line_primitiveSuffix]
        · decide
        · have hbody : tabbed (readExpr s fuel elem "buf" ⟨"addr", 0⟩ (depth + 1)) = true :=
            ih (by decide) (by decide) (Nat.succ_pos depth)
          have hhead : tabbed (Bytes.ofString "func(buf []byte, addr int) " ++ readerType s (listDepth s) elem) =
              true := by
            apply tabbed_of_not_mem
            simp +decide [line_readerType h]
          have hopen := tabbed_tabs hhead (l := " \x7b\n") (by decide) (Nat.succ_pos depth)
          have hreturn := tabbed_append (tabbed_append hopen (b := "return ") (by decide)) hbody
          have hclose := tabbed_tabs hreturn (l := "\n") (by decide) hdepth
          exact tabbed_append hclose (by decide)
    · rfl

/-! ### Parts of source -/

variable {line name type rest : Bytes} {lines lines' : List Bytes} {item : Item} {items : List Item}
  {scope scope' scope'' : Scope}

theorem Reads.of_readLine (hline : 0x0A ∉ line) (h : readLine scope line = (items, scope')) :
    Reads scope [line] items scope' := by
  have hread : Reads scope [line] (readLine scope line).1 (readLine scope line).2 := Reads.line hline
  rwa [h] at hread

theorem Reads.declare (h : Reads scope [line] [item] scope') (hrest : Reads scope' lines items scope'') :
    Reads scope (line :: lines) (item :: items) scope'' := h.append hrest

theorem Reads.declarePart (h : Reads scope lines' [item] scope') (hrest : Reads scope' lines items scope'') :
    Reads scope (lines' ++ lines) (item :: items) scope'' := h.append hrest

theorem Reads.pass (h : Reads scope [line] [] scope') (hrest : Reads scope' lines items scope'') :
    Reads scope (line :: lines) items scope'' := h.append hrest

theorem Reads.passPart (h : Reads scope lines' [] scope') (hrest : Reads scope' lines items scope'') :
    Reads scope (lines' ++ lines) items scope'' := h.append hrest

theorem Reads.flatMap_nil {α : Type} {xs : List α} {f : α → List Bytes} (h : ∀ x ∈ xs, Reads scope (f x) [] scope) :
    Reads scope (xs.flatMap f) [] scope := by
  have hread := Reads.flatMap (g := fun _ => []) h
  rwa [List.flatMap_eq_nil_iff.2 fun _ _ => rfl] at hread

theorem Reads.map {α : Type} {xs : List α} {f : α → List Bytes} {g : α → Item}
    (h : ∀ x ∈ xs, Reads scope (f x) [g x] scope) : Reads scope (xs.flatMap f) (xs.map g) scope :=
  List.map_eq_flatMap ▸ .flatMap h

theorem reads_blank (scope : Scope) : Reads scope [""] [] .code := .of_readLine (by decide) rfl

theorem reads_brace (scope : Scope) : Reads scope ["\x7d"] [] .code := .of_readLine (by decide) rfl

theorem reads_comment (hhead : line.head? = some 0x2F) (h : 0x0A ∉ line) : Reads scope [line] [] .code := by
  obtain ⟨line, rfl⟩ : ∃ r, line = 0x2F :: r := List.head?_eq_some_iff.1 hhead
  refine .of_readLine h ?_
  rw [readLine, if_neg (by exact fun h => by cases h), if_neg (by exact fun h => by cases h),
    if_neg (by exact fun h => by cases h), if_neg (by exact fun h => by cases h), if_neg (by exact fun h => by cases h)]

theorem reads_tabbed (hhead : line.head? = some 0x09) (h : tabbed line = true) : Reads .code [line] [] .code := by
  obtain ⟨line, rfl⟩ : ∃ r, line = 0x09 :: r := List.head?_eq_some_iff.1 hhead
  rw [tabbed, Bool.and_eq_true] at h
  exact .indented h.2

theorem reads_indented (hhead : line.head? = some 0x09) (h : 0x0A ∉ line) : Reads .code [line] [] .code :=
  reads_tabbed hhead (tabbed_of_not_mem h)

theorem readLine_method_of_eq (lead : Bytes) (htype : IsWord type) (hname : IsWord name)
    (hlead : (lead.all (· != 0x29) && lead.getLast?.all fun b => !Token.isWord b) = true)
    (hline : line = "func (" ++ (lead ++ type ++ (") " ++ (name ++ 0x28 :: rest)))) :
    readLine scope line = ([.member type name], .code) := by
  rw [Bool.and_eq_true] at hlead
  exact hline ▸ readLine_method htype hname hlead.1 hlead.2

/-- The line that begins a method. What comes before its type's name in parentheses is given. -/
theorem reads_method (lead : Bytes) (htype : IsWord type) (hname : IsWord name) (h : 0x0A ∉ line)
    (hlead : (lead.all (· != 0x29) && lead.getLast?.all fun b => !Token.isWord b) = true)
    (hline : line = "func (" ++ (lead ++ type ++ (") " ++ (name ++ 0x28 :: rest)))) :
    Reads scope [line] [.member type name] .code := .of_readLine h (readLine_method_of_eq lead htype hname hlead hline)

theorem reads_function (hname : IsWord name) (hne : name ≠ []) (h : 0x0A ∉ line)
    (hline : line = "func " ++ (name ++ 0x28 :: rest)) : Reads scope [line] [.package name] .code :=
  .of_readLine h (hline ▸ readLine_function hname hne)

theorem reads_alias (hname : IsWord name) (h : 0x0A ∉ line) (hline : line = "type " ++ name ++ " " ++ rest)
    (hrest : ∀ b ∈ rest.head?, b ≠ 0x73) : Reads scope [line] [.package name] .code := by
  refine .of_readLine h ?_
  rw [hline, List.append_assoc, List.append_assoc]
  exact readLine_alias hname hrest

theorem reads_shortFunction {header statement : Bytes} (hheader : 0x0A ∉ header) (hstatement : 0x0A ∉ statement)
    (h : ∀ r, readLine .code (header ++ r) = ([item], .code)) :
    Reads .code (shortFunction header statement) [item] .code := by
  rw [shortFunction]
  split_ifs
  · refine .of_readLine (by simp +decide [hheader, hstatement]) ?_
    rw [List.append_assoc, List.append_assoc]
    exact h _
  · have hopen : Reads .code [header ++ " \x7b"] [item] .code := .of_readLine (by simp +decide [hheader]) (h _)
    exact hopen.declare (.pass (reads_indented rfl (by simp +decide [hstatement])) (reads_brace .code))

theorem reads_columns {rows : List (Bytes × Bytes)} {declare : Bytes → Item}
    (hscope : ∀ name k rest, IsWord name →
      readIndented scope (name ++ List.replicate (k + 1) 0x20 ++ rest) = [declare name])
    (hrows : ∀ r ∈ rows, IsWord r.1 ∧ 0x0A ∉ r.2) :
    Reads scope (columns rows) (rows.map fun r => declare r.1) scope := by
  rw [columns]
  generalize rows.foldl (fun w r => max w r.1.length) 0 = width
  induction rows with
  | nil => exact .nil scope
  | cons r rows ih =>
    obtain ⟨name, rest⟩ := r
    obtain ⟨⟨hname, hrest⟩, hrows⟩ := List.forall_mem_cons.1 hrows
    have hread : readLine scope (0x09 :: name ++ List.replicate (width - name.length + 1) 0x20 ++ rest) =
        ([declare name], scope) := by
      rw [readLine, if_pos (by exact rfl)]
      exact Prod.ext (hscope name _ rest hname) rfl
    exact Reads.append (.of_readLine (by simp +decide [hname.line, hrest]) hread) (ih hrows)

theorem reads_constBlock (hrows : ∀ r ∈ rows, IsWord r.1 ∧ 0x0A ∉ r.2) :
    Reads .code (constBlock rows) (rows.map fun r => .package r.1) .code := by
  rw [constBlock]
  split_ifs with hempty
  · rw [List.isEmpty_iff.1 hempty]
    exact .of_readLine (by decide) rfl
  · have hopen : Reads .code ["const ("] [] .constants := .of_readLine (by decide) rfl
    have hclose : Reads .constants [")"] [] .code := .of_readLine (by decide) rfl
    have hcolumns : Reads .constants (columns rows) (rows.map fun r => .package r.1) .constants := by
      refine reads_columns (fun name k rest hname => ?_) hrows
      rw [readIndented, List.append_assoc, firstWord_append hname (by simp [List.replicate_succ]; decide)]
    have hall := hopen.append (hcolumns.append hclose)
    simpa [block] using hall

theorem reads_structLine (hname : IsWord name) :
    Reads .code ["type " ++ name ++ " struct \x7b"] [.package name] (.fields name) := by
  refine .of_readLine (by simp +decide [hname.line]) ?_
  rw [List.append_assoc]
  exact readLine_struct hname

theorem reads_structType (hname : IsWord name) (hrows : ∀ r ∈ rows, IsWord r.1 ∧ 0x0A ∉ r.2) :
    Reads .code (structType name rows) (.package name :: rows.map fun r => .member name r.1) .code := by
  have hcolumns : Reads (.fields name) (columns rows) (rows.map fun r => .member name r.1) (.fields name) := by
    refine reads_columns (fun word k rest hword => ?_) hrows
    have hspan : (word ++ (List.replicate (k + 1) 0x20 ++ rest)).takeWhile (· != 0x20) = word :=
      Token.takeWhile_span (fun b hb => bne_iff_ne.2 fun h => hword.not_mem (by decide) (h ▸ hb))
        (by simp [List.replicate_succ])
    have hlast : lastWord ([] ++ word) = word := lastWord_append hword (by simp)
    rw [readIndented, List.append_assoc, hspan]
    exact congrArg (fun w => [Item.member name w]) hlast
  have hall := (reads_structLine hname).append (hcolumns.append (reads_brace (.fields name)))
  simpa [structType, block] using hall

/-! ### Enums -/

theorem reads_writeNested {value : Bytes} {dest : Address} (hvalue : 0x0A ∉ value) (hdest : 0x0A ∉ dest.tight) :
    Reads .code (writeNested value dest) [] .code := by
  refine .pass (reads_indented rfl (by simp +decide [hvalue, hdest])) (.pass (reads_indented rfl (by decide)) ?_)
  exact .pass (reads_indented rfl (by decide)) (reads_indented rfl (by decide))

theorem reads_readerType (hname : IsWord name) : Reads .code (structType name readerFields)
    [.package name, .member name "buf", .member name "addr"] .code :=
  reads_structType hname (by decide)

theorem reads_addr (hname : IsWord name) :
    Reads .code (shortFunction ("func (r " ++ name ++ ") Addr() int") "return r.addr") [.member name "Addr"] .code :=
  reads_shortFunction (by simp +decide [hname.line]) (by decide) fun r =>
    readLine_method_of_eq "r " hname (by decide) (by decide) (by simp only [List.append_assoc]; rfl)

section Sources

variable [Libraries] [Libraries.Titled]

theorem isWord_constant {v : Bytes} (htype : IsWord type) (hv : IsWord v) :
    IsWord (type ++ "_" ++ exportedName v) :=
  (htype.append (by decide)).append (isWord_exportedName hv)

theorem reads_constants {α : Type} {xs : List α} {label rest : α → Bytes} (htype : IsWord type)
    (hlabel : ∀ x ∈ xs, IsWord (label x)) (hrest : ∀ x ∈ xs, 0x0A ∉ rest x) :
    Reads .code (constBlock (xs.map fun x => (type ++ "_" ++ exportedName (label x), rest x)))
      (xs.map fun x => .package (type ++ "_" ++ exportedName (label x))) .code := by
  have hrows : ∀ r ∈ xs.map fun x => (type ++ "_" ++ exportedName (label x), rest x),
      IsWord r.1 ∧ 0x0A ∉ r.2 := by
    rw [List.forall_mem_map]
    exact fun x hx => ⟨isWord_constant htype (hlabel x hx), hrest x hx⟩
  have hblock := reads_constBlock hrows
  rwa [List.map_map] at hblock

theorem reads_enumSource {e : EnumType} (hname : IsWord e.name) (hvariants : ∀ v ∈ e.variants, IsWord v.name) :
    Reads .code (enumSource e)
      (.package (exportedName e.name) ::
        (e.variants.map fun v => .package (exportedName e.name ++ "_" ++ exportedName v.name)) ++
        [.member (exportedName e.name) "StaticSize", .member (exportedName e.name) "WriteComponent",
          .member (exportedName e.name) "String"]) .code := by
  have hword := isWord_exportedName hname
  have hquote : 0x0A ∉ Text.quote (exportedName e.name ++ "(") := by
    apply line_quote
    rw [List.forall_mem_append]
    exact ⟨fun b hb => by rw [hword b hb]; rfl, List.all_eq_true.1 (by decide)⟩
  simp only [enumSource, block, List.flatten_cons, List.flatten_nil, List.append_nil, List.cons_append, List.nil_append]
  generalize exportedName e.name = name at *
  refine .pass (reads_blank _) ?_
  refine .declare (reads_alias hword (by simp +decide [hword.line, widthType, line_widthBits]) rfl ?_) ?_
  · rintro b ⟨⟩
    decide
  refine .pass (reads_blank _) (.append (reads_constants hword hvariants fun v _ => ?_) (.pass (reads_blank _) ?_))
  · simp +decide [hword.line, line_decimal]
  refine .declarePart (reads_shortFunction (by simp +decide [hword.line]) (by simp +decide [line_decimal]) fun r =>
    readLine_method_of_eq [] hword (by decide) (by decide) (by simp only [List.append_assoc]; rfl)) ?_
  refine .pass (reads_blank _) ?_
  refine .declare (reads_method "v " hword (by decide) (by simp +decide [hword.line]) (by decide)
    (by simp only [List.append_assoc]; rfl)) ?_
  refine .pass (reads_indented rfl (by simp +decide [widthSuffix, widthType, line_widthBits])) ?_
  refine .pass (reads_indented rfl (by decide)) (.pass (reads_brace _) (.pass (reads_blank _) ?_))
  refine .declare (reads_method "v " hword (by decide) (by simp +decide [hword.line]) (by decide)
    (by simp only [List.append_assoc]; rfl)) (.pass (reads_indented rfl (by decide)) ?_)
  refine .passPart (.flatMap_nil fun v hv => ?_) ?_
  · have hlabel := (isWord_exportedName (hvariants v hv)).line
    have hquote : 0x0A ∉ Text.quote v.name := line_quote fun b hb => by rw [hvariants v hv b hb]; rfl
    refine .pass (reads_indented rfl ?_) (reads_indented rfl (by simp +decide [hquote]))
    simp +decide [hword.line, hlabel]
  exact .pass (reads_indented rfl (by decide)) (.pass (reads_indented rfl (by simp +decide [hquote])) (reads_brace _))

/-! ### Sequences -/

theorem reads_writeStatements {fields : List Field} (hfields : ∀ f ∈ fields, IsWord f.name) (declared : Bool) :
    Reads .code (writeStatements s declared fields) [] .code := by
  induction fields generalizing declared with
  | nil => exact .nil .code
  | cons f fs ih =>
    obtain ⟨hf, hfs⟩ := List.forall_mem_cons.1 hfields
    have hvalue := (isWord_exportedName hf).line
    have hdest : 0x0A ∉ (⟨"dest", f.offset.toNat⟩ : Address).tight :=
      line_tight (show 0x0A ∉ Bytes.ofString "dest" by decide)
    have hnested : ∀ value : Bytes, 0x0A ∉ value → Reads .code (block [if declared then [] else ["\tvar err error"],
        writeNested value ⟨"dest", f.offset.toNat⟩, writeStatements s true fs]) [] .code := by
      intro value hvalue
      simp only [block, List.flatten_cons, List.flatten_nil, List.append_nil]
      refine .passPart ?_ (.passPart (reads_writeNested hvalue hdest) (ih hfs true))
      split_ifs
      · exact .nil .code
      · exact reads_indented rfl (by decide)
    rw [writeStatements]
    split
    · exact .pass (reads_indented rfl (by simp +decide [line_primitiveSuffix, hdest, hvalue])) (ih hfs declared)
    · refine .pass (reads_indented rfl ?_) (ih hfs declared)
      simp +decide [widthSuffix, widthType, line_widthBits, hdest, hvalue]
    · exact hnested _ (by simp +decide [hvalue])
    · exact hnested _ (by simp +decide [hvalue])

theorem reads_sequenceSource (h : Spoken s) {q : SequenceType} (hname : IsWord q.name)
    (hfields : ∀ f ∈ q.fields, IsWord f.name) :
    let writer := exportedName q.name ++ Bytes.ofString "Writer"
    let reader := exportedName q.name ++ Bytes.ofString "Reader"
    Reads .code (sequenceSource s q)
      (.package writer :: ((q.fields.map fun f => .member writer (exportedName f.name)) ++
        ([.member writer "StaticSize", .member writer "WriteComponent", .member writer "Write", .package reader,
          .member reader "buf", .member reader "addr", .package (Bytes.ofString "New" ++ reader),
          .member reader "Addr"] ++
        q.fields.map fun f => .member reader (exportedName f.name)))) .code := by
  have hwriter : IsWord (exportedName q.name ++ Bytes.ofString "Writer") :=
    (isWord_exportedName hname).append (by decide)
  have hreader : IsWord (exportedName q.name ++ Bytes.ofString "Reader") :=
    (isWord_exportedName hname).append (by decide)
  simp only [sequenceSource, block, List.flatten_cons, List.flatten_nil, List.append_nil, List.cons_append,
    List.nil_append]
  generalize exportedName q.name ++ Bytes.ofString "Writer" = writer at *
  generalize exportedName q.name ++ Bytes.ofString "Reader" = reader at *
  have hrows : ∀ r ∈ q.fields.map fun f => (exportedName f.name, fieldType s f.type), IsWord r.1 ∧ 0x0A ∉ r.2 := by
    rw [List.forall_mem_map]
    exact fun f hf => ⟨isWord_exportedName (hfields f hf), line_fieldType h⟩
  have hstruct := reads_structType hwriter hrows
  rw [List.map_map] at hstruct
  refine .pass (reads_blank _) (.append hstruct (.pass (reads_blank _) ?_))
  refine .declarePart (reads_shortFunction (by simp +decide [hwriter.line]) (by simp +decide [line_decimal]) fun r =>
    readLine_method_of_eq "*" hwriter (by decide) (by decide) (by simp only [List.append_assoc]; rfl)) ?_
  refine .pass (reads_blank _) ?_
  refine .declare (reads_method "w *" hwriter (by decide) (by simp +decide [hwriter.line]) (by decide)
    (by simp only [List.append_assoc]; rfl)) ?_
  refine .passPart (reads_writeStatements hfields false) (.pass (reads_indented rfl (by decide)) ?_)
  refine .pass (reads_brace _) (.pass (reads_blank _) (.pass (reads_comment rfl (by decide)) ?_))
  refine .declare (reads_method "w *" hwriter (by decide) (by simp +decide [hwriter.line]) (by decide)
    (by simp only [List.append_assoc]; rfl)) ?_
  refine .pass (reads_indented rfl (by decide)) (.pass (reads_brace _) (.pass (reads_blank _) ?_))
  refine .append (reads_readerType hreader) (.pass (reads_blank _) ?_)
  refine .pass (reads_comment rfl (by simp +decide [hreader.line, hname.line])) ?_
  refine .declare (reads_function (IsWord.append (by decide) hreader) (by simp +decide) (by simp +decide [hreader.line])
    (by simp only [List.append_assoc]; rfl)) ?_
  refine .pass (reads_indented rfl (by simp +decide [hreader.line, line_decimal])) ?_
  refine .pass (reads_brace _) (.pass (reads_blank _) (.declarePart (reads_addr hreader) (.map fun f hf => ?_)))
  have hf := isWord_exportedName (hfields f hf)
  refine .pass (reads_blank _) ?_
  refine .declare (reads_method "r " hreader hf (by simp +decide [hreader.line, hf.line, line_readerType h]) (by decide)
    (by simp only [List.append_assoc]; rfl)) (.pass (reads_tabbed rfl (tabbed_append (by decide) ?_)) (reads_brace _))
  exact tabbed_readExpr h (by decide) (show 0x0A ∉ Bytes.ofString "r.addr" by decide) Nat.one_pos

/-! ### Unions -/

theorem line_variantParameter (h : Spoken s) :
    0x0A ∉ (variantParameter s id).1 ∧ 0x0A ∉ (variantParameter s id).2 := by
  rw [variantParameter]
  split
  · exact ⟨line_primitiveType _, by simp +decide [line_primitiveSuffix]⟩
  · decide
  · exact ⟨line_writerType h, show 0x0A ∉ Bytes.ofString "v" by decide⟩

theorem reads_unionSource (h : Spoken s) {o : OneOfType} (hpath : ∀ n ∈ o.path, IsWord n)
    (hvariants : ∀ v ∈ o.variants, IsWord v.name) :
    let name := unionName o.path
    let writer := name ++ Bytes.ofString "Writer"
    let reader := name ++ Bytes.ofString "Reader"
    Reads .code (unionSource s o)
      ((o.variants.map fun v => .package (name ++ Bytes.ofString "_" ++ exportedName v.name)) ++
        ([.package writer, .member writer "OneOf"] ++
        ((o.variants.map fun v => .package (Bytes.ofString "New" ++ writer ++ exportedName v.name)) ++
        ([.package reader, .member reader "buf", .member reader "addr", .member reader "Addr", .member reader "Tag"] ++
        o.variants.map fun v => .member reader (Bytes.ofString "As" ++ exportedName v.name))))) .code := by
  have hname := isWord_unionName hpath
  have hwriter : IsWord (unionName o.path ++ Bytes.ofString "Writer") := hname.append (by decide)
  have hreader : IsWord (unionName o.path ++ Bytes.ofString "Reader") := hname.append (by decide)
  simp only [unionSource, block, List.flatten_cons, List.flatten_nil, List.append_nil, List.cons_append,
    List.nil_append]
  generalize unionName o.path ++ Bytes.ofString "Writer" = writer at *
  generalize unionName o.path ++ Bytes.ofString "Reader" = reader at *
  generalize unionName o.path = name at *
  refine .pass (reads_blank _) (.append (reads_constants hname hvariants fun v _ => ?_) (.pass (reads_blank _) ?_))
  · simp +decide [line_decimal]
  have hembedded : Reads (.fields writer) ["\tsimplebuffers.OneOf"] [.member writer "OneOf"] (.fields writer) :=
    .of_readLine (by decide) rfl
  refine .declare (reads_structLine hwriter) (hembedded.declare (.pass (reads_brace _) ?_))
  refine .append (.map fun v hv => ?_) ?_
  · have hv := isWord_exportedName (hvariants v hv)
    obtain ⟨hparameter, hvalue⟩ : 0x0A ∉ (variantParameter s v.type).1 ∧ 0x0A ∉ (variantParameter s v.type).2 :=
      line_variantParameter h
    refine .pass (reads_blank _) (.declare (reads_function ((IsWord.append (by decide) hwriter).append hv)
      (by simp +decide) (by simp +decide [hwriter.line, hv.line, hparameter]) (by simp only [List.append_assoc]; rfl)) ?_)
    exact .pass (reads_indented rfl (by simp +decide [hwriter.line, hname.line, hv.line, hvalue])) (reads_brace _)
  refine .pass (reads_blank _) (.append (reads_readerType hreader) (.pass (reads_blank _) ?_))
  refine .declarePart (reads_addr hreader) (.pass (reads_blank _) ?_)
  refine .declare (reads_method "r " hreader (by decide) (by simp +decide [hreader.line]) (by decide)
    (by simp only [List.append_assoc]; rfl)) (.pass (reads_indented rfl (by decide)) (.pass (reads_brace _) ?_))
  refine .map fun v hv => ?_
  have hlabel := hvariants v hv
  have hv := isWord_exportedName hlabel
  refine .pass (reads_blank _) (.pass (reads_comment rfl (by simp +decide [hv.line, hlabel.line])) ?_)
  refine .declare (reads_method "r " hreader (IsWord.append (by decide) hv)
    (by simp +decide [hreader.line, hv.line, line_readerType h]) (by decide) (by simp only [List.append_assoc]; rfl)) ?_
  refine .pass (reads_indented rfl (by decide)) (.pass (reads_indented rfl (by simp +decide [hname.line, hv.line])) ?_)
  refine .pass (reads_indented rfl (by decide)) (.pass (reads_indented rfl (by decide)) (.pass (reads_tabbed rfl ?_)
    (reads_brace _)))
  exact tabbed_append (tabbed_append (by decide) (tabbed_readExpr h (by decide) (by decide) Nat.one_pos)) (by decide)

end Sources

end Generate

end Flatwire
