import Mathlib.Tactic.SplitIfs
import Flatwire.Generate
import Flatwire.Proofs.AsciiText

/-! Package names. Every name is turned into one of two forms, and the names of these forms are turned into themselves;
so a package name can be told from other names by making one from it. -/

namespace Flatwire.Generate

variable {c : Char} {cs : List Char} {p : Bytes}

def isSmall (b : UInt8) : Bool := 0x61 ≤ b && b ≤ 0x7A

def isNumeral (b : UInt8) : Bool := 0x30 ≤ b && b ≤ 0x39

/-- A small letter, and then small letters and digits. -/
def isPlain : Bytes → Bool
  | [] => false
  | b :: bs => isSmall b && bs.all fun b => isSmall b || isNumeral b

/-- A plain word that is no keyword, or a keyword with an underscore behind it. -/
def IsPackageName (p : Bytes) : Prop := isPlain p = true ∧ p ∉ keywords ∨ ∃ k ∈ keywords, p = k ++ "_"

/-! ### The characters that are kept -/

theorem ascii_facts (h : c.toNat < 0x80) :
    isSmall (UInt8.ofNat c.toNat) = c.isLower ∧ isNumeral (UInt8.ofNat c.toNat) = c.isDigit := by
  refine Text.forall_ascii h ?_
  decide +kernel

theorem isPackageChar_iff : isPackageChar c = true ↔ c.toNat < 0x80 ∧ c.isAlphanum = true := by
  rw [isPackageChar, Text.isAscii, Bool.and_eq_true, decide_eq_true_eq]

/-- Letters and digits that a package name may have. -/
def Fitting (c : Char) : Prop := isPackageChar c = true ∧ Text.lowerChar c = c

theorem fitting_toLower (h : c.toNat < 0x80) (halnum : c.toLower.isAlphanum = true) : Fitting c.toLower := by
  unfold Fitting
  revert halnum
  refine Text.forall_ascii h ?_
  decide +kernel

/-- All runs of capitals have their small letters at a number or above. -/
def runsReach (least : Int) : Nat → List (Nat × Nat × Nat × Int) → Bool
  | _, [] => true
  | base, (gap, run, _, shift) :: rest =>
    decide (least ≤ (base + gap : Nat) + shift) && runsReach least (base + gap + run) rest

theorem le_of_findRun {least : Int} {runs : List (Nat × Nat × Nat × Int)} {base n k step : Nat} {shift : Int}
    (h : runsReach least base runs = true) (hfind : Text.findRun runs n = some (k, step, shift)) :
    least ≤ (base + n : Nat) + shift := by
  induction runs generalizing base n with
  | nil => cases hfind
  | cons r runs ih =>
    obtain ⟨gap, run, step', shift'⟩ := r
    rw [runsReach, Bool.and_eq_true, decide_eq_true_eq] at h
    rw [Text.findRun] at hfind
    split_ifs at hfind with hgap hrun
    · cases hfind
      omega
    · have hrest := ih h.2 hfind
      omega

theorem le_of_lowerForm? {n m : Nat} (h : Text.lowerForm? n = some m) : 0x61 ≤ m := by
  rw [Text.lowerForm?] at h
  split at h
  · next k step shift hrun =>
    split_ifs at h
    have hall : runsReach 0x61 0 Text.lowerShifts = true := by decide +kernel
    have hreach := le_of_findRun hall hrun
    cases h
    omega
  · cases h

theorem fitting_lowerChar (c : Char) (h : isPackageChar (Text.lowerChar c) = true) : Fitting (Text.lowerChar c) := by
  obtain ⟨hascii, halnum⟩ := isPackageChar_iff.1 h
  by_cases hc : c.toNat < 0x80
  · rw [Text.lowerChar_ascii hc] at halnum ⊢
    exact fitting_toLower hc halnum
  · -- above ASCII, a letter that is lowered to an ASCII one is lowered to a small one
    rw [Text.lowerChar, Text.isAscii, decide_eq_false hc, if_neg Bool.false_ne_true] at hascii halnum ⊢
    split_ifs at hascii halnum ⊢
    · unfold Fitting
      decide +kernel
    · cases hform : Text.lowerForm? c.toNat with
      | none =>
        rw [hform] at hascii
        exact absurd hascii hc
      | some m =>
        simp only [hform] at hascii halnum ⊢
        have hsmall : 0x61 ≤ (Char.ofNat m).toNat := by
          by_cases hvalid : m.isValidChar
          · rw [Utf8.toNat_ofNat hvalid]
            exact le_of_lowerForm? hform
          · rw [Char.ofNat, dif_neg hvalid] at halnum
            cases halnum
        generalize Char.ofNat m = d at hascii halnum hsmall ⊢
        unfold Fitting
        revert halnum hsmall
        refine Text.forall_ascii hascii ?_
        decide +kernel

theorem fitting_iff (h : c.toNat < 0x80) : Fitting c ↔
    isSmall (UInt8.ofNat c.toNat) = true ∨ isNumeral (UInt8.ofNat c.toNat) = true := by
  rw [Fitting, Text.lowerChar_ascii h]
  refine Text.forall_ascii h ?_
  decide +kernel

theorem isPlain_ofChars (h : ∀ d ∈ c :: cs, Fitting d) (hc : c.isDigit = false) :
    isPlain (Bytes.ofChars (c :: cs)) = true := by
  have hascii : ∀ d ∈ c :: cs, d.toNat < 0x80 := fun d hd => (isPackageChar_iff.1 (h d hd).1).1
  have hbyte : ∀ d ∈ c :: cs, isSmall (UInt8.ofNat d.toNat) = true ∨ isNumeral (UInt8.ofNat d.toNat) = true :=
    fun d hd => (fitting_iff (hascii d hd)).1 (h d hd)
  obtain ⟨hfirst, hrest⟩ := List.forall_mem_cons.1 hbyte
  rw [(ascii_facts (hascii c List.mem_cons_self)).2, hc] at hfirst
  rw [Utf8.ofChars_ascii hascii, List.map_cons, isPlain, List.all_map, Bool.and_eq_true, List.all_eq_true]
  exact ⟨hfirst.resolve_right Bool.false_ne_true, fun d hd => Bool.or_eq_true_iff.2 (hrest d hd)⟩

theorem bytes_of_isPlain (h : isPlain p = true) : ∀ b ∈ p, isSmall b = true ∨ isNumeral b = true := by
  cases p with
  | nil => cases h
  | cons b bs =>
    rw [isPlain, Bool.and_eq_true, List.all_eq_true] at h
    exact List.forall_mem_cons.2 ⟨.inl h.1, fun d hd => Bool.or_eq_true_iff.1 (h.2 d hd)⟩

theorem ascii_of_isPlain (h : isPlain p = true) : ∀ b ∈ p, b < 0x80 := by
  intro b hb
  have hbyte := bytes_of_isPlain h b hb
  simp only [isSmall, isNumeral, Bool.and_eq_true, decide_eq_true_eq, UInt8.le_iff_toNat_le] at hbyte
  rw [UInt8.lt_iff_toNat_lt]
  change b.toNat < 0x80
  change 0x61 ≤ b.toNat ∧ b.toNat ≤ 0x7A ∨ 0x30 ≤ b.toNat ∧ b.toNat ≤ 0x39 at hbyte
  omega

theorem fitting_of_isPlain (h : isPlain p = true) : ∀ c ∈ p.chars, Fitting c := by
  have hascii := ascii_of_isPlain h
  rw [Utf8.chars_ascii hascii]
  refine List.forall_mem_map.2 fun b hb => (fitting_iff (Utf8.map_lt hascii _ (List.mem_map_of_mem hb))).2 ?_
  rw [Utf8.toNat_char (hascii b hb), UInt8.ofNat_toNat]
  exact bytes_of_isPlain h b hb

theorem filter_of_fitting (h : ∀ c ∈ cs, Fitting c) : (cs.map Text.lowerChar).filter isPackageChar = cs := by
  have hmap : cs.map Text.lowerChar = cs := (List.map_congr_left fun c hc => (h c hc).2).trans (List.map_id cs)
  rw [hmap]
  exact List.filter_eq_self.2 fun c hc => (h c hc).1

section Names

variable [Libraries]

/-- The characters of a name that its package name keeps. -/
def keptChars (name : Bytes) : List Char :=
  ((Libraries.compose name).chars.map Text.lowerChar).filter isPackageChar

theorem fitting_keptChars (name : Bytes) : ∀ c ∈ keptChars name, Fitting c := by
  intro c hc
  obtain ⟨hmem, hchar⟩ := List.mem_filter.1 hc
  obtain ⟨d, -, rfl⟩ := List.mem_map.1 hmem
  exact fitting_lowerChar d hchar

/-! ### Package names and their fixed points -/

theorem packageName_nil {name : Bytes} (h : keptChars name = []) : packageName name = "schema" := by
  rw [keptChars, Bytes.chars] at h
  simp only [packageName, h]

theorem packageName_cons {name : Bytes} (h : keptChars name = c :: cs) {stem : Bytes}
    (hstem : Bytes.ofChars (if c.isDigit then 's' :: 'b' :: c :: cs else c :: cs) = stem) :
    packageName name = if keywords.contains stem then stem ++ "_" else stem := by
  rw [keptChars, Bytes.chars] at h
  rw [Bytes.ofChars] at hstem
  simp only [packageName, h, hstem]

theorem exists_plain (name : Bytes) : ∃ stem, isPlain stem = true ∧
    packageName name = if keywords.contains stem then stem ++ "_" else stem := by
  have hfit := fitting_keptChars name
  cases hkept : keptChars name with
  | nil => exact ⟨"schema", by decide +kernel, (packageName_nil hkept).trans (by decide +kernel)⟩
  | cons c cs =>
    rw [hkept] at hfit
    refine ⟨_, ?_, packageName_cons hkept rfl⟩
    split_ifs with hc
    · have hsb : Fitting 's' ∧ Fitting 'b' := by unfold Fitting; decide +kernel
      exact isPlain_ofChars (List.forall_mem_cons.2 ⟨hsb.1, List.forall_mem_cons.2 ⟨hsb.2, hfit⟩⟩) (by decide)
    · exact isPlain_ofChars hfit (Bool.eq_false_iff.2 hc)

theorem isPackageName_packageName (name : Bytes) : IsPackageName (packageName name) := by
  obtain ⟨stem, hplain, heq⟩ := exists_plain name
  rw [heq]
  split_ifs with hk
  · exact .inr ⟨stem, List.contains_iff_mem.1 hk, rfl⟩
  · exact .inl ⟨hplain, fun hmem => hk (List.contains_iff_mem.2 hmem)⟩

theorem packageName_of_kept {name : Bytes} (h : isPlain p = true) (hkept : keptChars name = p.chars) :
    packageName name = if keywords.contains p then p ++ "_" else p := by
  have hascii := ascii_of_isPlain h
  have hbytes := Utf8.ofChars_chars hascii
  cases p with
  | nil => cases h
  | cons b bs =>
    rw [Utf8.chars_ascii hascii, List.map_cons] at hkept hbytes
    refine packageName_cons hkept ?_
    rw [if_neg, hbytes]
    -- a word starts with a letter
    have hb : b < 0x80 := hascii b List.mem_cons_self
    have hsmall : isSmall (UInt8.ofNat (Char.ofNat b.toNat).toNat) = true := by
      rw [Utf8.toNat_char hb, UInt8.ofNat_toNat]
      exact (Bool.and_eq_true_iff.1 h).1
    have hlt : (Char.ofNat b.toNat).toNat < 0x80 := (Utf8.toNat_char hb).symm ▸ hb
    generalize Char.ofNat b.toNat = c at hsmall hlt
    revert hsmall
    refine Text.forall_ascii hlt ?_
    decide +kernel

section Plain

variable (hcompose : Libraries.ComposesPlain)

include hcompose

theorem packageName_of_isPackageName (h : IsPackageName p) : packageName p = p := by
  have hwords : ∀ k ∈ keywords, isPlain k = true := by decide +kernel
  rcases h with ⟨hplain, hk⟩ | ⟨k, hk, rfl⟩
  · have hkept : keptChars p = p.chars := by
      rw [keptChars, hcompose p (ascii_of_isPlain hplain), filter_of_fitting (fitting_of_isPlain hplain)]
    rw [packageName_of_kept hplain hkept, if_neg fun hmem => hk (List.contains_iff_mem.1 hmem)]
  · have hplain := hwords k hk
    have hunder : ∀ b ∈ Bytes.ofString "_", b < 0x80 := by decide +kernel
    have hchars : (k ++ Bytes.ofString "_").chars = k.chars ++ ['_'] :=
      Utf8.chars_append (ascii_of_isPlain hplain) hunder
    -- the underscore is lost and put back
    have hkept : keptChars (k ++ Bytes.ofString "_") = k.chars := by
      rw [keptChars, hcompose _ (List.forall_mem_append.2 ⟨ascii_of_isPlain hplain, hunder⟩), hchars, List.map_append,
        List.filter_append, filter_of_fitting (fitting_of_isPlain hplain)]
      exact List.append_nil _
    rw [packageName_of_kept hplain hkept, if_pos (List.contains_iff_mem.2 hk)]

theorem packageName_eq_self_iff : packageName p = p ↔ IsPackageName p :=
  ⟨fun h => h ▸ isPackageName_packageName p, packageName_of_isPackageName hcompose⟩

end Plain

/-! ### The options of generated source -/

theorem flagsOnly_ne_packageName (args : List Bytes) (given : Bytes) :
    flagsOnly .go sourceFlags args ≠ .error (.packageName given) := by
  intro h
  rw [flagsOnly] at h
  split at h
  · cases h
  · split_ifs at h
    cases h

/-- The runtime that source is to use, if the flags have the given values. -/
def runtimeOf (v : FlagValues) : Bytes := (v.last? "runtime").getD defaultRuntime

/-- The options for a package name that has its form. -/
def optionsFor (params : GenerateParams) (v : FlagValues) (name : Bytes) : Except GenerateError SourceOptions :=
  if Text.isBlank (runtimeOf v) then .error .noRuntime else .ok ⟨name, runtimeOf v, params.fileName ++ ".sb"⟩

section Options

variable (hcompose : Libraries.ComposesPlain) {params : GenerateParams} {v : FlagValues}

include hcompose

theorem sourceOptions_eq_packageName_iff (params : GenerateParams) (given : Bytes) :
    sourceOptions params = .error (.packageName given) ↔ ∃ v, flagsOnly .go sourceFlags params.args = .ok v ∧
      v.last? "package" = some given ∧ given ≠ [] ∧ ¬ IsPackageName given := by
  rw [sourceOptions, ← packageName_eq_self_iff hcompose]
  cases hv : flagsOnly .go sourceFlags params.args with
  | error e =>
    constructor
    · intro h
      cases h
      exact absurd hv (flagsOnly_ne_packageName params.args given)
    · rintro ⟨v, h, -⟩
      cases h
  | ok v =>
    constructor
    · intro h
      simp only at h
      split_ifs at h with hgiven
      · cases h
        refine ⟨v, rfl, ?_, hgiven⟩
        cases hlast : v.last? "package" with
        | none => exact absurd (congrArg (Option.getD · []) hlast) hgiven.1
        | some g => rfl
      · cases h
    · rintro ⟨w, h, hlast, hgiven⟩
      cases h
      simp only [hlast, Option.getD_some]
      rw [if_pos hgiven]

theorem sourceOptions_of_given {name : Bytes} (h : IsPackageName name)
    (hv : flagsOnly .go sourceFlags params.args = .ok v) (hlast : v.last? "package" = some name) :
    sourceOptions params = optionsFor params v name := by
  have hfixed := packageName_of_isPackageName hcompose h
  have hne : name ≠ [] := by
    rintro rfl
    rcases h with ⟨h, -⟩ | ⟨k, -, h⟩
    · cases h
    · cases (List.append_eq_nil_iff.1 h.symm).2
  simp only [sourceOptions, hv, hlast, Option.getD_some]
  rw [if_neg fun hbad => hbad.2 hfixed, if_neg hne]
  rfl

omit hcompose in
theorem sourceOptions_of_default (hv : flagsOnly .go sourceFlags params.args = .ok v)
    (hlast : (v.last? "package").getD [] = []) :
    sourceOptions params = optionsFor params v (packageName params.fileName) := by
  simp only [sourceOptions, hv, hlast]
  rw [if_neg fun hbad => hbad.1 rfl, if_pos trivial]
  rfl

end Options

/-- The package name of generated source, whatever library composes letters with their marks, as long as it leaves ASCII
texts alone. Every name gives one of a form that is kept, the form decides what is refused as a package name, and the
name that is taken without a flag is taken again when it is given by one. -/
theorem packageName_valid_and_stable (hcompose : Libraries.ComposesPlain) :
    (∀ name, IsPackageName (packageName name) ∧ packageName (packageName name) = packageName name) ∧
    (∀ p, packageName p = p ↔ IsPackageName p) ∧
    (∀ params given, sourceOptions params = .error (.packageName given) ↔ ∃ v,
      flagsOnly .go sourceFlags params.args = .ok v ∧ v.last? "package" = some given ∧ given ≠ [] ∧
        ¬ IsPackageName given) ∧
    (∀ params v name, flagsOnly .go sourceFlags params.args = .ok v → v.last? "package" = some (packageName name) →
      sourceOptions params = optionsFor params v (packageName name)) ∧
    ∀ params v params' v', flagsOnly .go sourceFlags params.args = .ok v → (v.last? "package").getD [] = [] →
      flagsOnly .go sourceFlags params'.args = .ok v' → v'.last? "package" = some (packageName params.fileName) →
      params'.fileName = params.fileName → runtimeOf v' = runtimeOf v → sourceOptions params' = sourceOptions params := by
  refine ⟨fun name => ?_, fun p => packageName_eq_self_iff hcompose, sourceOptions_eq_packageName_iff hcompose,
    fun params v name => sourceOptions_of_given hcompose (isPackageName_packageName name), ?_⟩
  · have h := isPackageName_packageName name
    exact ⟨h, packageName_of_isPackageName hcompose h⟩
  · intro params v params' v' hv hnone hv' hlast hfile hruntime
    rw [sourceOptions_of_default hv hnone,
      sourceOptions_of_given hcompose (isPackageName_packageName params.fileName) hv' hlast, optionsFor, optionsFor, hfile,
      hruntime]

end Names

theorem packageName_valid_and_stable_sample :
    letI := Libraries.plain
    packageName "Go!" = "go_" ∧ flagsOnly .go sourceFlags ["--runtime", "a/b", "--package", "go_"] =
      .ok ⟨[("runtime", "a/b"), ("package", "go_")], []⟩ ∧
    sourceOptions ⟨"x", "", ["--runtime", "a/b", "--package", "go_"]⟩ = .ok ⟨"go_", "a/b", "x.sb"⟩ ∧
    sourceOptions ⟨"x", "", ["--package", "go"]⟩ = .error (.packageName "go") := by
  let := Libraries.plain
  have hname : packageName "Go!" = "go_" := by decide +kernel
  have hflags : flagsOnly .go sourceFlags ["--runtime", "a/b", "--package", "go_"] =
      .ok ⟨[("runtime", "a/b"), ("package", "go_")], []⟩ := by decide +kernel
  obtain ⟨-, -, hrefused, hgiven, -⟩ := packageName_valid_and_stable fun _ _ => rfl
  refine ⟨hname, hflags, ?_, (hrefused _ _).2 ⟨_, rfl, rfl, by decide +kernel, ?_⟩⟩
  · rw [hgiven ⟨"x", "", ["--runtime", "a/b", "--package", "go_"]⟩ _ "Go!" hflags (by decide +kernel), hname]
    decide +kernel
  · rintro (⟨-, h⟩ | ⟨k, hk, h⟩)
    · exact h (by decide +kernel)
    · revert h
      revert k
      decide +kernel

end Flatwire.Generate
