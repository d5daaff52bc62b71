import Flatwire.Generate.Output
import Flatwire.Proofs.Outline

/-! Generated files stay below the destination. Cleaning a path takes back what two dots undo and nothing else, so parts
that name something are kept one and all when they are put behind a directory; and a path in clean form can be read back
from its text, so files with different paths have different places. -/

namespace Flatwire

theorem Bytes.splitOn_join {sep : UInt8} {parts : List Bytes} (hne : parts ≠ []) (h : ∀ part ∈ parts, sep ∉ part) :
    splitOn sep (join [sep] parts) = parts := by
  induction parts with
  | nil => exact absurd rfl hne
  | cons part parts ih =>
    obtain ⟨hpart, hrest⟩ := List.forall_mem_cons.1 h
    rcases parts with _ | ⟨q, parts⟩
    · exact splitOn_of_notMem hpart
    · have hjoin : join [sep] (part :: q :: parts) = part ++ sep :: join [sep] (q :: parts) :=
        List.append_assoc part [sep] _
      rw [hjoin, splitOn_append hpart, ih (List.cons_ne_nil q parts) hrest]

namespace Path

/-- A part that names something in a directory. -/
def IsName (part : Bytes) : Prop :=
  part ≠ [] ∧ part ≠ Bytes.ofString "." ∧ part ≠ Bytes.ofString ".." ∧ slash ∉ part

/-- The clean form: names, and in front of them steps up, which a path from the root does not have. -/
def IsClean (p : Path) : Prop :=
  ∃ n names, p.parts = List.replicate n (Bytes.ofString "..") ++ names ∧ (∀ part ∈ names, IsName part) ∧
    (p.rooted = true → n = 0)

/-- Strictly below a directory: the way there goes on from the directory and never back up. -/
def Below (p dir : Path) : Prop :=
  p.rooted = dir.rooted ∧ ∃ rest, rest ≠ [] ∧ Bytes.ofString ".." ∉ rest ∧ p.parts = dir.parts ++ rest

/-- The parts that a path is written with: what stands between its slashes, less empty pieces and single dots. -/
def components (bs : Bytes) : List Bytes :=
  (Bytes.splitOn slash bs).filter fun part => !(part.isEmpty || part == Bytes.ofString ".")

/-! ### One part after the other -/

section Parts

variable {p : Path} {part : Bytes}

/-- The path one part further on. -/
def child (p : Path) (part : Bytes) : Path := ⟨p.rooted, (step p.rooted p.parts.reverse part).reverse⟩

theorem child_name (p : Path) (h : IsName part) : p.child part = ⟨p.rooted, p.parts ++ [part]⟩ := by
  unfold child step
  rw [if_neg (not_or.2 ⟨h.1, h.2.1⟩), if_neg h.2.2.1, List.reverse_cons, List.reverse_reverse]

theorem child_skip (p : Path) (h : part = [] ∨ part = ".") : p.child part = p := by
  unfold child step
  rw [if_pos h, List.reverse_reverse]

theorem child_up_root : (⟨true, []⟩ : Path).child (Bytes.ofString "..") = ⟨true, []⟩ := rfl

theorem child_up_free (n : Nat) : (⟨false, List.replicate n (Bytes.ofString "..")⟩ : Path).child (Bytes.ofString "..") =
    ⟨false, List.replicate (n + 1) (Bytes.ofString "..")⟩ := by
  unfold child step
  rw [if_neg (by decide), if_pos rfl, List.reverse_replicate]
  rcases n with _ | n
  · rfl
  · rw [List.replicate_succ]
    dsimp only
    rw [if_pos rfl, ← List.replicate_succ, ← List.replicate_succ, List.reverse_replicate]

theorem child_up_name (rooted : Bool) (front : List Bytes) (h : part ≠ "..") :
    (⟨rooted, front ++ [part]⟩ : Path).child (Bytes.ofString "..") = ⟨rooted, front⟩ := by
  unfold child step
  rw [if_neg (by decide), if_pos rfl, List.reverse_append, List.reverse_singleton, List.singleton_append]
  dsimp only
  rw [if_neg h, List.reverse_reverse]

theorem IsClean.child (h : p.IsClean) (hpart : slash ∉ part) : (p.child part).IsClean := by
  by_cases hskip : part = [] ∨ part = "."
  · rwa [child_skip p hskip]
  obtain ⟨n, names, hparts, hnames, hrooted⟩ := h
  by_cases hup : part = ".."
  · subst hup
    obtain ⟨rooted, parts⟩ := p
    obtain rfl : parts = _ := hparts
    rcases List.eq_nil_or_concat' names with rfl | ⟨front, last, rfl⟩
    · -- no name to take back: one step up more, unless the path is at the root
      rw [List.append_nil]
      rcases rooted with _ | _
      · rw [child_up_free]
        exact ⟨n + 1, [], (List.append_nil _).symm, hnames, fun hr => absurd hr Bool.false_ne_true⟩
      · obtain rfl : n = 0 := hrooted rfl
        rw [List.replicate_zero, child_up_root]
        exact ⟨0, [], rfl, hnames, hrooted⟩
    · rw [← List.append_assoc, child_up_name rooted _ (hnames last (by simp)).2.2.1]
      exact ⟨n, front, rfl, fun q hq => hnames q (List.mem_append_left _ hq), hrooted⟩
  · have hname : IsName part := ⟨fun h => hskip (.inl h), fun h => hskip (.inr h), hup, hpart⟩
    rw [child_name p hname]
    refine ⟨n, names ++ [part], by rw [hparts, List.append_assoc], fun q hq => ?_, hrooted⟩
    rcases List.mem_append.1 hq with hq | hq
    · exact hnames q hq
    · rwa [List.mem_singleton.1 hq]

variable {parts names : List Bytes}

theorem IsClean.foldl_child (h : p.IsClean) (hparts : ∀ part ∈ parts, slash ∉ part) :
    (parts.foldl Path.child p).IsClean := by
  induction parts generalizing p with
  | nil => exact h
  | cons part parts ih =>
    obtain ⟨hpart, hrest⟩ := List.forall_mem_cons.1 hparts
    exact ih (h.child hpart) hrest

theorem foldl_child_skip (p : Path) (h : ∀ part ∈ parts, part = [] ∨ part = ".") :
    parts.foldl child p = p := by
  induction parts with
  | nil => rfl
  | cons part parts ih =>
    obtain ⟨hpart, hrest⟩ := List.forall_mem_cons.1 h
    rw [List.foldl_cons, child_skip p hpart, ih hrest]

theorem foldl_child_names (p : Path) (h : ∀ part ∈ names, IsName part) :
    names.foldl child p = ⟨p.rooted, p.parts ++ names⟩ := by
  induction names generalizing p with
  | nil => rw [List.foldl_nil, List.append_nil]
  | cons name names ih =>
    obtain ⟨hname, hrest⟩ := List.forall_mem_cons.1 h
    rw [List.foldl_cons, child_name p hname, ih _ hrest, List.append_assoc, List.singleton_append]

theorem foldl_child_up (n m : Nat) : (List.replicate n (Bytes.ofString "..")).foldl child
    ⟨false, List.replicate m (Bytes.ofString "..")⟩ = ⟨false, List.replicate (m + n) (Bytes.ofString "..")⟩ := by
  induction n generalizing m with
  | zero => rfl
  | succ n ih => rw [List.replicate_succ, List.foldl_cons, child_up_free, ih, Nat.add_assoc, Nat.add_comm 1]

end Parts

/-! ### Cleaning -/

theorem clean_eq_foldl (bs : Bytes) :
    clean bs = (Bytes.splitOn slash bs).foldl child ⟨decide (bs.head? = some slash), []⟩ := by
  have hrun : ∀ rooted (parts back : List Bytes),
      (⟨rooted, (parts.foldl (step rooted) back).reverse⟩ : Path) = parts.foldl child ⟨rooted, back.reverse⟩ := by
    intro rooted parts
    induction parts with
    | nil => exact fun _ => rfl
    | cons part parts ih =>
      intro back
      rw [List.foldl_cons, List.foldl_cons, ih, child, List.reverse_reverse]
  exact hrun _ _ []

theorem clean_isClean (bs : Bytes) : (clean bs).IsClean := by
  rw [clean_eq_foldl]
  apply IsClean.foldl_child
  · exact ⟨0, [], rfl, by simp, fun _ => rfl⟩
  · exact fun part hpart => (Bytes.not_mem_of_mem_splitOn part hpart).1

theorem head?_join {part : Bytes} (rest : List Bytes) (h : part ≠ []) :
    (Bytes.join [slash] (part :: rest)).head? = part.head? := by
  rcases rest with _ | ⟨q, rest⟩
  · rfl
  · have hjoin : Bytes.join [slash] (part :: q :: rest) = part ++ [slash] ++ Bytes.join [slash] (q :: rest) := rfl
    rw [hjoin, List.append_assoc, List.head?_append_of_ne_nil _ h]

theorem join_names {dest : Bytes} {names : List Bytes} (hne : names ≠ []) (h : ∀ part ∈ names, IsName part) :
    join (dest :: names) = ⟨(clean dest).rooted, (clean dest).parts ++ names⟩ := by
  have hslash : ∀ part ∈ names, slash ∉ part := fun part hpart => (h part hpart).2.2.2
  have hkeep : names.filter (fun part => !part.isEmpty) = names := by
    refine List.filter_eq_self.2 fun part hpart => ?_
    simpa using (h part hpart).1
  obtain ⟨name, rest, rfl⟩ := List.exists_cons_of_ne_nil hne
  have hname := h name List.mem_cons_self
  unfold join
  rcases dest with _ | ⟨b, bs⟩
  · have hroot : name.head? ≠ some slash := fun hs => hname.2.2.2 (List.mem_of_head? hs)
    rw [List.filter_cons_of_neg (by simp), hkeep, clean_eq_foldl, Bytes.splitOn_join hne hslash,
      foldl_child_names _ h, head?_join rest hname.1, decide_eq_false hroot]
    rfl
  · have hjoin : Bytes.join [slash] ((b :: bs) :: name :: rest) =
        (b :: bs) ++ slash :: Bytes.join [slash] (name :: rest) := List.append_assoc _ [slash] _
    rw [List.filter_cons_of_pos (by simp), hkeep, hjoin, clean_eq_foldl, Bytes.splitOn_sep, List.foldl_append,
      Bytes.splitOn_join hne hslash, foldl_child_names _ h, clean_eq_foldl (b :: bs)]
    rfl

/-! ### Texts of paths -/

section Text

variable {p q : Path}

theorem IsClean.apart (h : p.IsClean) : ∀ part ∈ p.parts, part ≠ [] ∧ part ≠ "." ∧ slash ∉ part := by
  obtain ⟨n, names, hparts, hnames, -⟩ := h
  rw [hparts]
  intro part hpart
  rcases List.mem_append.1 hpart with hup | hname
  · rw [(List.mem_replicate.1 hup).2]
    decide
  · obtain ⟨hne, hdot, -, hslash⟩ := hnames part hname
    exact ⟨hne, hdot, hslash⟩

theorem IsClean.splitOn_text (h : p.IsClean) : decide (p.text.head? = some slash) = p.rooted ∧
    ∃ skipped, (∀ part ∈ skipped, part = [] ∨ part = ".") ∧
      Bytes.splitOn slash p.text = skipped ++ p.parts := by
  have hparts := h.apart
  obtain ⟨rooted, parts⟩ := p
  unfold text
  rcases parts with _ | ⟨part, rest⟩
  · rcases rooted with _ | _
    · exact ⟨rfl, ["."], by simp, rfl⟩
    · exact ⟨rfl, [[], []], by simp, rfl⟩
  · obtain ⟨hne, -, hslash⟩ := hparts part List.mem_cons_self
    have hsplit := Bytes.splitOn_join (List.cons_ne_nil part rest) fun q hq => (hparts q hq).2.2
    rcases rooted with _ | _
    · have hroot : part.head? ≠ some slash := fun hs => hslash (List.mem_of_head? hs)
      refine ⟨?_, [], by simp, hsplit⟩
      rw [← head?_join rest hne] at hroot
      exact decide_eq_false hroot
    · refine ⟨rfl, [[]], by simp, ?_⟩
      exact (Bytes.splitOn_sep slash [] _).trans (congrArg _ hsplit)

theorem IsClean.clean_text (h : p.IsClean) : clean p.text = p := by
  obtain ⟨hroot, skipped, hskipped, hsplit⟩ := h.splitOn_text
  obtain ⟨n, names, hparts, hnames, hrooted⟩ := h
  rw [clean_eq_foldl, hroot, hsplit, List.foldl_append, foldl_child_skip _ hskipped, hparts, List.foldl_append]
  have hups : (List.replicate n (Bytes.ofString "..")).foldl Path.child ⟨p.rooted, []⟩ =
      ⟨p.rooted, List.replicate n (Bytes.ofString "..")⟩ := by
    rcases hr : p.rooted with _ | _
    · exact (foldl_child_up n 0).trans (by rw [Nat.zero_add])
    · obtain rfl : n = 0 := hrooted hr
      rfl
  rw [hups, foldl_child_names _ hnames, ← hparts]

theorem IsClean.components_text (h : p.IsClean) : components p.text = p.parts := by
  obtain ⟨-, skipped, hskipped, hsplit⟩ := h.splitOn_text
  have hnone : skipped.filter (fun part => !(part.isEmpty || part == Bytes.ofString ".")) = [] := by
    refine List.filter_eq_nil_iff.2 fun part hpart => ?_
    rcases hskipped part hpart with rfl | rfl <;> decide
  have hall : p.parts.filter (fun part => !(part.isEmpty || part == Bytes.ofString ".")) = p.parts := by
    refine List.filter_eq_self.2 fun part hpart => ?_
    obtain ⟨hne, hdot, -⟩ := h.apart part hpart
    simp [hne, hdot]
  unfold components
  rw [hsplit, List.filter_append, hnone, hall, List.nil_append]

end Text

end Path

/-! ### Places of generated files -/

section Outputs

variable {dest : Bytes} {path : List Bytes} {p : Path}

theorem partError?_eq_none {part : Bytes} : partError? path part = none ↔ Path.IsName part ∧ 0x5C ∉ part := by
  unfold partError? Path.IsName
  constructor
  · intro h
    split_ifs at h with hbad hroot hsep
    rw [not_or, not_or] at hbad
    rw [Bool.or_eq_true, not_or, List.contains_iff_mem, List.contains_iff_mem] at hsep
    exact ⟨⟨hbad.1, hbad.2.1, hbad.2.2, hsep.1⟩, hsep.2⟩
  · rintro ⟨⟨hne, hdot, hup, hslash⟩, hback⟩
    have hroot : part.head? ≠ some Path.slash := fun hs => hslash (List.mem_of_head? hs)
    rw [if_neg (by simp [hne, hdot, hup]), if_neg hroot, if_neg (by simp [hslash, hback])]

theorem outputPath_eq_ok : outputPath dest path = .ok p ↔
    path ≠ [] ∧ (∀ part ∈ path, Path.IsName part ∧ 0x5C ∉ part) ∧
      p = ⟨(Path.clean dest).rooted, (Path.clean dest).parts ++ path⟩ := by
  unfold outputPath
  by_cases hempty : path = []
  · simp [hempty]
  have hnone : path.findSome? (partError? path) = none ↔ ∀ part ∈ path, Path.IsName part ∧ 0x5C ∉ part := by
    rw [List.findSome?_eq_none_iff]
    exact forall₂_congr fun part _ => partError?_eq_none
  rw [if_neg (by simpa using hempty)]
  by_cases hgood : ∀ part ∈ path, Path.IsName part ∧ 0x5C ∉ part
  · rw [hnone.2 hgood, Path.join_names hempty fun part hpart => (hgood part hpart).1]
    simp only [Except.ok.injEq, eq_comm]
    exact ⟨fun h => ⟨hempty, hgood, h⟩, fun h => h.2.2⟩
  · rcases hfound : path.findSome? (partError? path) with _ | e
    · exact absurd (hnone.1 hfound) hgood
    · exact iff_of_false (by simp) fun h => hgood h.2.1

theorem below_of_outputPath (h : outputPath dest path = .ok p) : p.Below (Path.clean dest) := by
  obtain ⟨hne, hgood, rfl⟩ := outputPath_eq_ok.1 h
  exact ⟨rfl, path, hne, fun hup => (hgood _ hup).1.2.2.1 rfl, rfl⟩

theorem isClean_of_outputPath (h : outputPath dest path = .ok p) : p.IsClean := by
  obtain ⟨-, hgood, rfl⟩ := outputPath_eq_ok.1 h
  rw [← Path.foldl_child_names _ fun part hpart => (hgood part hpart).1]
  exact (Path.clean_isClean dest).foldl_child fun part hpart => (hgood part hpart).1.2.2.2

/-- Output paths are accepted exactly if none of their parts can lead elsewhere; they go down from the destination by
exactly these parts, and differ in their texts if they differ in a part. -/
theorem outputPath_confined (dest : Bytes) (path : List Bytes) :
    ((∃ p, outputPath dest path = .ok p) ↔
      path ≠ [] ∧ ∀ part ∈ path, part ≠ [] ∧ part ≠ Bytes.ofString "." ∧ part ≠ Bytes.ofString ".." ∧
        Path.slash ∉ part ∧ 0x5C ∉ part) ∧
    (∀ p, outputPath dest path = .ok p →
      Path.components p.text = Path.components (Path.clean dest).text ++ path ∧
      (dest = [] ∨ dest = Bytes.ofString "." → Path.components p.text = path) ∧
      p.Below (Path.clean dest)) ∧
    ∀ path' p p', outputPath dest path = .ok p → outputPath dest path' = .ok p' → path ≠ path' → p.text ≠ p'.text := by
  refine ⟨⟨?_, ?_⟩, ?_, ?_⟩
  · rintro ⟨p, hp⟩
    obtain ⟨hne, hgood, -⟩ := outputPath_eq_ok.1 hp
    refine ⟨hne, fun part hpart => ?_⟩
    obtain ⟨⟨hpart, hdot, hup, hslash⟩, hback⟩ := hgood part hpart
    exact ⟨hpart, hdot, hup, hslash, hback⟩
  · rintro ⟨hne, hgood⟩
    refine ⟨_, outputPath_eq_ok.2 ⟨hne, fun part hpart => ?_, rfl⟩⟩
    obtain ⟨hpart, hdot, hup, hslash, hback⟩ := hgood part hpart
    exact ⟨⟨hpart, hdot, hup, hslash⟩, hback⟩
  · intro p hp
    obtain ⟨-, -, hplace⟩ := outputPath_eq_ok.1 hp
    have hparts : p.parts = (Path.clean dest).parts ++ path := congrArg Path.parts hplace
    rw [(isClean_of_outputPath hp).components_text, (Path.clean_isClean dest).components_text]
    refine ⟨hparts, fun hdest => ?_, below_of_outputPath hp⟩
    rw [hparts]
    rcases hdest with rfl | rfl <;> rfl
  · intro path' p p' hp hp' hne htext
    have hsame : p = p' := by
      rw [← (isClean_of_outputPath hp).clean_text, htext, (isClean_of_outputPath hp').clean_text]
    obtain ⟨-, -, hplace⟩ := outputPath_eq_ok.1 hp
    obtain ⟨-, -, hplace'⟩ := outputPath_eq_ok.1 hp'
    rw [hplace, hplace'] at hsame
    exact hne (List.append_cancel_left (congrArg Path.parts hsame))

/-- A destination with steps up and down and doubled slashes, and files whose paths differ in the last part. -/
theorem outputPath_confined_sample :
    let dest := Bytes.ofString "../gen//x/./../out/"
    let path := [Bytes.ofString "a", Bytes.ofString "b.go"]
    let path' := [Bytes.ofString "a", Bytes.ofString "..b"]
    ∃ p p', outputPath dest path = .ok p ∧ outputPath dest path' = .ok p' ∧
      p.text = Bytes.ofString "../gen/out/a/b.go" ∧
      Path.components p.text = Path.components (Path.clean dest).text ++ path ∧ p.Below (Path.clean dest) ∧
      p.text ≠ p'.text := by
  intro dest path path'
  have hp : outputPath dest path = .ok ⟨false, [Bytes.ofString "..", Bytes.ofString "gen", Bytes.ofString "out",
    Bytes.ofString "a", Bytes.ofString "b.go"]⟩ := by decide +kernel
  have hp' : outputPath dest path' = .ok ⟨false, [Bytes.ofString "..", Bytes.ofString "gen", Bytes.ofString "out",
    Bytes.ofString "a", Bytes.ofString "..b"]⟩ := by decide +kernel
  obtain ⟨-, hplace, hapart⟩ := outputPath_confined dest path
  obtain ⟨hparts, -, hbelow⟩ := hplace _ hp
  exact ⟨_, _, hp, hp', by decide +kernel, hparts, hbelow, hapart path' _ _ hp hp' (by decide +kernel)⟩

end Outputs

end Flatwire
