import Flatwire.Generate.Output
import Mathlib.Data.List.Basic

/-! Trees grow. Nothing that is written takes a name from a file or a link, so a path that leads to a file leads there for
good, through whatever links it goes; this is what makes it possible to speak of the file that a path leads to when all
files are written. -/

namespace Flatwire.FileTree

variable {t t' t'' : FileTree} {p q dir : Location} {part content : Bytes} {parts : List Bytes} {i : Nat}

theorem stretch_cons_eq_ok {s : Stretch} : t.stretch p (part :: parts) = .ok s ↔ t.stepFault? p part = none ∧
    ((∃ text, t.link? (p.step part) = some text ∧ .link p text parts = s) ∨
      t.link? (p.step part) = none ∧ t.stretch (p.step part) parts = .ok s) := by
  rw [stretch]
  cases t.stepFault? p part <;> cases t.link? (p.step part) <;> simp

/-- A walk is one stretch, or a stretch to a link and another walk from there. -/
theorem walk_eq_ok {links : Nat} : t.walk links p parts = .ok q ↔ t.stretch p parts = .ok (.done q) ∨
    ∃ n dir text rest, links = n + 1 ∧ t.stretch p parts = .ok (.link dir text rest) ∧
      t.walk n (if text.head? = some Path.slash then [] else dir) (Bytes.splitOn Path.slash text ++ rest) = .ok q := by
  rw [walk]
  rcases t.stretch p parts with e | _ | ⟨dir, text, rest⟩
  · simp
  · simp
  · cases links <;> simp

/-- Files and directories were added, and files rewritten. -/
structure Extends (t t' : FileTree) : Prop where
  links : t'.links = t.links
  here : t'.here = t.here
  names : ∃ new : List Location, t'.files.map StoredFile.names = t.files.map StoredFile.names ++ new.map ([·])
  dirs : ∀ p, t.isDir p = true → t'.isDir p = true
  /-- No directory is made in the place of a file. -/
  apart : ∀ p i, t.fileNamed? p = some i → t'.isDir p = t.isDir p

theorem fileNamed?_eq (t : FileTree) (p : Location) :
    t.fileNamed? p = (t.files.map StoredFile.names).findIdx? (·.contains p) := by
  rw [fileNamed?, List.findIdx?_map]
  rfl

namespace Extends

theorem refl (t : FileTree) : t.Extends t :=
  ⟨rfl, rfl, ⟨[], (List.append_nil _).symm⟩, fun _ => id, fun _ _ _ => rfl⟩

theorem fileNamed? (h : t.Extends t') (hp : t.fileNamed? p = some i) : t'.fileNamed? p = some i := by
  obtain ⟨new, hnew⟩ := h.names
  rw [fileNamed?_eq] at hp ⊢
  rw [hnew, List.findIdx?_append, hp]
  rfl

theorem trans (h : t.Extends t') (h' : t'.Extends t'') : t.Extends t'' where
  links := h'.links.trans h.links
  here := h'.here.trans h.here
  names := by
    obtain ⟨new, hnew⟩ := h.names
    obtain ⟨new', hnew'⟩ := h'.names
    exact ⟨new ++ new', by rw [hnew', hnew, List.map_append, List.append_assoc]⟩
  dirs p hp := h'.dirs p (h.dirs p hp)
  apart p i hp := (h'.apart p i (h.fileNamed? hp)).trans (h.apart p i hp)

theorem link? (h : t.Extends t') (p : Location) : t'.link? p = t.link? p := by
  rw [FileTree.link?, FileTree.link?, h.here, h.links]

theorem stepFault? (h : t.Extends t') (hp : t.stepFault? p part = none) : t'.stepFault? p part = none := by
  rw [FileTree.stepFault?] at hp ⊢
  split_ifs at hp with hdir hlong
  rw [Bool.not_eq_true', Bool.not_eq_false] at hdir
  rw [h.dirs p hdir, if_neg (by decide), if_neg hlong]

theorem stretch (h : t.Extends t') {s : Stretch} (hs : t.stretch p parts = .ok s) : t'.stretch p parts = .ok s := by
  induction parts generalizing p with
  | nil => exact hs
  | cons part parts ih =>
    rw [stretch_cons_eq_ok] at hs ⊢
    rw [h.link?]
    exact ⟨h.stepFault? hs.1, hs.2.imp_right fun ⟨hlink, hrest⟩ => ⟨hlink, ih hrest⟩⟩

theorem walk (h : t.Extends t') {links : Nat} (hq : t.walk links p parts = .ok q) : t'.walk links p parts = .ok q := by
  induction links using Nat.strongRecOn generalizing p parts with
  | ind links ih =>
    rcases walk_eq_ok.1 hq with hs | ⟨n, dir, text, rest, rfl, hs, hrest⟩
    · exact walk_eq_ok.2 (.inl (h.stretch hs))
    · exact walk_eq_ok.2 (.inr ⟨n, dir, text, rest, rfl, h.stretch hs, ih n n.lt_succ_self hrest⟩)

theorem find (h : t.Extends t') {p : Path} (hq : t.find p = .ok q) : t'.find p = .ok q := by
  rw [FileTree.find, root] at hq ⊢
  rw [h.here]
  exact h.walk hq

end Extends

/-- The file that a path leads to. -/
def fileAt? (t : FileTree) (p : Path) : Option Nat :=
  match t.find p with
  | .error _ => none
  | .ok q => if t.isDir q then none else t.fileNamed? q

theorem fileAt?_eq_some {p : Path} :
    t.fileAt? p = some i ↔ ∃ q, t.find p = .ok q ∧ t.isDir q = false ∧ t.fileNamed? q = some i := by
  rw [fileAt?]
  cases t.find p with
  | error e => simp
  | ok q => cases hdir : t.isDir q <;> simp [hdir]

theorem Extends.fileAt? (h : t.Extends t') {p : Path} (hp : t.fileAt? p = some i) : t'.fileAt? p = some i := by
  obtain ⟨q, hfind, hdir, hname⟩ := fileAt?_eq_some.1 hp
  exact fileAt?_eq_some.2 ⟨q, h.find hfind, (h.apart q i hname).trans hdir, h.fileNamed? hname⟩

/-! ### Directories -/

theorem isDir_addDir (t : FileTree) (p q : Location) :
    (t.addDir p).isDir q = true ↔ t.isDir q = true ∨ q = p ∧ t.link? q = none := by
  have hlink : (t.addDir p).link? q = t.link? q := rfl
  rw [isDir, isDir, hlink, addDir]
  cases t.link? q <;> simp [or_assoc]

theorem extends_addDir (h : t.fileNamed? p = none) : t.Extends (t.addDir p) where
  links := rfl
  here := rfl
  names := ⟨[], (List.append_nil _).symm⟩
  dirs q hq := (isDir_addDir t p q).2 (.inl hq)
  apart q i hq := by
    have hne : q ≠ p := by
      rintro rfl
      cases h.symm.trans hq
    rw [Bool.eq_iff_iff, isDir_addDir]
    exact or_iff_left fun hq => hne hq.1

/-- A stretch with more to go behind it. -/
def Stretch.continued (t : FileTree) (more : List Bytes) : Stretch → Except FileFault Stretch
  | .done q => t.stretch q more
  | .link dir text rest => .ok (.link dir text (rest ++ more))

theorem stretch_append {s : Stretch} (h : t.stretch p parts = .ok s) (more : List Bytes) :
    t.stretch p (parts ++ more) = s.continued t more := by
  induction parts generalizing p with
  | nil =>
    cases h
    rfl
  | cons part parts ih =>
    obtain ⟨hfault, ⟨text, hlink, rfl⟩ | ⟨hlink, hrest⟩⟩ := stretch_cons_eq_ok.1 h
    · simp only [List.cons_append, stretch, hfault, hlink, Stretch.continued]
    · simp only [List.cons_append, stretch, hfault, hlink, ih hrest]

/-- A walk goes on by a part that is no link. -/
theorem walk_concat {links : Nat} (h : t.walk links p parts = .ok dir) (hfault : t.stepFault? dir part = none)
    (hlink : t.link? (dir.step part) = none) : t.walk links p (parts ++ [part]) = .ok (dir.step part) := by
  induction links using Nat.strongRecOn generalizing p parts with
  | ind links ih =>
    rw [walk_eq_ok]
    rcases walk_eq_ok.1 h with hs | ⟨n, dir, text, rest, rfl, hs, hrest⟩
    · exact .inl ((stretch_append hs [part]).trans (stretch_cons_eq_ok.2 ⟨hfault, .inr ⟨hlink, rfl⟩⟩))
    · refine .inr ⟨n, dir, text, rest ++ [part], rfl, stretch_append hs [part], ?_⟩
      rw [← List.append_assoc]
      exact ih n n.lt_succ_self hrest

theorem makeDir_ok {p : Path} (h : t.makeDir p = .ok t') :
    ∃ q, t' = t.addDir q ∧ t.fileNamed? q = none ∧ (t.addDir q).find p = .ok q := by
  rw [makeDir] at h
  cases hparent : t.find p.parent with
  | error e =>
    rw [hparent] at h
    cases h
  | ok dir =>
    simp only [hparent] at h
    generalize hlast : p.parts.getLast?.getD [] = name at h
    cases hfault : t.stepFault? dir name with
    | some fault =>
      rw [hfault] at h
      cases h
    | none =>
      simp only [hfault] at h
      split_ifs at h with htaken
      cases h
      simp only [Bool.or_eq_true, not_or, Bool.not_eq_true, Option.isSome_eq_false_iff, Option.isNone_iff_eq_none]
        at htaken
      obtain ⟨⟨hlink, hdir⟩, hname⟩ := htaken
      have hext := extends_addDir hname
      refine ⟨_, rfl, hname, ?_⟩
      rcases List.eq_nil_or_concat p.parts with hnil | ⟨front, last, hconcat⟩
      · -- the path of no parts leads to a directory, which is not made again
        rw [hnil] at hlast
        subst hlast
        rw [stepFault?] at hfault
        split_ifs at hfault with hno
        exact absurd hdir (by simpa [Location.step] using hno)
      · rw [List.concat_eq_append] at hconcat
        rw [hconcat, List.getLast?_concat, Option.getD_some] at hlast
        subst hlast
        rw [find, Path.parent, hconcat, List.dropLast_concat] at hparent
        rw [find, hconcat]
        exact walk_concat (hext.walk hparent) (hext.stepFault? hfault) ((hext.link? _).trans hlink)

/-- Directories were made, and nothing else. -/
structure Digs (t : FileTree) (ps : List Path) (t' : FileTree) : Prop where
  grown : t.Extends t'
  files : t'.files = t.files
  dirs : ∀ q, t'.isDir q = true → t.isDir q = true ∨ ∃ p ∈ ps, t'.find p = .ok q

theorem digs_ensureDir {p : Path} {last : Bool} (h : t.ensureDir p last = .ok t') : t.Digs [p] t' := by
  have hmade : t.makeDir p = .ok t' → t.Digs [p] t' := by
    intro h
    obtain ⟨q, rfl, hname, hfind⟩ := makeDir_ok h
    refine ⟨extends_addDir hname, rfl, fun r hr => ?_⟩
    rcases (isDir_addDir t q r).1 hr with hr | ⟨rfl, -⟩
    · exact .inl hr
    · exact .inr ⟨p, List.mem_singleton_self p, hfind⟩
  rw [ensureDir] at h
  split at h
  · exact hmade h
  · split_ifs at h
    · cases h
      exact ⟨.refl t, rfl, fun _ => .inl⟩
    · exact hmade h

theorem digs_makeDirs (t : FileTree) (ps : List Path) : t.Digs ps (t.makeDirs ps).2 := by
  induction ps generalizing t with
  | nil => exact ⟨.refl t, rfl, fun _ => .inl⟩
  | cons p ps ih =>
    have hstop : t.Digs (p :: ps) t := ⟨.refl t, rfl, fun _ => .inl⟩
    rw [makeDirs]
    split
    · exact hstop
    · split
      · exact hstop
      · next t₁ hensure =>
        have hone := digs_ensureDir hensure
        have hrest := ih t₁
        refine ⟨hone.grown.trans hrest.grown, hrest.files.trans hone.files, fun q hq => ?_⟩
        rcases hrest.dirs q hq with hq | ⟨r, hr, hfind⟩
        · rcases hone.dirs q hq with hq | ⟨r, hr, hfind⟩
          · exact .inl hq
          · rw [List.mem_singleton.1 hr] at hfind
            exact .inr ⟨p, List.mem_cons_self, hrest.grown.find hfind⟩
        · exact .inr ⟨r, List.mem_cons_of_mem p hr, hfind⟩

/-! ### Files -/

theorem extends_put (t : FileTree) (p : Location) (content : Bytes) : t.Extends (t.put p content) := by
  rw [put]
  split
  · next i hi =>
    refine ⟨rfl, rfl, ⟨[], ?_⟩, fun _ => id, fun _ _ _ => rfl⟩
    refine List.ext_getElem? fun j => ?_
    rw [List.map_nil, List.append_nil, List.getElem?_map, List.getElem?_map, List.getElem?_modify, Option.map_eq_map,
      Option.map_map]
    refine congrArg (Option.map · t.files[j]?) (funext fun f => ?_)
    rw [Function.comp_apply]
    split_ifs <;> rfl
  · exact ⟨rfl, rfl, ⟨[p], by rw [List.map_append]; rfl⟩, fun _ => id, fun _ _ _ => rfl⟩

/-- One file is changed or made, and the name is the name of this file. -/
theorem exists_put (t : FileTree) (p : Location) (content : Bytes) :
    ∃ i, (t.put p content).fileNamed? p = some i ∧ ((t.put p content).files[i]?).map StoredFile.content = some content ∧
      ∀ j, j ≠ i → (t.put p content).files[j]? = t.files[j]? := by
  cases hname : t.fileNamed? p with
  | some i =>
    have hput : t.put p content = { t with files := t.files.modify i fun f => { f with content := content } } := by
      simp only [put, hname]
    refine ⟨i, (extends_put t p content).fileNamed? hname, ?_, fun j hj => ?_⟩
    · obtain ⟨hlt, -⟩ := List.findIdx?_eq_some_iff_findIdx_eq.1 hname
      rw [hput, List.getElem?_modify_eq, List.getElem?_eq_getElem hlt]
      rfl
    · rw [hput]
      exact List.getElem?_modify_ne _ _ (Ne.symm hj)
  | none =>
    have hput : t.put p content = { t with files := t.files ++ [⟨[p], content⟩] } := by simp only [put, hname]
    rw [hput]
    refine ⟨t.files.length, ?_, ?_, fun j hj => ?_⟩
    · rw [fileNamed?] at hname ⊢
      rw [List.findIdx?_append, hname]
      simp
    · simp
    · rw [List.getElem?_append]
      split_ifs with hlt
      · rfl
      · rw [List.getElem?_eq_none (by simp; omega), List.getElem?_eq_none (by omega)]

/-- A file was written, with the directories that lead to it. -/
structure Wrote (t : FileTree) (p : Path) (content : Bytes) (i : Nat) (t' : FileTree) : Prop where
  grown : t.Extends t'
  leads : t'.fileAt? p = some i
  content : (t'.files[i]?).map StoredFile.content = some content
  others : ∀ j, j ≠ i → t'.files[j]? = t.files[j]?
  dirs : ∀ q, t'.isDir q = true → t.isDir q = true ∨ ∃ r ∈ p.parent.chain, t'.find r = .ok q

theorem wrote_writeFile {t₀ : FileTree} {p : Path} (hdigs : t₀.Digs p.parent.chain t)
    (h : t.writeFile p content = .ok t') : ∃ i, t₀.Wrote p content i t' := by
  rw [writeFile] at h
  split at h
  · cases h
  · split at h
    · cases h
    · next q hfind =>
      split_ifs at h with hdir
      cases h
      obtain ⟨i, hname, hcontent, hothers⟩ := exists_put t q content
      have hext := extends_put t q content
      have hsame : ∀ r, (t.put q content).isDir r = t.isDir r := by
        intro r
        rw [put]
        split <;> rfl
      refine ⟨i, hdigs.grown.trans hext, ?_, hcontent, fun j hj => ?_, fun r hr => ?_⟩
      · exact fileAt?_eq_some.2 ⟨q, hext.find hfind, (hsame q).trans (Bool.eq_false_iff.2 hdir), hname⟩
      · rw [hothers j hj, hdigs.files]
      · rcases hdigs.dirs r (hsame r ▸ hr) with hr | ⟨s, hs, hfind⟩
        · exact .inl hr
        · exact .inr ⟨s, hs, hext.find hfind⟩

/-- One file: it is written and the others follow, or nothing more is done. -/
theorem writeAll_cons (t : FileTree) (p : Path) (content : Bytes) (places : List (Path × Bytes)) :
    (∃ i t', t.Wrote p content i t' ∧ t.writeAll ((p, content) :: places) = t'.writeAll places) ∨
    ∃ e t', t.writeAll ((p, content) :: places) = (some e, t') ∧ t.Digs p.parent.chain t' := by
  have hdigs := digs_makeDirs t p.parent.chain
  rw [writeAll]
  rcases hdirs : t.makeDirs p.parent.chain with ⟨_ | e, t₁⟩ <;> rw [hdirs] at hdigs
  · dsimp only
    cases hwrite : t₁.writeFile p content with
    | error e => exact .inr ⟨e, t₁, rfl, hdigs⟩
    | ok t₂ =>
      obtain ⟨i, hwrote⟩ := wrote_writeFile hdigs hwrite
      exact .inl ⟨i, t₂, hwrote, rfl⟩
  · exact .inr ⟨e, t₁, rfl, hdigs⟩

variable {places : List (Path × Bytes)}

/-- What writing does to a tree, whether it comes to its end or not: files that no path leads to are as they were, and
new directories are on the way to a file. -/
structure Fills (t : FileTree) (places : List (Path × Bytes)) (t' : FileTree) : Prop where
  grown : t.Extends t'
  files : ∀ i, (∀ place ∈ places, t'.fileAt? place.1 ≠ some i) → t'.files[i]? = t.files[i]?
  dirs : ∀ q, t'.isDir q = true → t.isDir q = true ∨ ∃ place ∈ places, ∃ r ∈ place.1.parent.chain, t'.find r = .ok q

theorem fills_writeAll (t : FileTree) (places : List (Path × Bytes)) : t.Fills places (t.writeAll places).2 := by
  induction places generalizing t with
  | nil => exact ⟨.refl t, fun _ _ => rfl, fun _ => .inl⟩
  | cons place places ih =>
    obtain ⟨i, t₁, hwrote, hrest⟩ | ⟨e, t₁, hstop, hdigs⟩ := t.writeAll_cons place.1 place.2 places
    · have hfills := ih t₁
      rw [hrest]
      refine ⟨hwrote.grown.trans hfills.grown, fun j hj => ?_, fun q hq => ?_⟩
      · obtain ⟨hfirst, hlater⟩ := List.forall_mem_cons.1 hj
        have hne : j ≠ i := by
          rintro rfl
          exact hfirst (hfills.grown.fileAt? hwrote.leads)
        rw [hfills.files j hlater, hwrote.others j hne]
      · rcases hfills.dirs q hq with hq | ⟨later, hlater, hway⟩
        · rcases hwrote.dirs q hq with hq | ⟨r, hr, hfind⟩
          · exact .inl hq
          · exact .inr ⟨place, List.mem_cons_self, r, hr, hfills.grown.find hfind⟩
        · exact .inr ⟨later, List.mem_cons_of_mem place hlater, hway⟩
    · rw [hstop]
      refine ⟨hdigs.grown, fun j _ => by rw [hdigs.files], fun q hq => ?_⟩
      exact (hdigs.dirs q hq).imp_right fun hway => ⟨place, List.mem_cons_self, hway⟩

/-- When all is written, a path leads to a file with the last content of those whose paths lead there. -/
theorem content_writeAll {p : Path} {earlier later : List (Path × Bytes)}
    (h : (t.writeAll (earlier ++ (p, content) :: later)).1 = none) :
    ∃ i, (t.writeAll (earlier ++ (p, content) :: later)).2.fileAt? p = some i ∧
      ((∀ place ∈ later, (t.writeAll (earlier ++ (p, content) :: later)).2.fileAt? place.1 ≠ some i) →
        ((t.writeAll (earlier ++ (p, content) :: later)).2.files[i]?).map StoredFile.content = some content) := by
  induction earlier generalizing t with
  | nil =>
    obtain ⟨i, t₁, hwrote, hrest⟩ | ⟨e, t₁, hstop, -⟩ := t.writeAll_cons p content later
    · have hfills := t₁.fills_writeAll later
      rw [List.nil_append, hrest]
      refine ⟨i, hfills.grown.fileAt? hwrote.leads, fun hlast => ?_⟩
      rw [hfills.files i hlast, hwrote.content]
    · rw [List.nil_append, hstop] at h
      cases h
  | cons place earlier ih =>
    obtain ⟨i, t₁, -, hrest⟩ | ⟨e, t₁, hstop, -⟩ := t.writeAll_cons place.1 place.2 (earlier ++ (p, content) :: later)
    · rw [List.cons_append, hrest] at h ⊢
      exact ih h
    · rw [List.cons_append, hstop] at h
      cases h

end Flatwire.FileTree
