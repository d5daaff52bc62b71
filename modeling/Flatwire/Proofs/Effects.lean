import Flatwire.Command
import Flatwire.Proofs.AsciiText
import Flatwire.Proofs.Growth
import Mathlib.Data.List.Forall2

/-! What a run does to the files. Everything is found out before the first file is written: a run that stops on the way
leaves the tree as it was, and so does one whose generator made no files or one file with a bad path. A run that comes
through has changed nothing but the files that the paths of generated ones lead to; where several lead to one file, the
last content stays. -/

namespace Flatwire

/-! ### Places -/

section Outputs

variable {t : FileTree} {dest : Bytes} {files : List OutputFile} {places : List (Path × Bytes)}
  {α β : Type} {R : α → β → Prop} {a : α} {bs : List β}

theorem forall₂_of_outputPaths (h : outputPaths dest files = .ok places) :
    List.Forall₂ (fun f place => outputPath dest f.path = .ok place.1 ∧ f.content = place.2) files places := by
  induction files generalizing places with
  | nil =>
    cases h
    exact .nil
  | cons f files ih =>
    rw [outputPaths] at h
    cases hf : outputPath dest f.path with
    | error e => simp [hf] at h
    | ok p =>
      cases hrest : outputPaths dest files with
      | error e => simp [hf, hrest] at h
      | ok ps =>
        simp only [hf, hrest] at h
        cases h
        exact .cons ⟨hf, rfl⟩ (ih hrest)

theorem exists_split_of_forall₂ {earlier later : List α} (h : List.Forall₂ R (earlier ++ a :: later) bs) :
    ∃ before b after, bs = before ++ b :: after ∧ R a b ∧ List.Forall₂ R later after := by
  induction earlier generalizing bs with
  | nil =>
    cases h with
    | @cons _ b _ after hab hlater => exact ⟨[], b, after, rfl, hab, hlater⟩
  | cons a' earlier ih =>
    cases h with
    | @cons _ b' _ bs _ hrest =>
      obtain ⟨before, b, after, rfl, hab, hlater⟩ := ih hrest
      exact ⟨b' :: before, b, after, rfl, hab, hlater⟩

theorem exists_mem_of_forall₂ {as : List α} (h : List.Forall₂ R as bs) (ha : a ∈ as) : ∃ b ∈ bs, R a b := by
  obtain ⟨earlier, later, rfl⟩ := List.append_of_mem ha
  obtain ⟨before, b, after, rfl, hab, -⟩ := exists_split_of_forall₂ h
  exact ⟨b, by simp, hab⟩

theorem exists_bad_of_outputPaths {e : OutputError} (h : outputPaths dest files = .error e) :
    ∃ f ∈ files, outputPath dest f.path = .error e := by
  induction files with
  | nil => cases h
  | cons f files ih =>
    rw [outputPaths] at h
    cases hf : outputPath dest f.path with
    | error e' =>
      simp only [hf] at h
      cases h
      exact ⟨f, by simp, hf⟩
    | ok p =>
      cases hrest : outputPaths dest files with
      | error e' =>
        simp only [hf, hrest] at h
        cases h
        obtain ⟨g, hg, hbad⟩ := ih hrest
        exact ⟨g, by simp [hg], hbad⟩
      | ok ps => simp [hf, hrest] at h

/-- What becomes of generated files: there are none, one has a bad path, or all have places and are written in order. -/
theorem writeOutputs_cases (t : FileTree) (dest : Bytes) (files : List OutputFile) :
    ((files = [] ∨ ∃ f ∈ files, ∃ e, outputPath dest f.path = .error e) ∧
      ∃ e, writeOutputs t dest files = (some e, t)) ∨
    files ≠ [] ∧ ∃ places, outputPaths dest files = .ok places ∧
      writeOutputs t dest files = ((t.writeAll places).1.map .file, (t.writeAll places).2) := by
  rw [writeOutputs]
  split_ifs with hempty
  · exact .inl ⟨.inl (List.isEmpty_iff.1 hempty), _, rfl⟩
  · cases hpaths : outputPaths dest files with
    | error e =>
      obtain ⟨f, hf, hbad⟩ := exists_bad_of_outputPaths hpaths
      exact .inl ⟨.inr ⟨f, hf, e, hbad⟩, e, rfl⟩
    | ok places => exact .inr ⟨fun h => hempty (List.isEmpty_iff.2 h), places, rfl, rfl⟩

theorem writeOutputs_of_bad (t : FileTree) (h : files = [] ∨ ∃ f ∈ files, ∃ e, outputPath dest f.path = .error e) :
    ∃ e, writeOutputs t dest files = (some e, t) := by
  obtain ⟨-, hwrite⟩ | ⟨hne, places, hpaths, -⟩ := writeOutputs_cases t dest files
  · exact hwrite
  · obtain hempty | ⟨f, hf, e, hbad⟩ := h
    · exact absurd hempty hne
    · obtain ⟨place, -, hpath, -⟩ := exists_mem_of_forall₂ (forall₂_of_outputPaths hpaths) hf
      cases hbad.symm.trans hpath

theorem writeOutputs_of_failed (h : (writeOutputs t dest files).1 ≠ none)
    (hwritten : ∀ places, outputPaths dest files = .ok places → (t.writeAll places).1 = none) :
    (writeOutputs t dest files).2 = t := by
  obtain ⟨-, e, hwrite⟩ | ⟨-, places, hpaths, hwrite⟩ := writeOutputs_cases t dest files
  · rw [hwrite]
  · rw [hwrite, hwritten places hpaths] at h
    exact absurd rfl h

/-- A path of a generated file leads to a file of the tree. -/
def LeadsTo (t : FileTree) (dest : Bytes) (files : List OutputFile) (i : Nat) : Prop :=
  ∃ f ∈ files, ∃ p, outputPath dest f.path = .ok p ∧ t.fileAt? p = some i

/-- A directory is on the way to a generated file. -/
def OnTheWay (t : FileTree) (dest : Bytes) (files : List OutputFile) (q : Location) : Prop :=
  ∃ f ∈ files, ∃ p, outputPath dest f.path = .ok p ∧ ∃ r ∈ p.parent.chain, t.find r = .ok q

theorem writeOutputs_grown (t : FileTree) (dest : Bytes) (files : List OutputFile) :
    t.Extends (writeOutputs t dest files).2 ∧
    (∀ i, ¬ LeadsTo (writeOutputs t dest files).2 dest files i →
      (writeOutputs t dest files).2.files[i]? = t.files[i]?) ∧
    ∀ q, (writeOutputs t dest files).2.isDir q = true →
      t.isDir q = true ∨ OnTheWay (writeOutputs t dest files).2 dest files q := by
  obtain ⟨-, e, hwrite⟩ | ⟨-, places, hpaths, hwrite⟩ := writeOutputs_cases t dest files
  · rw [hwrite]
    exact ⟨.refl t, fun _ _ => rfl, fun _ => .inl⟩
  · have hplaces := forall₂_of_outputPaths hpaths
    have hfills := t.fills_writeAll places
    rw [hwrite]
    refine ⟨hfills.grown, fun i hi => hfills.files i fun place hplace hleads => ?_, fun q hq => ?_⟩
    · obtain ⟨f, hf, hpath, -⟩ := exists_mem_of_forall₂ hplaces.flip hplace
      exact hi ⟨f, hf, place.1, hpath, hleads⟩
    · refine (hfills.dirs q hq).imp_right ?_
      rintro ⟨place, hplace, hway⟩
      obtain ⟨f, hf, hpath, -⟩ := exists_mem_of_forall₂ hplaces.flip hplace
      exact ⟨f, hf, place.1, hpath, hway⟩

theorem writeOutputs_last {earlier later : List OutputFile} {f : OutputFile}
    (h : (writeOutputs t dest (earlier ++ f :: later)).1 = none) :
    ∃ p i, outputPath dest f.path = .ok p ∧ (writeOutputs t dest (earlier ++ f :: later)).2.fileAt? p = some i ∧
      (¬ LeadsTo (writeOutputs t dest (earlier ++ f :: later)).2 dest later i →
        ((writeOutputs t dest (earlier ++ f :: later)).2.files[i]?).map StoredFile.content = some f.content) := by
  obtain ⟨-, e, hwrite⟩ | ⟨-, places, hpaths, hwrite⟩ := writeOutputs_cases t dest (earlier ++ f :: later)
  · rw [hwrite] at h
    cases h
  · rw [hwrite] at h ⊢
    obtain ⟨before, place, after, rfl, ⟨hpath, hcontent⟩, hlater⟩ :=
      exists_split_of_forall₂ (forall₂_of_outputPaths hpaths)
    obtain ⟨i, hleads, hlast⟩ := FileTree.content_writeAll (Option.map_eq_none_iff.1 h)
    refine ⟨place.1, i, hpath, hleads, fun hnot => hcontent ▸ hlast fun place' hplace' hleads' => hnot ?_⟩
    obtain ⟨g, hg, hpath', -⟩ := exists_mem_of_forall₂ hlater.flip hplace'
    exact ⟨g, hg, place'.1, hpath', hleads'⟩

end Outputs

namespace Command

variable {σ : Type}

/-! ### Steps that come to a result -/

section Steps

variable {α β : Type} {c c' : Console}

/-- The steps, begun with what was printed before, come to the result with what is printed then. -/
def Gives (x : Task α) (c : Console) (a : α) (c' : Console) : Prop := x.run.run c = (.ok a, c')

theorem gives_bind {x : Task α} {f : α → Task β} {b : β} :
    Gives (x >>= f) c b c' ↔ ∃ a c₁, Gives x c a c₁ ∧ Gives (f a) c₁ b c' := by
  unfold Gives
  rw [ExceptT.run_bind, StateT.run_bind]
  rcases hx : x.run.run c with ⟨e | a, c₁⟩
  · constructor
    · intro h
      cases h
    · rintro ⟨a, c₁, h, -⟩
      cases h
  · constructor
    · intro h
      exact ⟨a, c₁, rfl, h⟩
    · rintro ⟨a, c₁, h, hf⟩
      cases h
      exact hf

theorem gives_pure {a b : α} : Gives (pure a) c b c' ↔ a = b ∧ c = c' := by
  constructor
  · intro h
    cases h
    exact ⟨rfl, rfl⟩
  · rintro ⟨rfl, rfl⟩
    rfl

theorem not_gives_throw {e : Stop} {a : α} : ¬ Gives (throw e) c a c' := nofun

theorem not_gives_misused {message : Bytes} {a : α} : ¬ Gives (misused message) c a c' := by
  simp [misused, gives_bind, not_gives_throw]

theorem gives_answer {asked : Bool} {text : Bytes} {u : Unit} :
    Gives (answer asked text) c u c' ↔ asked = false ∧ c = c' := by
  rw [answer]
  cases asked with
  | false => simp [gives_pure]
  | true => simp [gives_bind, not_gives_throw]

theorem gives_chooseDisplay {terminal : Bool} {v : FlagValues} {color : Bytes} {d : Display} :
    Gives (chooseDisplay terminal v color) c d c' ↔
      (∃ mode, ColorMode.ofName? color = some mode ∧ ⟨mode.enabled terminal, v.isOn "verbose"⟩ = d) ∧ c = c' := by
  rw [chooseDisplay]
  cases hmode : ColorMode.ofName? color with
  | none => simp [not_gives_misused]
  | some mode => simp [gives_pure]

theorem gives_chooseGenerator {plugins : List (Loaded σ)} {name : Bytes} {source : Source σ} :
    Gives (chooseGenerator plugins name) c source c' ↔ findGenerator plugins name = some source ∧ c = c' := by
  rw [chooseGenerator]
  cases hfind : findGenerator plugins name with
  | none => simp [not_gives_misused]
  | some found => simp [gives_pure]

variable [Libraries]

theorem gives_readFlags {argv : List Bytes} {v : FlagValues} :
    Gives (readFlags argv) c v c' ↔ Libraries.dispatch form argv = .run v ∧ c = c' := by
  rw [readFlags]
  cases Libraries.dispatch form argv with
  | run found => simp [gives_pure]
  | answered out err => simp [gives_bind, not_gives_throw]
  | refused message usage => simp [gives_bind, not_gives_throw]
  | failed message => simp [gives_bind, not_gives_throw]

theorem gives_readConfig {tree : FileTree} {v : FlagValues} {config : Config} :
    Gives (readConfig tree v) c config c' ↔
      Config.load tree (configPath v).1 (configPath v).2 = .ok config ∧ c = c' := by
  rw [readConfig]
  cases hload : Config.load tree (configPath v).1 (configPath v).2 with
  | error e => simp [hload, not_gives_misused]
  | ok found => simp [hload, gives_pure]

end Steps

section Runs

variable [Libraries]

/-- All goes well up to the point where files are written: this is what is generated, and where it belongs. -/
inductive Generates (tree : FileTree) (loader : Plugin.Loader σ) (terminal : Bool) (argv : List Bytes) :
    Bytes → List OutputFile → Prop
  | intro {v : FlagValues} {config : Config} {mode : ColorMode} {d : Display} {plugins : List (Loaded σ)}
      {name given path : Bytes} {args : List Bytes} {source : Source σ} {s : Schema} {files : List OutputFile}
      {c₁ c₂ c₃ : Console}
      (hflags : Libraries.dispatch form argv = .run v) (hlist : v.isOn "list" = false)
      (hconfig : Config.load tree (configPath v).1 (configPath v).2 = .ok config)
      (hmode : ColorMode.ofName? (options v config).color = some mode)
      (hd : d = ⟨mode.enabled terminal, v.isOn "verbose"⟩)
      (hplugins : Gives (loadPlugins d tree loader [] (options v config).libs) {} plugins c₁)
      (hargs : v.args = name :: given :: args) (hsource : findGenerator plugins name = some source)
      (hpath : path = (options v config).schemaPath given)
      (hschema : Gives (readSchema d tree [("generator", .text name), ("schema", .text path)] path) c₁ s c₂)
      (hfiles : Gives
        (generate d source path name s ⟨Path.stem path, (options v config).dstDir, config.args name ++ args⟩) c₂ files c₃) :
      Generates tree loader terminal argv (options v config).dstDir files

variable {tree : FileTree} {loader : Plugin.Loader σ} {terminal : Bool} {argv : List Bytes}

theorem generates_of_plan {job : Job} {c : Console} (h : Gives (plan tree loader terminal argv) {} job c) :
    Generates tree loader terminal argv job.dstDir job.files := by
  simp only [plan, gives_bind, gives_readFlags, gives_readConfig, gives_chooseDisplay, gives_answer] at h
  obtain ⟨v, _, ⟨hflags, rfl⟩, config, _, ⟨hconfig, rfl⟩, d, _, ⟨⟨mode, hmode, rfl⟩, rfl⟩,
    plugins, c₁, hplugins, _, _, ⟨hlist, rfl⟩, h⟩ := h
  split at h
  · rename_i name given args hargs
    simp only [gives_bind, gives_chooseGenerator, gives_pure] at h
    obtain ⟨source, _, ⟨hsource, rfl⟩, s, c₂, hschema, files, c₃, hfiles, rfl, rfl⟩ := h
    exact .intro hflags hlist hconfig hmode rfl hplugins hargs hsource rfl hschema hfiles
  · exact absurd h not_gives_misused

theorem plan_of_generates {dest : Bytes} {files : List OutputFile}
    (h : Generates tree loader terminal argv dest files) :
    ∃ job c, Gives (plan tree loader terminal argv) {} job c ∧ job.dstDir = dest ∧ job.files = files := by
  cases h with
  | @intro v config mode d plugins name given path args source s files c₁ c₂ c₃ hflags hlist hconfig
      hmode hd hplugins hargs hsource hpath hschema hfiles =>
    refine ⟨⟨d, _, name, [("generator", .text name), ("schema", .text path)], files⟩, c₃, ?_, rfl, rfl⟩
    subst hd hpath
    simp only [plan, gives_bind, gives_readFlags, gives_readConfig, gives_chooseDisplay, gives_answer]
    refine ⟨v, _, ⟨hflags, rfl⟩, config, _, ⟨hconfig, rfl⟩, _, _, ⟨⟨mode, hmode, rfl⟩, rfl⟩,
      plugins, c₁, hplugins, (), _, ⟨hlist, rfl⟩, ?_⟩
    simp only [hargs, gives_bind, gives_chooseGenerator, gives_pure]
    exact ⟨source, _, ⟨hsource, rfl⟩, s, c₂, hschema, files, c₃, hfiles, rfl, rfl⟩

/-- What a run has planned to write, and where. -/
def planned (tree : FileTree) (loader : Plugin.Loader σ) (terminal : Bool) (argv : List Bytes) :
    Option (Bytes × List OutputFile) :=
  match ((plan tree loader terminal argv).run.run {}).1 with
  | .ok job => some (job.dstDir, job.files)
  | .error _ => none

theorem generates_iff {dest : Bytes} {files : List OutputFile} :
    Generates tree loader terminal argv dest files ↔ planned tree loader terminal argv = some (dest, files) := by
  rw [planned]
  constructor
  · intro h
    obtain ⟨job, c, hplan, rfl, rfl⟩ := plan_of_generates h
    rw [show (plan tree loader terminal argv).run.run {} = (.ok job, c) from hplan]
  · intro h
    rcases hplan : (plan tree loader terminal argv).run.run {} with ⟨e | job, c⟩
    · rw [hplan] at h
      cases h
    · rw [hplan] at h
      cases h
      exact generates_of_plan hplan

theorem run_cases (tree : FileTree) (loader : Plugin.Loader σ) (terminal : Bool) (argv : List Bytes) :
    ((∀ dest files, ¬ Generates tree loader terminal argv dest files) ∧ (run tree loader terminal argv).tree = tree) ∨
    ∃ dest files, (∀ dest' files', Generates tree loader terminal argv dest' files' ↔ dest' = dest ∧ files' = files) ∧
      (run tree loader terminal argv).tree = (writeOutputs tree dest files).2 ∧
      (run tree loader terminal argv).exit = if (writeOutputs tree dest files).1.isSome then some 1 else some 0 := by
  rw [run]
  rcases hplan : (plan tree loader terminal argv).run.run {} with ⟨e | job, c⟩
  · refine .inl ⟨fun dest files => ?_, rfl⟩
    simp [generates_iff, planned, hplan]
  · refine .inr ⟨job.dstDir, job.files, fun dest files => ?_, ?_⟩
    · simp [generates_iff, planned, hplan, eq_comm]
    · dsimp only
      rw [Job.run]
      rcases writeOutputs tree job.dstDir job.files with ⟨_ | e, t⟩
      · exact ⟨rfl, rfl⟩
      · exact ⟨rfl, rfl⟩

/-- The file system refuses a file or a directory while generated files are written to their places. -/
def WriteFailed (tree : FileTree) (loader : Plugin.Loader σ) (terminal : Bool) (argv : List Bytes) : Prop :=
  ∃ dest files places e, Generates tree loader terminal argv dest files ∧ outputPaths dest files = .ok places ∧
    (tree.writeAll places).1 = some e

/-- A run that ends with an error has changed nothing, unless the file system refused what was to be written; nothing is
changed either if nothing is generated, or if there are no files or one of them has a bad path. Whatever happens, the
tree grows, only files that the paths of generated ones lead to are changed, and new directories are on the way to them.
If all goes well, every path leads to a file with the last content of those whose paths lead to it. -/
theorem run_writes_outputs_or_nothing (tree : FileTree) (loader : Plugin.Loader σ) (terminal : Bool)
    (argv : List Bytes) :
    let o := run tree loader terminal argv
    (o.exit = some 1 ∨ o.exit = some 2 → ¬ WriteFailed tree loader terminal argv → o.tree = tree) ∧
    ((∀ dest files, ¬ Generates tree loader terminal argv dest files) → o.tree = tree) ∧
    ∀ dest files, Generates tree loader terminal argv dest files →
      ((files = [] ∨ ∃ f ∈ files, ∃ e, outputPath dest f.path = .error e) → o.exit = some 1 ∧ o.tree = tree) ∧
      tree.Extends o.tree ∧ (∀ i, ¬ LeadsTo o.tree dest files i → o.tree.files[i]? = tree.files[i]?) ∧
      (∀ q, o.tree.isDir q = true → tree.isDir q = true ∨ OnTheWay o.tree dest files q) ∧
      (o.exit = some 0 → ∀ earlier f later, files = earlier ++ f :: later →
        ∃ p i, outputPath dest f.path = .ok p ∧ o.tree.fileAt? p = some i ∧ (¬ LeadsTo o.tree dest later i →
          (o.tree.files[i]?).map StoredFile.content = some f.content)) := by
  intro o
  obtain ⟨hnone, htree⟩ | ⟨dest, files, hgen, htree, hexit⟩ := run_cases tree loader terminal argv
  · exact ⟨fun _ _ => htree, fun _ => htree, fun dest files h => absurd h (hnone dest files)⟩
  have hok : o.exit = some 0 ↔ (writeOutputs tree dest files).1 = none := by
    rw [hexit]
    cases (writeOutputs tree dest files).1 <;> simp
  have hgenerates := (hgen dest files).2 ⟨rfl, rfl⟩
  refine ⟨fun hfail hnot => ?_, fun hno => absurd hgenerates (hno dest files), fun dest' files' h => ?_⟩
  · rw [htree]
    refine writeOutputs_of_failed (fun hnone => ?_) fun places hpaths => ?_
    · rw [hok.2 hnone] at hfail
      exact absurd hfail (by decide)
    · exact Option.eq_none_iff_forall_ne_some.2 fun e he => hnot ⟨dest, files, places, e, hgenerates, hpaths, he⟩
  · obtain ⟨rfl, rfl⟩ := (hgen dest' files').1 h
    obtain ⟨hgrown, hfiles, hdirs⟩ := writeOutputs_grown tree dest' files'
    rw [htree]
    refine ⟨fun hbad => ?_, hgrown, hfiles, hdirs, fun h0 earlier f later hsplit => ?_⟩
    · obtain ⟨e, hwrite⟩ := writeOutputs_of_bad tree hbad
      exact ⟨by rw [hexit, hwrite]; rfl, by rw [hwrite]⟩
    · subst hsplit
      exact writeOutputs_last (hok.1 h0)

end Runs

/-! ### A link among the outputs -/

/-- A schema, and an output directory where one directory has a link as its second name. -/
def linkedFiles : FileTree :=
  (((FileTree.empty.withFile "a.sb" "sequence S \x7b x: u8; \x7d").withFile "sbc-gen-t.wasm" []).withFile
    "out/x/keep" "k").withLink "out/y" "x"

/-- Two files that are one, since their paths differ by the link. -/
def linkedOutputs : List OutputFile := [⟨["x", "a"], "1"⟩, ⟨["y", "a"], "2"⟩]

/-- The memory of a guest that has the two files as its response, and the address of the response in the slot. -/
def linkedMemory : Plugin.Memory Unit where
  read? ptr size _ :=
    let response : Plugin.Response := { files := some (linkedOutputs.map fun f => ⟨some f.path, some f.content⟩) }
    some ((if ptr = 8 then Bytes.ofNat 4 1 else response.encode).take size)
  write? _ _ _ := some ()

def linkedLoader : Plugin.Loader Unit := fun _ _ _ => .ok
  ⟨⟨some linkedMemory, some fun _ _ => ⟨(), [], some 8⟩, none, fun _ => some fun _ _ _ => ⟨(), [], some 0⟩⟩, ()⟩

def linkedArgs : List Bytes := ["--lib", "sbc-gen-t.wasm", "--dstdir", "out", "t", "a.sb"]

/-- Both paths lead to one new file, which has the content of the second; the file beside it stays. A run that asks for
a generator there is not leaves everything as it was. -/
theorem run_writes_outputs_or_nothing_sample :
    letI := Libraries.plain
    Generates linkedFiles linkedLoader false linkedArgs "out" linkedOutputs ∧
    (∃ t, t = (run linkedFiles linkedLoader false linkedArgs).tree ∧
      t.fileAt? ⟨false, ["out", "y", "a"]⟩ = some 3 ∧ (t.files[3]?).map StoredFile.content = some "2" ∧
      t.files[2]? = some ⟨[["out", "x", "keep"]], "k"⟩) ∧
    (run linkedFiles linkedLoader false ["nope", "a.sb"]).exit = some 2 ∧
    (run linkedFiles linkedLoader false ["nope", "a.sb"]).tree = linkedFiles := by
  let := Libraries.plain
  have hgen : Generates linkedFiles linkedLoader false linkedArgs "out" linkedOutputs :=
    generates_iff.2 (by decide +kernel)
  have hnot : ∀ dest files, ¬ Generates linkedFiles linkedLoader false ["nope", "a.sb"] dest files := by
    intro dest files h
    have hnone : planned linkedFiles linkedLoader false ["nope", "a.sb"] = none := by decide +kernel
    cases hnone.symm.trans (generates_iff.1 h)
  obtain ⟨-, -, hkeep, -, hdone⟩ :=
    (run_writes_outputs_or_nothing linkedFiles linkedLoader false linkedArgs).2.2 _ _ hgen
  have hexit : (run linkedFiles linkedLoader false linkedArgs).exit = some 0 := by decide +kernel
  have hx : (run linkedFiles linkedLoader false linkedArgs).tree.fileAt? ⟨false, ["out", "x", "a"]⟩ = some 3 := by
    decide +kernel
  have hy : (run linkedFiles linkedLoader false linkedArgs).tree.fileAt? ⟨false, ["out", "y", "a"]⟩ = some 3 := by
    decide +kernel
  have hplaces : outputPath "out" ["x", "a"] = .ok ⟨false, ["out", "x", "a"]⟩ ∧
      outputPath "out" ["y", "a"] = .ok ⟨false, ["out", "y", "a"]⟩ := by decide +kernel
  obtain ⟨p, i, hpath, hleads, hlast⟩ := hdone hexit [⟨["x", "a"], "1"⟩] ⟨["y", "a"], "2"⟩ [] rfl
  generalize (run linkedFiles linkedLoader false linkedArgs).tree = t at hkeep hx hy hleads hlast ⊢
  cases hpath.symm.trans hplaces.2
  cases hleads.symm.trans hy
  refine ⟨hgen, ⟨t, rfl, hy, hlast ?_, ?_⟩, by decide +kernel, ?_⟩
  · rintro ⟨f, hf, -⟩
    cases hf
  · refine (hkeep 2 ?_).trans (by decide +kernel)
    rintro ⟨f, hf, p, hp, htwo⟩
    obtain rfl | rfl : f = ⟨["x", "a"], "1"⟩ ∨ f = ⟨["y", "a"], "2"⟩ := by simpa [linkedOutputs] using hf
    · cases hp.symm.trans hplaces.1
      cases htwo.symm.trans hx
    · cases hp.symm.trans hplaces.2
      cases htwo.symm.trans hy
  · exact (run_writes_outputs_or_nothing _ _ _ _).2.1 hnot

/-- Where a path goes through a link, it need not lead to the last content that was generated for this path. -/
theorem run_overwrites_through_link :
    letI := Libraries.plain
    Generates linkedFiles linkedLoader false linkedArgs "out" [⟨["x", "a"], "1"⟩, ⟨["y", "a"], "2"⟩] ∧
    (∃ o, o = run linkedFiles linkedLoader false linkedArgs ∧ o.exit = some 0 ∧
      o.tree.readFile "out/x/a" = .ok "2") ∧
    outputPath "out" ["x", "a"] = .ok ⟨false, ["out", "x", "a"]⟩ ∧
    outputPath "out" ["y", "a"] = .ok ⟨false, ["out", "y", "a"]⟩ := by
  let := Libraries.plain
  refine ⟨generates_iff.2 (by decide +kernel), ⟨_, rfl, by decide +kernel, by decide +kernel⟩, by decide +kernel, ?_⟩
  decide +kernel

end Command

end Flatwire
