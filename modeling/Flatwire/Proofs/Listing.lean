import Flatwire.Proofs.Naming
import Flatwire.Proofs.Quoting
import Flatwire.Schema.LayoutText

/-! What the layout of a schema tells as text. Blocks and the lines in them can be told apart, and each line tells the
names, the numbers and the written forms in it. -/

namespace Flatwire

namespace TypeDef

/-- The type with other places in it. -/
def renumber (f : TypeId → TypeId) : TypeDef → TypeDef
  | list e => .list (f e)
  | sequence q => .sequence { q with fields := q.fields.map fun x => { x with type := f x.type } }
  | oneOf o => .oneOf { o with variants := o.variants.map fun v => { v with type := f v.type } }
  | t => t

/-- The type but for the places in it. -/
def skeleton (t : TypeDef) : TypeDef := t.renumber fun _ => 0

/-- The names of the items, fields or variants of a type. -/
def memberNames : TypeDef → List Bytes
  | enum e => e.variants.map EnumVariant.name
  | sequence q => q.fields.map Field.name
  | oneOf o => o.variants.map Variant.name
  | _ => []

theorem map_eq_map_of {α β γ : Type} {xs ys : List α} {a b : α → β} {c d : α → γ} (h : xs.map a = ys.map b)
    (himp : ∀ x ∈ xs, ∀ y ∈ ys, a x = b y → c x = d y) : xs.map c = ys.map d := by
  induction xs generalizing ys with
  | nil =>
    cases ys with
    | nil => rfl
    | cons y ys => cases h
  | cons x xs ih =>
    cases ys with
    | nil => cases h
    | cons y ys =>
      obtain ⟨hx, hxs⟩ := List.cons.inj h
      rw [List.map_cons, List.map_cons, himp x List.mem_cons_self y List.mem_cons_self hx]
      rw [ih hxs fun x hx y hy => himp x (List.mem_cons_of_mem _ hx) y (List.mem_cons_of_mem _ hy)]

theorem eq_map_of {α β : Type} {xs ys : List α} {key : α → β} {ref : α → TypeId} {f : TypeId → TypeId} {g : α → α}
    (hkey : xs.map key = ys.map key) (href : ys.map ref = (xs.map ref).map f)
    (hg : ∀ x y, key x = key y → ref y = f (ref x) → y = g x) : ys = xs.map g := by
  induction xs generalizing ys with
  | nil => exact List.map_eq_nil_iff.1 hkey.symm
  | cons x xs ih =>
    cases ys with
    | nil => cases hkey
    | cons y ys =>
      obtain ⟨hx, hxs⟩ := List.cons.inj hkey
      obtain ⟨hy, hys⟩ := List.cons.inj href
      rw [List.map_cons, ← hg x y hx hy, ← ih hxs hys]

theorem eq_renumber {t t' : TypeDef} {f : TypeId → TypeId} (hskeleton : t.skeleton = t'.skeleton)
    (hrefs : t'.refs = t.refs.map f) : t' = t.renumber f := by
  cases t with
  | primitive | string | enum =>
    cases t' <;> cases hskeleton
    rfl
  | list e =>
    cases t' <;> cases hskeleton
    exact congrArg list (List.cons.inj hrefs).1
  | sequence q =>
    cases t' with
    | sequence q' =>
      obtain ⟨name, size, fs⟩ := q
      obtain ⟨name', size', gs⟩ := q'
      obtain ⟨rfl, rfl, hfields⟩ := SequenceType.mk.inj (TypeDef.sequence.inj hskeleton)
      have hgs : gs = fs.map fun x => { x with type := f x.type } := by
        refine eq_map_of hfields hrefs fun x y hkey href => ?_
        obtain ⟨hname, hoffset, -⟩ := Field.mk.inj hkey
        rw [hname, hoffset, ← href]
      rw [hgs]
      rfl
    | _ => cases hskeleton
  | oneOf o =>
    cases t' with
    | oneOf o' =>
      obtain ⟨path, vs⟩ := o
      obtain ⟨path', ws⟩ := o'
      obtain ⟨rfl, hvariants⟩ := OneOfType.mk.inj (TypeDef.oneOf.inj hskeleton)
      have hws : ws = vs.map fun v => { v with type := f v.type } := by
        refine eq_map_of hvariants hrefs fun x y hkey href => ?_
        obtain ⟨hname, htag, -⟩ := Variant.mk.inj hkey
        rw [hname, htag, ← href]
      rw [hws]
      rfl
    | _ => cases hskeleton

end TypeDef

/-- What makes a listing readable: names are words, and only types that have a block are listed. -/
structure Schema.Legible (s : Schema) : Prop extends s.Identified where
  members : ∀ id t, s.type? id = some t → AllNames t.memberNames
  named : ∀ id ∈ s.decls, s.declName? id ≠ none
  unionPlaces : ∀ id ∈ s.oneOfs, ∃ o, s.type? id = some (.oneOf o)

/-! ### Blocks -/

namespace LayoutText

variable {s s' : Schema} {r r' : Bytes} {id : TypeId}

/-- The head of a type's block and the lines in it. -/
def describe (s : Schema) : TypeDef → Bytes × List Bytes
  | .enum e => ("enum " ++ e.name, ("width = " ++ Bytes.decimal e.width.toNat) ::
      e.variants.map fun v => v.name ++ " = " ++ Bytes.decimal v.value.toNat)
  | .sequence q => ("sequence " ++ q.name, ("static_size = " ++ Bytes.decimal q.size.toNat) ::
      q.fields.map fun f => f.name ++ ": " ++ s.typeName f.type ++ " @ " ++ Bytes.decimal f.offset.toNat)
  | .oneOf o => ("oneof " ++ pathName o.path,
      o.variants.map fun v => v.name ++ ": " ++ s.typeName v.type ++ " = " ++ Bytes.decimal v.tag.toNat)
  | _ => ([], [])

/-- What is listed of the type at a place. -/
def entry (s : Schema) (id : TypeId) : Bytes × List Bytes := ((s.type? id).map (describe s)).getD ([], [])

theorem entry_eq {t : TypeDef} (h : s.type? id = some t) : entry s id = describe s t := by
  rw [entry, h]
  rfl

def indented (l : Bytes) : Bytes := 0x09 :: l ++ [0x0A]

/-- The text of a block. -/
def render (b : Bytes × List Bytes) : Bytes :=
  b.1 ++ Bytes.ofString " \x7b" ++ 0x0A :: (b.2.flatMap indented ++ [0x7D, 0x0A])

theorem flatten_block (head : Bytes) (body : List Bytes) :
    ((block head body).flatMap Line.pieces).flatten = render (head, body) := by
  have hbody : ((body.map (Line.mk 1)).flatMap Line.pieces).flatten = body.flatMap indented := by
    induction body with
    | nil => rfl
    | cons l ls ih =>
      rw [List.map_cons, List.flatMap_cons, List.flatten_append, ih, List.flatMap_cons]
      simp [Line.pieces, indented]
  have hclose : Bytes.ofString "\x7d" = [0x7D] := rfl
  rw [block, List.flatMap_append, List.flatten_append, List.flatMap_cons, List.flatten_append, hbody]
  simp [Line.pieces, render, hclose]

theorem flatMap_filterMap_of {α β γ : Type} {xs : List α} {g : α → Option β} {h : β → List γ} {k : α → List γ}
    (hx : ∀ x ∈ xs, ∃ y, g x = some y ∧ h y = k x) : (xs.filterMap g).flatMap h = xs.flatMap k := by
  induction xs with
  | nil => rfl
  | cons x xs ih =>
    obtain ⟨⟨y, hy, hk⟩, hxs⟩ := List.forall_mem_cons.1 hx
    rw [List.filterMap_cons_some hy, List.flatMap_cons, List.flatMap_cons, hk, ih hxs]

theorem flatten_flatMap {α : Type} (xs : List α) (g : α → List Line) :
    ((xs.flatMap g).flatMap Line.pieces).flatten = xs.flatMap fun x => ((g x).flatMap Line.pieces).flatten := by
  induction xs with
  | nil => rfl
  | cons x xs ih => rw [List.flatMap_cons, List.flatMap_append, List.flatten_append, ih, List.flatMap_cons]

theorem layoutText_eq (h : s.Legible) : s.layoutText =
    "schema " ++ (Text.quote s.name ++ 0x0A :: (s.decls.map (entry s) ++ s.oneOfs.map (entry s)).flatMap render) := by
  have hdecls : s.declTypes.flatMap (declLines s) = s.decls.flatMap fun id => block (entry s id).1 (entry s id).2 := by
    refine flatMap_filterMap_of fun id hid => ?_
    obtain ⟨n, hn⟩ := Option.ne_none_iff_exists'.1 (h.named id hid)
    obtain ⟨t, ht, hname⟩ := Option.bind_eq_some_iff.1 hn
    refine ⟨t, ht, ?_⟩
    rw [entry_eq ht]
    cases t with
    | enum | sequence => rfl
    | primitive | string | list | oneOf => cases hname
  have hunions : (s.unions.flatMap fun p => oneOfLines s p.2) =
      s.oneOfs.flatMap fun id => block (entry s id).1 (entry s id).2 := by
    refine flatMap_filterMap_of fun id hid => ?_
    obtain ⟨o, ho⟩ := h.unionPlaces id hid
    refine ⟨(id, o), by rw [ho], ?_⟩
    rw [entry_eq ho]
    rfl
  have hrender : ∀ ids : List TypeId,
      ((ids.flatMap fun id => block (entry s id).1 (entry s id).2).flatMap Line.pieces).flatten =
        (ids.map (entry s)).flatMap render := by
    intro ids
    rw [flatten_flatMap, List.flatMap_map]
    simp only [flatten_block]
  rw [Schema.layoutText, pieces, lines, hdecls, hunions, List.flatMap_cons, List.flatten_append, List.flatMap_append,
    List.flatten_append, hrender, hrender, List.flatMap_append]
  simp [Line.pieces, title]

/-! ### Lines -/

/-- The text has no line end in it. -/
def OneLine (bs : Bytes) : Prop := ∀ b ∈ bs, (b ≠ 0x0A : Bool) = true

theorem oneLine_append {bs cs : Bytes} : OneLine (bs ++ cs) ↔ OneLine bs ∧ OneLine cs := List.forall_mem_append

theorem oneLine_ofString {w : String} (h : (Bytes.ofString w).all (· ≠ 0x0A) = true) : OneLine w := List.all_eq_true.1 h

theorem flatMap_indented_inj {ls ms : List Bytes} (hl : ∀ l ∈ ls, OneLine l) (hm : ∀ m ∈ ms, OneLine m)
    (h : ls.flatMap indented ++ 0x7D :: r = ms.flatMap indented ++ 0x7D :: r') : ls = ms ∧ r = r' := by
  induction ls generalizing ms with
  | nil =>
    cases ms with
    | nil => exact ⟨rfl, (List.cons.inj h).2⟩
    | cons m ms => cases (List.cons.inj h).1
  | cons l ls ih =>
    cases ms with
    | nil => cases (List.cons.inj h).1
    | cons m ms =>
      obtain ⟨hl₀, hls⟩ := List.forall_mem_cons.1 hl
      obtain ⟨hm₀, hms⟩ := List.forall_mem_cons.1 hm
      simp only [List.flatMap_cons, indented, List.cons_append, List.append_assoc, List.cons.injEq, true_and] at h
      obtain ⟨rfl, hrest⟩ := Token.append_inj_of_span hl₀ hm₀ (by simp) (by simp) h
      obtain ⟨rfl, rfl⟩ := ih hls hms (List.cons.inj hrest).2
      exact ⟨rfl, rfl⟩

/-- The block can be written line by line. -/
def Tidy (b : Bytes × List Bytes) : Prop := OneLine b.1 ∧ ∀ l ∈ b.2, OneLine l

theorem render_append_inj {b c : Bytes × List Bytes} (hb : Tidy b) (hc : Tidy c)
    (h : render b ++ r = render c ++ r') : b = c ∧ r = r' := by
  have hopen : OneLine " \x7b" := oneLine_ofString (by decide)
  simp only [render, List.append_assoc, List.cons_append, List.nil_append] at h
  rw [← List.append_assoc b.1, ← List.append_assoc c.1] at h
  obtain ⟨hhead, hrest⟩ := Token.append_inj_of_span (oneLine_append.2 ⟨hb.1, hopen⟩) (oneLine_append.2 ⟨hc.1, hopen⟩)
    (by simp) (by simp) h
  obtain ⟨hbody, hrest⟩ := flatMap_indented_inj hb.2 hc.2 (List.cons.inj hrest).2
  exact ⟨Prod.ext (List.append_cancel_right hhead) hbody, (List.cons.inj hrest).2⟩

theorem flatMap_render_inj {bs cs : List (Bytes × List Bytes)} (hb : ∀ b ∈ bs, Tidy b) (hc : ∀ c ∈ cs, Tidy c)
    (h : bs.flatMap render = cs.flatMap render) : bs = cs := by
  have hne : ∀ b r, render b ++ r ≠ [] := by simp [render]
  induction bs generalizing cs with
  | nil =>
    cases cs with
    | nil => rfl
    | cons c cs => exact absurd h.symm (hne c _)
  | cons b bs ih =>
    cases cs with
    | nil => exact absurd h (hne b _)
    | cons c cs =>
      obtain ⟨hb₀, hbs⟩ := List.forall_mem_cons.1 hb
      obtain ⟨hc₀, hcs⟩ := List.forall_mem_cons.1 hc
      obtain ⟨rfl, hrest⟩ := render_append_inj hb₀ hc₀ h
      rw [ih hbs hcs hrest]

/-- The bytes of written forms. -/
def isFormByte (b : UInt8) : Bool := Token.isWord b || b == 0x20 || b == 0x3A || b == 0x5B || b == 0x5D

theorem isFormByte_of_isWord {w : Bytes} (h : Token.isName w = true) : ∀ b ∈ w, isFormByte b = true := by
  intro b hb
  rw [isFormByte, Token.isWord_of_isName h b hb]
  rfl

theorem isFormByte_pathName {path : List Bytes} (h : AllNames path) : ∀ b ∈ pathName path, isFormByte b = true := by
  unfold pathName
  induction path with
  | nil => exact fun b hb => absurd hb List.not_mem_nil
  | cons n ns ih =>
    obtain ⟨hn, hns⟩ := List.forall_mem_cons.1 h
    cases ns with
    | nil => exact isFormByte_of_isWord hn
    | cons m ms =>
      have hjoin : Bytes.join "::" (n :: m :: ms) = n ++ Bytes.ofString "::" ++ Bytes.join "::" (m :: ms) := rfl
      rw [hjoin, List.forall_mem_append, List.forall_mem_append]
      exact ⟨⟨isFormByte_of_isWord hn, List.all_eq_true.1 (by decide)⟩, ih hns⟩

theorem isFormByte_typeName (h : s.Identified) (id : TypeId) : ∀ b ∈ s.typeName id, isFormByte b = true := by
  have hspelled : ∀ n, s.Spelled id n → ∀ b ∈ n, isFormByte b = true := by
    intro n hn
    induction hn with
    | @primitive _ k _ => cases k <;> decide +kernel
    | string => decide +kernel
    | list _ _ ih =>
      rw [List.forall_mem_append, List.forall_mem_append]
      exact ⟨⟨List.all_eq_true.1 (by decide), ih⟩, List.all_eq_true.1 (by decide)⟩
    | @enum i e ht => exact isFormByte_of_isWord (h.names i e.name (by rw [Schema.declName?, ht]; rfl)).1
    | @sequence i q ht => exact isFormByte_of_isWord (h.names i q.name (by rw [Schema.declName?, ht]; rfl)).1
    | oneOf ht =>
      rw [List.forall_mem_append]
      exact ⟨List.all_eq_true.1 (by decide), isFormByte_pathName (h.paths _ _ ht).2⟩
  rw [Schema.typeName]
  cases hname : s.typeName? id with
  | none => exact fun b hb => absurd hb List.not_mem_nil
  | some n => exact hspelled n (h.typeName?_iff.1 hname)

theorem oneLine_of_isFormByte {bs : Bytes} (h : ∀ b ∈ bs, isFormByte b = true) : OneLine bs := by
  intro b hb
  refine decide_eq_true fun heq => ?_
  subst heq
  cases h _ hb

theorem oneLine_decimal (n : Nat) : OneLine (Bytes.decimal n) := by
  intro b hb
  refine decide_eq_true fun heq => ?_
  subst heq
  cases Bytes.isDecimal_of_mem _ hb

theorem decimal_injective {m n : Nat} (h : Bytes.decimal m = Bytes.decimal n) : m = n := by
  rw [← Bytes.decimal_value m, h, Bytes.decimal_value]

theorem itemLine_inj {n n' : Bytes} {k k' : Nat} (hn : Token.isName n = true) (hn' : Token.isName n' = true)
    (h : n ++ " = " ++ Bytes.decimal k = n' ++ " = " ++ Bytes.decimal k') : n = n' ∧ k = k' := by
  rw [List.append_assoc, List.append_assoc] at h
  obtain ⟨rfl, hrest⟩ := Token.append_inj_of_span (Token.isWord_of_isName hn) (Token.isWord_of_isName hn')
    (by rintro b ⟨⟩; decide) (by rintro b ⟨⟩; decide) h
  exact ⟨rfl, decimal_injective (List.append_cancel_left hrest)⟩

theorem memberLine_inj {n n' form form' mark : Bytes} {k k' : Nat} (hn : Token.isName n = true)
    (hn' : Token.isName n' = true) (hform : ∀ b ∈ form, isFormByte b = true) (hform' : ∀ b ∈ form', isFormByte b = true)
    (hmark : ∃ m r, mark = 0x20 :: m :: r ∧ isFormByte m = false)
    (h : n ++ ": " ++ form ++ mark ++ Bytes.decimal k = n' ++ ": " ++ form' ++ mark ++ Bytes.decimal k') :
    n = n' ∧ form = form' ∧ k = k' := by
  obtain ⟨m, r, rfl, hm⟩ := hmark
  have hblank : ∀ form : Bytes, (∀ b ∈ form, isFormByte b = true) → ∀ b ∈ form ++ [0x20], isFormByte b = true :=
    fun form hform => List.forall_mem_append.2 ⟨hform, List.all_eq_true.1 (by decide)⟩
  simp only [List.append_assoc] at h
  obtain ⟨rfl, hrest⟩ := Token.append_inj_of_span (Token.isWord_of_isName hn) (Token.isWord_of_isName hn')
    (by rintro b ⟨⟩; decide) (by rintro b ⟨⟩; decide) h
  -- the blank in front of the mark may stand in a form, the mark may not
  have hrest := List.append_cancel_left hrest
  simp only [List.cons_append] at hrest
  rw [List.append_cons form, List.append_cons form'] at hrest
  obtain ⟨hforms, hrest⟩ := Token.append_inj_of_span (hblank form hform) (hblank form' hform')
    (by rintro b ⟨⟩; exact hm) (by rintro b ⟨⟩; exact hm) hrest
  exact ⟨rfl, List.append_cancel_right hforms, decimal_injective (List.append_cancel_left (List.cons.inj hrest).2)⟩

/-! ### What a block tells -/

variable {i j : TypeId} {t t' : TypeDef}

theorem oneLine_name {n : Bytes} (h : Token.isName n = true) : OneLine n :=
  oneLine_of_isFormByte (isFormByte_of_isWord h)

theorem oneLine_member (h : s.Legible) {n : Bytes} {mark : String} {k : Nat} (hn : Token.isName n = true)
    (hmark : (Bytes.ofString mark).all (· ≠ 0x0A) = true) (id : TypeId) :
    OneLine (n ++ ": " ++ s.typeName id ++ mark ++ Bytes.decimal k) := by
  simp only [oneLine_append]
  exact ⟨⟨⟨⟨oneLine_name hn, oneLine_ofString (by decide)⟩,
    oneLine_of_isFormByte (isFormByte_typeName h.toIdentified id)⟩, oneLine_ofString hmark⟩, oneLine_decimal k⟩

theorem tidy_describe (h : s.Legible) (ht : s.type? i = some t) : Tidy (describe s t) := by
  have hmembers := h.members i t ht
  cases t with
  | primitive | string | list => exact ⟨fun b hb => absurd hb List.not_mem_nil, fun l hl => absurd hl List.not_mem_nil⟩
  | enum e =>
    have hname := (h.names i e.name (by rw [Schema.declName?, ht]; rfl)).1
    refine ⟨oneLine_append.2 ⟨oneLine_ofString (by decide), oneLine_name hname⟩, List.forall_mem_cons.2 ⟨?_, ?_⟩⟩
    · exact oneLine_append.2 ⟨oneLine_ofString (by decide), oneLine_decimal _⟩
    · intro l hl
      obtain ⟨v, hv, rfl⟩ := List.mem_map.1 hl
      simp only [oneLine_append]
      exact ⟨⟨oneLine_name (hmembers _ (List.mem_map_of_mem hv)), oneLine_ofString (by decide)⟩, oneLine_decimal _⟩
  | sequence q =>
    have hname := (h.names i q.name (by rw [Schema.declName?, ht]; rfl)).1
    refine ⟨oneLine_append.2 ⟨oneLine_ofString (by decide), oneLine_name hname⟩, List.forall_mem_cons.2 ⟨?_, ?_⟩⟩
    · exact oneLine_append.2 ⟨oneLine_ofString (by decide), oneLine_decimal _⟩
    · intro l hl
      obtain ⟨f, hf, rfl⟩ := List.mem_map.1 hl
      exact oneLine_member h (hmembers _ (List.mem_map_of_mem hf)) (by decide) f.type
  | oneOf o =>
    have hpath := oneLine_of_isFormByte (isFormByte_pathName (h.paths i o ht).2)
    refine ⟨oneLine_append.2 ⟨oneLine_ofString (by decide), hpath⟩, fun l hl => ?_⟩
    obtain ⟨v, hv, rfl⟩ := List.mem_map.1 hl
    exact oneLine_member h (hmembers _ (List.mem_map_of_mem hv)) (by decide) v.type

theorem memberLines_inj {α : Type} {name : α → Bytes} {ref : α → TypeId} {num : α → Nat} {mark : Bytes}
    {xs ys : List α} (blank : α → α) (h : s.Identified) (h' : s'.Identified) (hx : AllNames (xs.map name))
    (hy : AllNames (ys.map name)) (hmark : ∃ m r, mark = 0x20 :: m :: r ∧ isFormByte m = false)
    (hblank : ∀ x y, name x = name y → num x = num y → blank x = blank y)
    (heq : (xs.map fun x => name x ++ ": " ++ s.typeName (ref x) ++ mark ++ Bytes.decimal (num x)) =
      ys.map fun y => name y ++ ": " ++ s'.typeName (ref y) ++ mark ++ Bytes.decimal (num y)) :
    xs.map blank = ys.map blank ∧ (xs.map ref).map s.typeName = (ys.map ref).map s'.typeName := by
  have hlines : ∀ x ∈ xs, ∀ y ∈ ys, _ = _ →
      name x = name y ∧ s.typeName (ref x) = s'.typeName (ref y) ∧ num x = num y := fun x hxs y hys =>
    memberLine_inj (hx _ (List.mem_map_of_mem hxs)) (hy _ (List.mem_map_of_mem hys))
      (isFormByte_typeName h _) (isFormByte_typeName h' _) hmark
  rw [List.map_map, List.map_map]
  refine ⟨TypeDef.map_eq_map_of heq fun x hx y hy hline => ?_, TypeDef.map_eq_map_of heq fun x hx y hy hline => ?_⟩
  · obtain ⟨hname, -, hnum⟩ := hlines x hx y hy hline
    exact hblank x y hname hnum
  · exact (hlines x hx y hy hline).2.1

theorem enumItems_inj {vs ws : List EnumVariant} (hv : AllNames (vs.map EnumVariant.name))
    (hw : AllNames (ws.map EnumVariant.name))
    (heq : (vs.map fun v => v.name ++ " = " ++ Bytes.decimal v.value.toNat) =
      ws.map fun w => w.name ++ " = " ++ Bytes.decimal w.value.toNat) : vs = ws := by
  have hid : vs.map id = ws.map id := by
    refine TypeDef.map_eq_map_of heq fun v hvs w hws hline => ?_
    obtain ⟨hname, hvalue⟩ := itemLine_inj (hv _ (List.mem_map_of_mem hvs)) (hw _ (List.mem_map_of_mem hws)) hline
    exact congrArg₂ EnumVariant.mk hname (UInt64.toNat_inj.1 hvalue)
  rwa [List.map_id, List.map_id] at hid

theorem describe_inj (h : s.Legible) (h' : s'.Legible) (ht : s.type? i = some t) (ht' : s'.type? j = some t')
    (hfill : Builder.needsFilling t = true) (hfill' : Builder.needsFilling t' = true)
    (heq : describe s t = describe s' t') :
    t.skeleton = t'.skeleton ∧ t.refs.map s.typeName = t'.refs.map s'.typeName := by
  obtain ⟨hhead, hbody⟩ := Prod.mk.inj heq
  have hmembers := h.members i t ht
  have hmembers' := h'.members j t' ht'
  cases t with
  | primitive | string | list => cases hfill
  | enum e =>
    cases t' with
    | primitive | string | list => cases hfill'
    | sequence | oneOf => cases (List.cons.inj hhead).1
    | enum e' =>
      obtain ⟨name, width, vs⟩ := e
      obtain ⟨name', width', vs'⟩ := e'
      obtain rfl : name = name' := List.append_cancel_left hhead
      obtain ⟨hwidth, hitems⟩ := List.cons.inj hbody
      obtain rfl : width = width' := UInt8.toNat_inj.1 (decimal_injective (List.append_cancel_left hwidth))
      obtain rfl : vs = vs' := enumItems_inj hmembers hmembers' hitems
      exact ⟨rfl, rfl⟩
  | sequence q =>
    cases t' with
    | primitive | string | list => cases hfill'
    | enum | oneOf => cases (List.cons.inj hhead).1
    | sequence q' =>
      obtain ⟨name, size, fs⟩ := q
      obtain ⟨name', size', gs⟩ := q'
      obtain rfl : name = name' := List.append_cancel_left hhead
      obtain ⟨hsize, hfields⟩ := List.cons.inj hbody
      obtain rfl : size = size' := UInt16.toNat_inj.1 (decimal_injective (List.append_cancel_left hsize))
      obtain ⟨hskeleton, hforms⟩ := memberLines_inj (fun f => { f with type := 0 }) h.toIdentified
        h'.toIdentified hmembers hmembers' ⟨0x40, [0x20], rfl, rfl⟩
        (fun f g hname hoffset => by rw [hname, UInt16.toNat_inj.1 hoffset]) hfields
      exact ⟨congrArg (fun fields => TypeDef.sequence ⟨name, size, fields⟩) hskeleton, hforms⟩
  | oneOf o =>
    cases t' with
    | primitive | string | list => cases hfill'
    | enum | sequence => cases (List.cons.inj hhead).1
    | oneOf o' =>
      obtain ⟨hne, hnames⟩ := h.paths i o ht
      obtain ⟨hne', hnames'⟩ := h'.paths j o' ht'
      have hpath := pathName_injective hnames hnames' hne hne' (List.append_cancel_left hhead)
      obtain ⟨path, vs⟩ := o
      obtain ⟨path', ws⟩ := o'
      obtain rfl : path = path' := hpath
      obtain ⟨hskeleton, hforms⟩ := memberLines_inj (fun v => { v with type := 0 }) h.toIdentified
        h'.toIdentified hmembers hmembers' ⟨0x3D, [0x20], rfl, rfl⟩
        (fun v w hname htag => by rw [hname, UInt8.toNat_inj.1 htag]) hbody
      exact ⟨congrArg (fun variants => TypeDef.oneOf ⟨path, variants⟩) hskeleton, hforms⟩

theorem describe_renumber {f : TypeId → TypeId} (h : ∀ id ∈ t.refs, s'.typeName (f id) = s.typeName id) :
    describe s' (t.renumber f) = describe s t := by
  cases t with
  | primitive | string | list | enum => rfl
  | sequence q =>
    have hfields : ∀ x ∈ q.fields, s'.typeName (f x.type) = s.typeName x.type := fun x hx =>
      h x.type (List.mem_map_of_mem hx)
    simp only [TypeDef.renumber, describe, List.map_map]
    congr 2
    refine List.map_congr_left fun x hx => ?_
    rw [Function.comp_apply, hfields x hx]
  | oneOf o =>
    have hvariants : ∀ v ∈ o.variants, s'.typeName (f v.type) = s.typeName v.type := fun v hv =>
      h v.type (List.mem_map_of_mem hv)
    simp only [TypeDef.renumber, describe, List.map_map]
    congr 1
    refine List.map_congr_left fun v hv => ?_
    rw [Function.comp_apply, hvariants v hv]

/-- What is listed stands in the arena; the keyword tells unions from declarations. -/
theorem listed_decl (h : s.Legible) (hid : id ∈ s.decls) : ∃ t, s.type? id = some t ∧ Builder.needsFilling t = true ∧
    (entry s id).1.head? ≠ some 0x6F := by
  obtain ⟨n, hn⟩ := Option.ne_none_iff_exists'.1 (h.named id hid)
  obtain ⟨t, ht, hname⟩ := Option.bind_eq_some_iff.1 hn
  refine ⟨t, ht, ?_⟩
  rw [entry_eq ht]
  cases t with
  | enum e =>
    have hhead : (describe s (.enum e)).1.head? = some 0x65 := rfl
    exact ⟨rfl, by simp [hhead]⟩
  | sequence q =>
    have hhead : (describe s (.sequence q)).1.head? = some 0x73 := rfl
    exact ⟨rfl, by simp [hhead]⟩
  | primitive | string | list | oneOf => cases hname

theorem listed_union (h : s.Legible) (hid : id ∈ s.oneOfs) :
    ∃ o, s.type? id = some (.oneOf o) ∧ (entry s id).1.head? = some 0x6F := by
  obtain ⟨o, ho⟩ := h.unionPlaces id hid
  refine ⟨o, ho, ?_⟩
  rw [entry_eq ho]
  rfl

theorem tidy_entries (h : s.Legible) : ∀ b ∈ s.decls.map (entry s) ++ s.oneOfs.map (entry s), Tidy b := by
  rw [List.forall_mem_append, List.forall_mem_map, List.forall_mem_map]
  refine ⟨fun id hid => ?_, fun id hid => ?_⟩
  · obtain ⟨t, ht, -⟩ := listed_decl h hid
    exact entry_eq ht ▸ tidy_describe h ht
  · obtain ⟨o, ho, -⟩ := listed_union h hid
    exact entry_eq ho ▸ tidy_describe h ho

theorem layoutText_eq_iff (h : s.Legible) (h' : s'.Legible) : s.layoutText = s'.layoutText ↔
    s.name = s'.name ∧ s.decls.map (entry s) = s'.decls.map (entry s') ∧
      s.oneOfs.map (entry s) = s'.oneOfs.map (entry s') := by
  rw [layoutText_eq h, layoutText_eq h']
  constructor
  · intro heq
    obtain ⟨hname, hrest⟩ := Text.quote_append_inj (List.append_cancel_left heq)
    have hentries := flatMap_render_inj (tidy_entries h) (tidy_entries h') (List.cons.inj hrest).2
    have hdecl : ∀ {s : Schema}, s.Legible → ∀ b ∈ s.decls.map (entry s), (b.1.head? != some 0x6F) = true := by
      intro s h
      refine List.forall_mem_map.2 fun id hid => ?_
      obtain ⟨-, -, -, hhead⟩ := listed_decl h hid
      simpa using hhead
    have hunion : ∀ {s : Schema}, s.Legible →
        ∀ b ∈ (s.oneOfs.map (entry s)).head?, (b.1.head? != some 0x6F) = false := by
      intro s h b hb
      obtain ⟨id, hid, rfl⟩ := List.mem_map.1 (List.mem_of_mem_head? hb)
      obtain ⟨-, -, hhead⟩ := listed_union h hid
      simp [hhead]
    exact ⟨hname, Token.append_inj_of_span (hdecl h) (hdecl h') (hunion h) (hunion h') hentries⟩
  · rintro ⟨hname, hdecls, hunions⟩
    rw [hname, hdecls, hunions]

end LayoutText

end Flatwire
