import Flatwire.Proofs.Declarations
import Mathlib.Data.List.Nodup

/-! The check of identifiers against the source that is generated. What is checked is, with a few members that nothing
can be equal to, what the source declares, so that the check finds a conflict exactly if something is declared twice. -/

namespace Flatwire.Generate

/-! ### Declarations and what they are made from -/

/-- Kinds of names in a schema that identifiers are made from. -/
inductive NameKind where
  | enum | enumVariant | sequence | field | oneOf | oneOfVariant
deriving DecidableEq, Repr

def NameKind.text : NameKind → String
  | enum => "enum"
  | enumVariant => "enum variant"
  | sequence => "sequence"
  | field => "field"
  | oneOf => "oneof"
  | oneOfVariant => "oneof variant"

/-- What a declaration is made from: a name of the schema, or no name, for a method that every type of its kind has. -/
inductive Origin where
  | name (kind : NameKind) (path : List Bytes)
  | method
deriving DecidableEq, Repr

structure Declaration where
  item : Item
  origin : Origin
deriving DecidableEq, Repr

/-- An item as it is called in messages. -/
def Item.key : Item → Bytes
  | package ident => ident
  | member type ident => type ++ "." ++ ident

/-- What a declaration is made from, as it is called in messages. -/
def Declaration.owner (d : Declaration) : Bytes :=
  match d.origin with
  | .name kind path => titled kind.text path
  | .method => "generated method `" ++ d.item.key ++ "`"

def Declaration.entry (d : Declaration) : Declared := ⟨d.item.key, d.owner⟩

section Made

variable [Libraries]

def enumDeclarations (e : EnumType) : List Declaration :=
  let name := exportedName e.name
  ⟨.package name, .name .enum [e.name]⟩ :: e.variants.map fun v =>
    ⟨.package (name ++ "_" ++ exportedName v.name), .name .enumVariant [e.name, v.name]⟩

def sequenceDeclarations (q : SequenceType) : List Declaration :=
  let own : Origin := .name .sequence [q.name]
  let writer := exportedName q.name ++ "Writer"
  let reader := exportedName q.name ++ "Reader"
  [⟨.package writer, own⟩, ⟨.package reader, own⟩, ⟨.package ("New" ++ reader), own⟩,
    ⟨.member writer "StaticSize", .method⟩, ⟨.member writer "WriteComponent", .method⟩,
    ⟨.member writer "Write", .method⟩, ⟨.member reader "Addr", .method⟩] ++
  q.fields.flatMap fun f =>
    [⟨.member writer (exportedName f.name), .name .field [q.name, f.name]⟩,
      ⟨.member reader (exportedName f.name), .name .field [q.name, f.name]⟩]

def unionDeclarations (o : OneOfType) : List Declaration :=
  let own : Origin := .name .oneOf o.path
  let name := unionName o.path
  let writer := name ++ "Writer"
  let reader := name ++ "Reader"
  [⟨.package writer, own⟩, ⟨.package reader, own⟩, ⟨.member reader "Addr", .method⟩, ⟨.member reader "Tag", .method⟩] ++
  o.variants.flatMap fun v =>
    let origin : Origin := .name .oneOfVariant (o.path ++ [v.name])
    [⟨.package (name ++ "_" ++ exportedName v.name), origin⟩,
      ⟨.package ("New" ++ writer ++ exportedName v.name), origin⟩,
      ⟨.member reader (Bytes.ofString "As" ++ exportedName v.name), origin⟩]

/-- The declarations of a type that are checked, in the order of the check. -/
def typeDeclarations : TypeDef → List Declaration
  | .enum e => enumDeclarations e
  | .sequence q => sequenceDeclarations q
  | .oneOf o => unionDeclarations o
  | _ => []

/-- Members of a type that are not checked. -/
def fixedItems : TypeDef → List Item
  | .enum e => ["StaticSize", "WriteComponent", "String"].map fun m => .member (exportedName e.name) (Bytes.ofString m)
  | .sequence q => ["buf", "addr"].map fun m => .member (exportedName q.name ++ "Reader") (Bytes.ofString m)
  | .oneOf o => .member (unionName o.path ++ "Writer") "OneOf" ::
      ["buf", "addr"].map fun m => .member (unionName o.path ++ "Reader") (Bytes.ofString m)
  | _ => []

def typeSource (s : Schema) : TypeDef → List Bytes
  | .enum e => enumSource e
  | .sequence q => sequenceSource s q
  | .oneOf o => unionSource s o
  | _ => []

/-- The types that source is generated for, in order. -/
def sourceTypes (s : Schema) : List TypeDef :=
  s.declTypes.filter (fun t => t.declName?.isSome) ++ s.unions.map fun u => .oneOf u.2

/-- The declarations of a schema's types that are checked. -/
def declarations (s : Schema) : List Declaration := (sourceTypes s).flatMap typeDeclarations

/-- The source after its header. -/
def body (s : Schema) : Bytes := Bytes.unlines ((sourceTypes s).flatMap (typeSource s))

end Made

def Item.packageIdent? : Item → Option Bytes
  | package ident => some ident
  | member _ _ => none

def Item.memberIdent? (type : Bytes) : Item → Option Bytes
  | package _ => none
  | member t ident => if t = type then some ident else none

/-- The identifiers of items at package level. -/
def packageIdents (items : List Item) : List Bytes := items.filterMap Item.packageIdent?

/-- The fields and methods of a type. -/
def memberIdents (type : Bytes) (items : List Item) : List Bytes := items.filterMap (Item.memberIdent? type)

theorem Item.memberIdent?_eq_some {type ident : Bytes} {i : Item} (h : i.memberIdent? type = some ident) :
    i = .member type ident := by
  cases i with
  | package => cases h
  | member t m =>
    rw [memberIdent?] at h
    split_ifs at h with ht
    rw [ht, Option.some.inj h]

theorem Item.packageIdent?_eq_some {ident : Bytes} {i : Item} (h : i.packageIdent? = some ident) :
    i = .package ident := by
  cases i with
  | package => rw [Option.some.inj h]
  | member => cases h

/-- Items are distinct if the identifiers at package level are, and so are the members of each type. -/
theorem nodup_iff_idents {items : List Item} :
    items.Nodup ↔ (packageIdents items).Nodup ∧ ∀ type, (memberIdents type items).Nodup := by
  constructor
  · intro h
    refine ⟨h.filterMap fun i j ident hi hj => ?_, fun type => h.filterMap fun i j ident hi hj => ?_⟩
    · rw [Item.packageIdent?_eq_some hi, Item.packageIdent?_eq_some hj]
    · rw [Item.memberIdent?_eq_some hi, Item.memberIdent?_eq_some hj]
  · rintro ⟨hpackage, hmembers⟩
    rw [List.Nodup, List.pairwise_iff_getElem]
    intro i j hi hj hij heq
    cases hitem : items[i] with
    | package ident =>
      rw [packageIdents, List.Nodup, List.pairwise_filterMap, List.pairwise_iff_getElem] at hpackage
      refine hpackage i j hi hj hij ident ?_ ident ?_ rfl
      · rw [hitem, Item.packageIdent?]
      · rw [← heq, hitem, Item.packageIdent?]
    | member type ident =>
      have hmembers := hmembers type
      rw [memberIdents, List.Nodup, List.pairwise_filterMap, List.pairwise_iff_getElem] at hmembers
      refine hmembers i j hi hj hij ident ?_ ident ?_ rfl
      · rw [hitem, Item.memberIdent?, if_pos rfl]
      · rw [← heq, hitem, Item.memberIdent?, if_pos rfl]

/-! ### The search for a conflict -/

variable {ds seen : List Declared} {c : NameConflict}

theorem firstConflict_eq_none_iff :
    firstConflict seen ds = none ↔ (ds.map Declared.ident).Nodup ∧ ∀ d ∈ ds, ∀ e ∈ seen, e.ident ≠ d.ident := by
  induction ds generalizing seen with
  | nil => simp [firstConflict]
  | cons d ds ih =>
    rw [firstConflict]
    cases hfind : seen.find? fun e => e.ident = d.ident with
    | some e =>
      have hident : e.ident = d.ident := by simpa using List.find?_some hfind
      simp only [reduceCtorEq, false_iff, not_and]
      exact fun _ h => h d List.mem_cons_self e (List.mem_of_find?_eq_some hfind) hident
    | none =>
      have hseen : ∀ e ∈ seen, e.ident ≠ d.ident := by simpa using hfind
      simp only [ih, List.map_cons, List.nodup_cons, List.mem_map, List.forall_mem_cons, not_exists, not_and]
      constructor
      · rintro ⟨hnodup, hnew⟩
        exact ⟨⟨fun e he heq => (hnew e he).1 heq.symm, hnodup⟩, hseen, fun e he => (hnew e he).2⟩
      · rintro ⟨⟨hnew, hnodup⟩, -, hrest⟩
        exact ⟨hnodup, fun e he => ⟨fun heq => hnew e he heq.symm, hrest e he⟩⟩

theorem firstConflict_eq_some (h : firstConflict seen ds = some c) : ∃ xs d ys e, ds = xs ++ d :: ys ∧
    (e ∈ seen ∨ e ∈ xs) ∧ e.ident = d.ident ∧ c = ⟨d.ident, e.owner, d.owner⟩ ∧ firstConflict seen xs = none := by
  induction ds generalizing seen with
  | nil => cases h
  | cons d ds ih =>
    rw [firstConflict] at h
    cases hfind : seen.find? fun e => e.ident = d.ident with
    | some e =>
      rw [hfind] at h
      have hident : e.ident = d.ident := by simpa using List.find?_some hfind
      exact ⟨[], d, ds, e, rfl, .inl (List.mem_of_find?_eq_some hfind), hident, (Option.some.inj h).symm, rfl⟩
    | none =>
      rw [hfind] at h
      obtain ⟨xs, d', ys, e, rfl, he, hident, hc, hnone⟩ := ih h
      refine ⟨d :: xs, d', ys, e, rfl, ?_, hident, hc, by rw [firstConflict, hfind]; exact hnone⟩
      rcases he with he | he
      · rcases List.mem_cons.1 he with rfl | he
        · exact .inr List.mem_cons_self
        · exact .inl he
      · exact .inr (List.mem_cons_of_mem _ he)

/-! ### Types and items -/

variable {s : Schema} {t : TypeDef} {id : TypeId}

theorem mem_sourceTypes (h : t ∈ sourceTypes s) : ∃ id, s.type? id = some t := by
  rcases List.mem_append.1 h with h | h
  · obtain ⟨id, -, ht⟩ := List.mem_filterMap.1 (List.mem_of_mem_filter h)
    exact ⟨id, ht⟩
  · obtain ⟨u, hu, rfl⟩ := List.mem_map.1 h
    obtain ⟨id, -, hid⟩ := List.mem_filterMap.1 hu
    split at hid
    · next o ho =>
      cases hid
      exact ⟨id, ho⟩
    · cases hid

theorem perm_flatMap_cons {α β : Type} (f : α → β) (g : α → List β) (xs : List α) :
    (xs.flatMap fun x => f x :: g x).Perm (xs.map f ++ xs.flatMap g) := by
  have h := List.flatMap_append_perm xs (fun x => [f x]) g
  rw [← List.map_eq_flatMap] at h
  exact h.symm

theorem pathName_concat {path : List Bytes} (h : path ≠ []) (n : Bytes) :
    pathName (path ++ [n]) = pathName [pathName path, n] := by
  unfold pathName
  induction path with
  | nil => exact absurd rfl h
  | cons p ps ih =>
    cases ps with
    | nil => rfl
    | cons q ps =>
      have htail := ih (List.cons_ne_nil q ps)
      have hjoin : ∀ r rs, Bytes.join "::" (p :: r :: rs) = p ++ "::" ++ Bytes.join "::" (r :: rs) :=
        fun _ _ => rfl
      rw [List.cons_append, List.cons_append, hjoin, ← List.cons_append, htail, hjoin]
      simp only [Bytes.join, List.append_assoc]

theorem flatMap_filter_of_nil {α β : Type} {p : α → Bool} {f g : α → List β} {xs : List α}
    (hpos : ∀ x ∈ xs, p x = true → f x = g x) (hneg : ∀ x ∈ xs, p x = false → f x = []) :
    xs.flatMap f = (xs.filter p).flatMap g := by
  induction xs with
  | nil => rfl
  | cons x xs ih =>
    obtain ⟨hx, hxs⟩ := List.forall_mem_cons.1 hpos
    obtain ⟨hx', hxs'⟩ := List.forall_mem_cons.1 hneg
    rw [List.flatMap_cons, ih hxs hxs']
    cases hp : p x with
    | true => rw [List.filter_cons_of_pos hp, List.flatMap_cons, hx hp]
    | false => rw [List.filter_cons_of_neg (by simp [hp]), hx' hp, List.nil_append]

/-- The identifiers of an item are words. -/
def Item.IsSpoken : Item → Prop
  | package ident => IsWord ident
  | member type ident => IsWord type ∧ IsWord ident

theorem Item.key_injective {i j : Item} (hi : i.IsSpoken) (hj : j.IsSpoken) (h : i.key = j.key) : i = j := by
  have hdot : ∀ type ident w : Bytes, IsWord w → type ++ "." ++ ident ≠ w := by
    rintro type ident _ hw rfl
    exact hw.not_mem (b := 0x2E) (by decide) (by simp +decide)
  cases i with
  | package a =>
    cases j with
    | package b => exact congrArg package h
    | member type b => exact absurd h.symm (hdot type b a hi)
  | member type a =>
    cases j with
    | package b => exact absurd h (hdot type a b hj)
    | member type' b =>
      simp only [key, List.append_assoc] at h
      obtain ⟨rfl, hrest⟩ := Token.append_inj_of_span hi.1 hj.1 (by rintro b ⟨⟩; decide) (by rintro b ⟨⟩; decide) h
      rw [List.append_cancel_left hrest]

variable [Libraries]

/-! ### What is checked -/

theorem entries_enum (e : EnumType) : (enumDeclarations e).map Declaration.entry = enumDeclared e := by
  simp only [enumDeclarations, enumDeclared, List.map_cons, List.map_map]
  rfl

theorem entries_sequence (q : SequenceType) : (sequenceDeclarations q).map Declaration.entry = sequenceDeclared q := by
  simp only [sequenceDeclarations, sequenceDeclared, List.map_append, List.map_flatMap]
  rfl

theorem entries_union {o : OneOfType} (h : o.path ≠ []) :
    (unionDeclarations o).map Declaration.entry = unionDeclared o := by
  have hkey : ∀ variant : Bytes, (Item.member (unionName o.path ++ "Reader") (Bytes.ofString "As" ++ variant)).key =
      unionName o.path ++ "Reader" ++ ".As" ++ variant := by
    intro variant
    simp only [Item.key, List.append_assoc]
    rfl
  have howner : ∀ (v : Variant) (i : Item), Declaration.owner ⟨i, .name .oneOfVariant (o.path ++ [v.name])⟩ =
      titled "oneof variant" [pathName o.path, v.name] := by
    intro v i
    simp only [Declaration.owner, titled, pathName_concat h, NameKind.text]
  simp only [unionDeclarations, unionDeclared, List.map_append, List.map_flatMap, List.map_cons, List.map_nil,
    Declaration.entry, howner, hkey]
  rfl

theorem declared_eq (h : ∀ u ∈ s.unions, u.2.path ≠ []) : declared s = (declarations s).map Declaration.entry := by
  rw [declared, declarations, sourceTypes, List.flatMap_append, List.map_append, List.map_flatMap, List.map_flatMap,
    List.flatMap_map]
  refine congrArg₂ _ (flatMap_filter_of_nil ?_ ?_) ?_
  · intro t _ ht
    cases t with
    | primitive | string | list | oneOf => cases ht
    | enum e => exact (entries_enum e).symm
    | sequence q => exact (entries_sequence q).symm
  · intro t _ ht
    cases t with
    | primitive | string | list | oneOf => rfl
    | enum | sequence => cases ht
  · refine List.flatMap_congr fun u hu => ?_
    exact (entries_union (h u hu)).symm

/-! ### The items of one type -/

/-- The items that a type declares, those that are checked before the others. -/
def typeItems (t : TypeDef) : List Item := (typeDeclarations t).map Declaration.item ++ fixedItems t

/-- The declaration at package level that an item is part of. -/
def Item.root : Item → Item
  | package ident => .package ident
  | member type _ => .package type

theorem root_mem : ∀ i ∈ typeItems t, i.root ∈ (typeDeclarations t).map Declaration.item := by
  intro i hi
  cases t with
  | primitive | string | list => cases hi
  | enum e =>
    simp only [typeItems, typeDeclarations, enumDeclarations, fixedItems, List.mem_append, List.map_cons, List.map_map,
      List.mem_cons, List.mem_map, List.map_nil, List.not_mem_nil, or_false] at hi ⊢
    rcases hi with (rfl | ⟨v, hv, rfl⟩) | rfl | rfl | rfl
    · exact .inl rfl
    · exact .inr ⟨v, hv, rfl⟩
    · exact .inl rfl
    · exact .inl rfl
    · exact .inl rfl
  | sequence q =>
    simp only [typeItems, typeDeclarations, sequenceDeclarations, fixedItems, List.mem_append, List.map_append,
      List.map_cons, List.map_nil, List.mem_cons, List.not_mem_nil, or_false, List.mem_map, List.mem_flatMap] at hi ⊢
    rcases hi with ((rfl | rfl | rfl | rfl | rfl | rfl | rfl) | ⟨d, ⟨f, hf, rfl | rfl⟩, rfl⟩) | rfl | rfl <;>
      simp [Item.root]
  | oneOf o =>
    simp only [typeItems, typeDeclarations, unionDeclarations, fixedItems, List.mem_append, List.map_append,
      List.map_cons, List.map_nil, List.mem_cons, List.not_mem_nil, or_false, List.mem_map, List.mem_flatMap] at hi ⊢
    rcases hi with ((rfl | rfl | rfl | rfl) | ⟨d, ⟨v, hv, rfl | rfl | rfl⟩, rfl⟩) | rfl | rfl | rfl
    · simp [Item.root]
    · simp [Item.root]
    · simp [Item.root]
    · simp [Item.root]
    · exact .inr ⟨_, ⟨v, hv, .inl rfl⟩, rfl⟩
    · exact .inr ⟨_, ⟨v, hv, .inr (.inl rfl)⟩, rfl⟩
    · simp [Item.root]
    · simp [Item.root]
    · simp [Item.root]
    · simp [Item.root]

variable [Libraries.Titled]

theorem exportedName_ne_buf {w : Bytes} (h : IsWord w) : exportedName w ≠ "buf" := fun heq => by
  have hhead := isExported_exportedName h
  rw [heq] at hhead
  cases hhead 0x62 rfl

theorem exportedName_ne_addr {w : Bytes} (h : IsWord w) : exportedName w ≠ "addr" := fun heq => by
  have hhead := isExported_exportedName h
  rw [heq] at hhead
  cases hhead 0x61 rfl

theorem nodup_typeItems (hs : Spoken s) (ht : s.type? id = some t)
    (h : ((typeDeclarations t).map Declaration.item).Nodup) : (typeItems t).Nodup := by
  refine List.nodup_append.2 ⟨h, ?_, ?_⟩
  · cases t with
    | primitive | string | list => exact List.nodup_nil
    | enum | sequence | oneOf => simp +decide [fixedItems]
  · intro i hi j hj heq
    subst heq
    cases t with
    | primitive | string | list => cases hi
    | enum e =>
      simp only [typeDeclarations, enumDeclarations, fixedItems, List.map_cons, List.map_map, List.mem_cons,
        List.mem_map, List.map_nil, List.not_mem_nil, or_false] at hi hj
      rcases hi with rfl | ⟨v, hv, rfl⟩ <;> simp at hj
    | sequence q =>
      simp only [typeDeclarations, sequenceDeclarations, fixedItems, List.mem_append, List.map_append, List.map_cons,
        List.map_nil, List.mem_cons, List.not_mem_nil, or_false, List.mem_map, List.mem_flatMap] at hi hj
      rcases hi with (rfl | rfl | rfl | rfl | rfl | rfl | rfl) | ⟨d, ⟨f, hf, rfl | rfl⟩, rfl⟩ <;>
        simp +decide at hj
      have hword := (hs.sequence id q ht).2 f hf
      exact hj.elim (exportedName_ne_buf hword) (exportedName_ne_addr hword)
    | oneOf o =>
      simp only [typeDeclarations, unionDeclarations, fixedItems, List.mem_append, List.map_append, List.map_cons,
        List.map_nil, List.mem_cons, List.not_mem_nil, or_false, List.mem_map, List.mem_flatMap] at hi hj
      have hbuf : ∀ w : Bytes, "As" ++ w ≠ "buf" := fun w h => by cases h
      have haddr : ∀ w : Bytes, "As" ++ w ≠ "addr" := fun w h => by cases h
      rcases hi with (rfl | rfl | rfl | rfl) | ⟨d, ⟨v, hv, rfl | rfl | rfl⟩, rfl⟩ <;>
        simp +decide [hbuf, haddr] at hj

/-- Types whose checked items are distinct have distinct items: one that two types declare would be part of two
declarations at package level. -/
theorem nodup_flatMap_typeItems (hs : Spoken s) {ts : List TypeDef} (hts : ∀ t ∈ ts, ∃ id, s.type? id = some t) :
    (ts.flatMap typeItems).Nodup ↔ (ts.flatMap fun t => (typeDeclarations t).map Declaration.item).Nodup := by
  rw [List.nodup_flatMap, List.nodup_flatMap]
  constructor
  · rintro ⟨htypes, hdisjoint⟩
    refine ⟨fun t ht => (List.nodup_append.1 (htypes t ht)).1, hdisjoint.imp fun {t u} h i hi hj => ?_⟩
    exact h (List.mem_append_left _ hi) (List.mem_append_left _ hj)
  · rintro ⟨htypes, hdisjoint⟩
    refine ⟨fun t ht => ?_, hdisjoint.imp fun {t u} h i hi hj => h (root_mem i hi) (root_mem i hj)⟩
    obtain ⟨id, hid⟩ := hts t ht
    exact nodup_typeItems hs hid (htypes t ht)

/-! ### What the source declares -/

theorem reads_typeSource (h : Spoken s) (ht : s.type? id = some t) :
    ∃ items, Reads .code (typeSource s t) items .code ∧ items.Perm (typeItems t) := by
  cases t with
  | primitive | string | list => exact ⟨[], .nil .code, .refl []⟩
  | enum e =>
    obtain ⟨hname, hvariants⟩ := h.enum id e ht
    refine ⟨_, reads_enumSource hname hvariants, ?_⟩
    simp only [typeItems, typeDeclarations, enumDeclarations, fixedItems, List.map_cons, List.map_map, List.map_nil]
    exact .refl _
  | sequence q =>
    obtain ⟨hname, hfields⟩ := h.sequence id q ht
    refine ⟨_, reads_sequenceSource h hname hfields, ?_⟩
    let written (f : Field) : Item := .member (exportedName q.name ++ "Writer") (exportedName f.name)
    let read (f : Field) : Item := .member (exportedName q.name ++ "Reader") (exportedName f.name)
    have hpairs := perm_flatMap_cons written (fun f => [read f]) q.fields
    rw [← List.map_eq_flatMap] at hpairs
    simp only [typeItems, typeDeclarations, sequenceDeclarations, fixedItems, List.map_append, List.map_cons,
      List.map_nil, List.map_flatMap]
    refine .trans ?_ ((hpairs.symm.append_left _).append_right _)
    rw [List.perm_iff_count]
    intro i
    simp only [List.count_append, List.count_cons, List.count_nil]
    ring
  | oneOf o =>
    obtain ⟨hpath, hvariants⟩ := h.union id o ht
    refine ⟨_, reads_unionSource h hpath hvariants, ?_⟩
    let constant (v : Variant) : Item := .package (unionName o.path ++ "_" ++ exportedName v.name)
    let maker (v : Variant) : Item := .package ("New" ++ (unionName o.path ++ "Writer") ++ exportedName v.name)
    let getter (v : Variant) : Item :=
      .member (unionName o.path ++ "Reader") (Bytes.ofString "As" ++ exportedName v.name)
    have hpairs := perm_flatMap_cons maker (fun v => [getter v]) o.variants
    rw [← List.map_eq_flatMap] at hpairs
    have htriples := (perm_flatMap_cons constant (fun v => [maker v, getter v]) o.variants).trans (hpairs.append_left _)
    simp only [typeItems, typeDeclarations, unionDeclarations, fixedItems, List.map_append, List.map_cons, List.map_nil,
      List.map_flatMap]
    refine .trans ?_ ((htriples.symm.append_left _).append_right _)
    rw [List.perm_iff_count]
    intro i
    simp only [List.count_append, List.count_cons, List.count_nil]
    ring

theorem outline_body (h : Spoken s) : (outline (body s)).Perm ((sourceTypes s).flatMap typeItems) := by
  have hall : ∀ ts : List TypeDef, (∀ t ∈ ts, ∃ id, s.type? id = some t) → ∃ items,
      Reads .code (ts.flatMap (typeSource s)) items .code ∧ items.Perm (ts.flatMap typeItems) := by
    intro ts hts
    induction ts with
    | nil => exact ⟨[], .nil .code, .refl []⟩
    | cons t ts ih =>
      obtain ⟨⟨id, ht⟩, hts⟩ := List.forall_mem_cons.1 hts
      obtain ⟨items, hreads, hperm⟩ := reads_typeSource h ht
      obtain ⟨rest, hrest, hperm'⟩ := ih hts
      exact ⟨items ++ rest, hreads.append hrest, hperm.append hperm'⟩
  obtain ⟨items, hreads, hperm⟩ := hall _ fun t => mem_sourceTypes
  rw [body, hreads.outline_eq]
  exact hperm

theorem isSpoken_declarations (h : Spoken s) (ht : s.type? id = some t) :
    ∀ d ∈ typeDeclarations t, d.item.IsSpoken := by
  cases t with
  | primitive | string | list => exact List.forall_mem_nil _
  | enum e =>
    obtain ⟨hname, hvariants⟩ := h.enum id e ht
    have hword := isWord_exportedName hname
    exact List.forall_mem_cons.2 ⟨hword, List.forall_mem_map.2 fun v hv => isWord_constant hword (hvariants v hv)⟩
  | sequence q =>
    obtain ⟨hname, hfields⟩ := h.sequence id q ht
    have hword := isWord_exportedName hname
    have hwriter : IsWord (exportedName q.name ++ "Writer") := hword.append (by decide)
    have hreader : IsWord (exportedName q.name ++ "Reader") := hword.append (by decide)
    simp only [typeDeclarations, sequenceDeclarations, List.forall_mem_append, List.forall_mem_flatMap,
      List.forall_mem_cons, List.not_mem_nil, false_implies, implies_true, and_true]
    refine ⟨⟨hwriter, hreader, IsWord.append (by decide) hreader, ⟨hwriter, by decide⟩, ⟨hwriter, by decide⟩,
      ⟨hwriter, by decide⟩, hreader, by decide⟩, fun f hf => ?_⟩
    have hfield := isWord_exportedName (hfields f hf)
    exact ⟨⟨hwriter, hfield⟩, hreader, hfield⟩
  | oneOf o =>
    obtain ⟨hpath, hvariants⟩ := h.union id o ht
    have hword := isWord_unionName hpath
    have hwriter : IsWord (unionName o.path ++ "Writer") := hword.append (by decide)
    have hreader : IsWord (unionName o.path ++ "Reader") := hword.append (by decide)
    simp only [typeDeclarations, unionDeclarations, List.forall_mem_append, List.forall_mem_flatMap,
      List.forall_mem_cons, List.not_mem_nil, false_implies, implies_true, and_true]
    refine ⟨⟨hwriter, hreader, ⟨hreader, by decide⟩, hreader, by decide⟩, fun v hv => ?_⟩
    have hvariant := isWord_exportedName (hvariants v hv)
    exact ⟨isWord_constant hword (hvariants v hv), (IsWord.append (by decide) hwriter).append hvariant, hreader,
      IsWord.append (by decide) hvariant⟩

theorem key_injOn (h : Spoken s) {d e : Declaration} (hd : d ∈ declarations s) (he : e ∈ declarations s)
    (heq : d.item.key = e.item.key) : d.item = e.item := by
  have hspoken : ∀ d ∈ declarations s, d.item.IsSpoken := by
    intro d hd
    obtain ⟨t, ht, hdt⟩ := List.mem_flatMap.1 hd
    obtain ⟨id, hid⟩ := mem_sourceTypes ht
    exact isSpoken_declarations h hid d hdt
  exact Item.key_injective (hspoken d hd) (hspoken e he) heq

theorem conflict?_eq_none_iff (h : Spoken s) (hpaths : ∀ u ∈ s.unions, u.2.path ≠ []) :
    conflict? s = none ↔ (outline (body s)).Nodup := by
  have hidents : (declared s).map Declared.ident = ((declarations s).map Declaration.item).map Item.key := by
    rw [declared_eq hpaths, List.map_map, List.map_map]
    rfl
  have hkeys : (((declarations s).map Declaration.item).map Item.key).Nodup ↔
      ((declarations s).map Declaration.item).Nodup := by
    refine ⟨List.Nodup.of_map _, fun hnodup => hnodup.map_on ?_⟩
    rw [List.forall_mem_map]
    intro d hd
    rw [List.forall_mem_map]
    exact fun e he heq => key_injOn h hd he heq
  rw [conflict?, firstConflict_eq_none_iff, hidents, hkeys, (outline_body h).nodup_iff,
    nodup_flatMap_typeItems h fun t => mem_sourceTypes,
    declarations, List.map_flatMap]
  simp

end Flatwire.Generate
