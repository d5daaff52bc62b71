import Flatwire.Proofs.Findings
import Flatwire.Proofs.Interning
import Flatwire.Proofs.Portability

/-! Names tell types apart. In a compiled schema every type has a written form and no two have the same, because names
are words of the source, no two declarations, members of one sequence or variants of one union share a name, and
everything else stands in the arena once. -/

namespace Flatwire

variable {α : Type} {src : Bytes} {tree : SchemaTree}

/-! ### Words of the source -/

namespace Token

theorem scan_isName {len : Nat} (h : scan src = .ok (.ident, len)) : isName (src.take len) = true := by
  have htake := scan_ident h
  cases src with
  | nil => cases h
  | cons b r =>
    rw [scan] at h
    split at h
    · cases (ofLen_eq_ok h).1
    split at h
    · cases h
    split at h
    · split_ifs at h
      cases h
    split at h
    · split_ifs at h
      cases (ofLen_eq_ok h).1
    split at h
    · cases h
    split_ifs at h with hdigit hword
    · simp only [scanInt] at h
      split_ifs at h
      cases (ofLen_eq_ok h).1
    · have hmax : ((b :: r).takeWhile isWord).length ≤ maxTokenLen := by
        unfold ofLen at h
        split_ifs at h with hlong
        exact Nat.le_of_not_lt hlong
      rw [htake, isName]
      simp only [Bool.and_eq_true, decide_eq_true_eq]
      refine ⟨⟨?_, List.all_takeWhile⟩, hmax⟩
      simp [hword, hdigit]

theorem takeWhile_span {p : α → Bool} {w r : List α} (hw : ∀ b ∈ w, p b = true) (hr : ∀ b ∈ r.head?, p b = false) :
    (w ++ r).takeWhile p = w := by
  rw [List.takeWhile_append_of_pos hw]
  cases r with
  | nil => exact List.append_nil w
  | cons b r => rw [List.takeWhile_cons_of_neg (by simp [hr b rfl]), List.append_nil]

theorem append_inj_of_span {p : α → Bool} {w v r r' : List α} (hw : ∀ b ∈ w, p b = true) (hv : ∀ b ∈ v, p b = true)
    (hr : ∀ b ∈ r.head?, p b = false) (hr' : ∀ b ∈ r'.head?, p b = false) (h : w ++ r = v ++ r') : w = v ∧ r = r' := by
  have hwv : w = v := by rw [← takeWhile_span hw hr, h, takeWhile_span hv hr']
  subst hwv
  exact ⟨rfl, List.append_cancel_left h⟩

theorem isWord_of_isName {w : Bytes} (h : isName w = true) : ∀ b ∈ w, isWord b = true := by
  simp only [isName, Bool.and_eq_true, List.all_eq_true] at h
  exact h.1.2

end Token

def AllNames (ns : List Bytes) : Prop := ∀ n ∈ ns, Token.isName n = true

theorem Tokenizes.names {ts : List Token} (h : Tokenizes src ts) :
    ∀ t ∈ ts, t.kind = .ident → Token.isName t.text = true := by
  induction h with
  | nil => simp
  | cons _ hscan _ ih =>
    refine List.forall_mem_cons.2 ⟨fun hkind => ?_, ih⟩
    cases hkind
    exact Token.scan_isName hscan

namespace Grammar

variable {w : List Token}

/-- The name is one of the words among the tokens. -/
def Occurs (w : List Token) (n : Bytes) : Prop := ∃ t ∈ w, t.kind = .ident ∧ t.text = n

theorem Occurs.of_mem {v : List Token} {n : Bytes} (h : Occurs w n) (hv : ∀ t ∈ w, t ∈ v) : Occurs v n := by
  obtain ⟨t, ht, hn⟩ := h
  exact ⟨t, hv t ht, hn⟩

theorem AreFields.occurs {fs : FieldForms} (h : AreFields w fs) : ∀ n ∈ fs.names, Occurs w n := by
  refine @AreFields.rec (fun w e _ => ∀ n ∈ e.names, Occurs w n) (fun w fs _ => ∀ n ∈ fs.names, Occurs w n)
    ?name ?list ?oneOf ?nil ?cons w fs h
  case name => exact fun _ _ n hn => absurd hn List.not_mem_nil
  case list => exact fun _ _ _ ih n hn => (ih n hn).of_mem fun t ht => by simp [ht]
  case oneOf => exact fun _ _ _ _ ih n hn => (ih n hn).of_mem fun t ht => by simp [ht]
  case nil => exact fun n hn => absurd hn List.not_mem_nil
  case cons =>
    intro n c s w v t fs hn _ _ _ _ ihType ihRest m hm
    rcases List.mem_cons.1 hm with rfl | hm
    · exact ⟨n, by simp, hn, rfl⟩
    · rcases List.mem_append.1 hm with hm | hm
      · exact (ihType m hm).of_mem fun t ht => by simp [ht]
      · exact (ihRest m hm).of_mem fun t ht => by simp [ht]

theorem AreItems.occurs {items : List (Bytes × Nat)} (h : AreItems w items) : ∀ n ∈ items.map (·.1), Occurs w n := by
  induction h with
  | nil => simp
  | cons hn _ _ _ _ ih =>
    refine List.forall_mem_cons.2 ⟨⟨_, List.mem_cons_self, hn, rfl⟩, fun n hn => ?_⟩
    exact (ih n hn).of_mem fun t ht => by simp [ht]

theorem IsDecl.occurs {d : DeclForm} (h : IsDecl w d) : ∀ n ∈ d.names, Occurs w n := by
  cases h with
  | enum _ hn _ hitems _ =>
    refine List.forall_mem_cons.2 ⟨⟨_, by simp, hn, rfl⟩, fun n hn => ?_⟩
    exact (hitems.occurs n hn).of_mem fun t ht => by simp [ht]
  | sequence _ hn _ hfields _ =>
    refine List.forall_mem_cons.2 ⟨⟨_, by simp, hn, rfl⟩, fun n hn => ?_⟩
    exact (hfields.occurs n hn).of_mem fun t ht => by simp [ht]

theorem IsSchema.occurs {forms : List DeclForm} (h : IsSchema w forms) : ∀ d ∈ forms, ∀ n ∈ d.names, Occurs w n := by
  induction h with
  | nil => simp
  | cons hd _ ih =>
    refine List.forall_mem_cons.2 ⟨fun n hn => ?_, fun d hd n hn => ?_⟩
    · exact (hd.occurs n hn).of_mem fun t ht => by simp [ht]
    · exact (ih d hd n hn).of_mem fun t ht => by simp [ht]

end Grammar

theorem SchemaTree.parse_names {keep : Bool} (h : parse src keep = .ok tree) :
    ∀ d ∈ tree.decls, AllNames d.form.names := by
  obtain ⟨ts, -, -, -, htokens, hschema, -⟩ := parse_sound h
  intro d hd n hn
  obtain ⟨t, ht, hkind, rfl⟩ := hschema.occurs _ (List.mem_map_of_mem hd) n hn
  exact htokens.names t (List.mem_filter.1 ht).1 hkind

/-! ### Paths of the source -/

theorem conflicts_eq_nil {β : Type} [DecidableEq β] {code : Nat} {key : α → β} {place : α → Span} {seen : List β}
    {xs : List α} (h : conflicts code key place seen xs = []) : (xs.map key).Nodup ∧ ∀ x ∈ xs, key x ∉ seen := by
  induction xs generalizing seen with
  | nil => simp
  | cons x xs ih =>
    rw [conflicts, List.append_eq_nil_iff] at h
    obtain ⟨hnodup, hseen⟩ := ih h.2
    have hx : key x ∉ seen := by
      intro hmem
      rw [if_pos hmem] at h
      cases h.1
    refine ⟨List.nodup_cons.2 ⟨fun hmem => ?_, hnodup⟩, List.forall_mem_cons.2 ⟨hx, fun y hy hmem => ?_⟩⟩
    · obtain ⟨y, hy, heq⟩ := List.mem_map.1 hmem
      exact hseen y hy (List.mem_append_right _ (List.mem_singleton.2 heq))
    · exact hseen y hy (List.mem_append_left _ hmem)

theorem prefix_of_unionPaths :
    (∀ type : TypeExpr, ∀ path, ∀ p ∈ type.unionPaths path, path <+: p) ∧
    ∀ fs : FieldList, ∀ path, ∀ p ∈ fs.unionPaths path, ∃ f ∈ fs.toList, path ++ [f.name.text] <+: p := by
  apply TypeExpr.induction
  case name => exact fun _ path p hp => absurd hp List.not_mem_nil
  case list => exact fun _ _ _ elem _ _ ih path p hp => ih path p hp
  case oneOf =>
    intro _ _ _ _ _ variants _ ih path p hp
    rcases List.mem_cons.1 hp with rfl | hp
    · exact List.prefix_refl p
    · obtain ⟨f, -, hf⟩ := ih path p hp
      exact (List.prefix_append path _).trans hf
  case nil => exact fun path p hp => absurd hp List.not_mem_nil
  case cons =>
    intro f gap rest ihType ihRest path p hp
    rw [FieldList.unionPaths_cons] at hp
    rcases List.mem_append.1 hp with hp | hp
    · exact ⟨f, List.mem_cons_self, ihType _ p hp⟩
    · obtain ⟨g, hg, hpre⟩ := ihRest path p hp
      exact ⟨g, List.mem_cons_of_mem _ hg, hpre⟩

theorem last_eq_of_prefix {path p : List α} {x y : α} (hx : path ++ [x] <+: p) (hy : path ++ [y] <+: p) : x = y := by
  have h := List.prefix_of_prefix_length_le hx hy (by simp)
  simpa using h

theorem nodup_unionPaths (known : Bytes → Bool) :
    (∀ type : TypeExpr, ∀ path, type.findings known = [] → (type.unionPaths path).Nodup) ∧
    ∀ fs : FieldList, ∀ path, (fs.toList.map fun f => f.name.text).Nodup → fs.findings known = [] →
      (fs.unionPaths path).Nodup := by
  apply TypeExpr.induction
  case name => exact fun _ path _ => List.nodup_nil
  case list =>
    intro _ _ _ elem _ _ ih path h
    exact ih path h
  case oneOf =>
    intro _ _ _ _ _ variants _ ih path h
    rw [TypeExpr.findings] at h
    simp only [List.append_eq_nil_iff] at h
    obtain ⟨⟨-, hnames⟩, hvariants⟩ := h
    refine List.nodup_cons.2 ⟨fun hmem => ?_, ih path (conflicts_eq_nil hnames).1 hvariants⟩
    obtain ⟨f, -, hpre⟩ := prefix_of_unionPaths.2 variants path path hmem
    have := hpre.length_le
    simp at this
  case nil => exact fun path _ _ => List.nodup_nil
  case cons =>
    intro f gap rest ihType ihRest path hnames h
    have hfindings : f.type.findings known = [] ∧ rest.findings known = [] := by
      obtain ⟨⟩ := f
      exact List.append_eq_nil_iff.1 h
    obtain ⟨hnew, hnames⟩ := List.nodup_cons.1 hnames
    rw [FieldList.unionPaths_cons]
    refine List.nodup_append.2 ⟨ihType _ hfindings.1, ihRest path hnames hfindings.2, fun p hp q hq heq => ?_⟩
    subst heq
    obtain ⟨g, hg, hpre⟩ := prefix_of_unionPaths.2 rest path p hq
    have heq := last_eq_of_prefix (prefix_of_unionPaths.1 _ _ p hp) hpre
    exact hnew (List.mem_map.2 ⟨g, hg, heq.symm⟩)

theorem Decl.prefix_of_unionPaths {d : Decl} {p : List Bytes} (hp : p ∈ d.unionPaths) : [] ++ [d.name.text] <+: p := by
  cases d with
  | enum e => cases hp
  | sequence q =>
    obtain ⟨f, -, hpre⟩ := Flatwire.prefix_of_unionPaths.2 q.fieldList [q.name.text] p hp
    exact (List.prefix_append _ _).trans hpre

theorem nodup_unionPaths_of_findings {ds : List Decl} (h : findings ds = []) : (ds.flatMap Decl.unionPaths).Nodup := by
  simp only [findings, List.append_eq_nil_iff] at h
  obtain ⟨⟨hnames, -⟩, hdecls⟩ := h
  have hnames := (conflicts_eq_nil hnames).1
  rw [List.flatMap_eq_nil_iff] at hdecls
  rw [List.nodup_flatMap]
  refine ⟨fun d hd => ?_, ?_⟩
  · cases d with
    | enum e => exact List.nodup_nil
    | sequence q =>
      obtain ⟨hfields, htypes⟩ := List.append_eq_nil_iff.1 (hdecls _ hd)
      exact (nodup_unionPaths _).2 _ _ (conflicts_eq_nil hfields).1 htypes
  · refine (List.pairwise_map.1 hnames).imp fun {d e} hne p hp hq => hne ?_
    exact last_eq_of_prefix (Decl.prefix_of_unionPaths hp) (Decl.prefix_of_unionPaths hq)

/-! ### Written forms -/

theorem pathName_injective {p q : List Bytes} (hp : AllNames p) (hq : AllNames q) (hp₀ : p ≠ []) (hq₀ : q ≠ [])
    (h : pathName p = pathName q) : p = q := by
  have hrest : ∀ ws : List Bytes, ∃ r, (∀ w, Bytes.join "::" (w :: ws) = w ++ r) ∧
      (∀ b ∈ r.head?, Token.isWord b = false) ∧ (ws = [] ↔ r = []) ∧
      (ws ≠ [] → r = Bytes.ofString "::" ++ Bytes.join "::" ws) := by
    intro ws
    cases ws with
    | nil => exact ⟨[], fun w => (List.append_nil w).symm, by simp, by simp, by simp⟩
    | cons v vs =>
      refine ⟨Bytes.ofString "::" ++ Bytes.join "::" (v :: vs), fun w => List.append_assoc .., ?_, ?_, fun _ => rfl⟩
      · intro b hb
        cases hb
        decide
      · simp only [reduceCtorEq, false_iff]
        exact fun h => by cases (List.append_eq_nil_iff.1 h).1
  induction p generalizing q with
  | nil => exact absurd rfl hp₀
  | cons w ws ih =>
    cases q with
    | nil => exact absurd rfl hq₀
    | cons v vs =>
      obtain ⟨r, hjoin, hhead, hnil, hcons⟩ := hrest ws
      obtain ⟨r', hjoin', hhead', hnil', hcons'⟩ := hrest vs
      rw [pathName, pathName, hjoin, hjoin'] at h
      obtain ⟨rfl, rfl⟩ := Token.append_inj_of_span (Token.isWord_of_isName (hp w List.mem_cons_self))
        (Token.isWord_of_isName (hq v List.mem_cons_self)) hhead hhead' h
      by_cases hws : ws = []
      · rw [hws, hnil'.2 (hnil.1 hws)]
      · have hvs : vs ≠ [] := fun h => hws (hnil.2 (hnil'.1 h))
        have heq := (hcons hws).symm.trans (hcons' hvs)
        rw [ih (fun n hn => hp n (List.mem_cons_of_mem _ hn)) (fun n hn => hq n (List.mem_cons_of_mem _ hn)) hws hvs
          (List.append_cancel_left heq)]

namespace Schema

/-- The type at a place is written in this way. -/
inductive Spelled (s : Schema) : TypeId → Bytes → Prop where
  | primitive {id k} : s.type? id = some (.primitive k) → Spelled s id k.name
  | string {id} : s.type? id = some .string → Spelled s id stringTypeName
  | list {id e n} : s.type? id = some (.list e) → Spelled s e n → Spelled s id ("[" ++ n ++ "]")
  | enum {id e} : s.type? id = some (.enum e) → Spelled s id e.name
  | sequence {id q} : s.type? id = some (.sequence q) → Spelled s id q.name
  | oneOf {id o} : s.type? id = some (.oneOf o) → Spelled s id ("oneof " ++ pathName o.path)

variable {s : Schema} {i j id : TypeId} {n : Bytes}

theorem spelled_of_typeNameAux {fuel : Nat} (h : s.typeNameAux fuel id = some n) : s.Spelled id n := by
  induction fuel generalizing id n with
  | zero => cases h
  | succ fuel ih =>
    rw [typeNameAux] at h
    split at h
    · cases h
    · cases h
      exact .primitive ‹_›
    · cases h
      exact .string ‹_›
    · obtain ⟨m, hm, rfl⟩ := Option.map_eq_some_iff.1 h
      exact .list ‹_› (ih hm)
    · cases h
      exact .enum ‹_›
    · cases h
      exact .sequence ‹_›
    · cases h
      exact .oneOf ‹_›

theorem Spelled.typeNameAux_eq (h : s.Spelled id n) (hbelow : ∀ i e, s.type? i = some (.list e) → e < i) {fuel : Nat}
    (hfuel : id < fuel) : s.typeNameAux fuel id = some n := by
  induction h generalizing fuel with
  | primitive ht | string ht | enum ht | sequence ht | oneOf ht =>
    obtain ⟨fuel, rfl⟩ := Nat.exists_eq_add_of_lt hfuel
    simp only [typeNameAux, ht]
  | list ht _ ih =>
    obtain ⟨fuel, rfl⟩ := Nat.exists_eq_add_of_lt hfuel
    have hlt := hbelow _ _ ht
    simp only [typeNameAux, ht, ih (Nat.lt_of_lt_of_le hlt (Nat.le_add_right _ fuel)), Option.map_some]

/-- What tells the types of a schema apart: declarations by names that stand for nothing else, unions by paths, and
everything else by what it is. -/
structure Identified (s : Schema) : Prop extends s.Interned where
  names : ∀ id n, s.declName? id = some n → Token.isName n = true ∧ isBuiltin n = false
  declared : ∀ i j n, s.declName? i = some n → s.declName? j = some n → i = j
  paths : ∀ id o, s.type? id = some (.oneOf o) → o.path ≠ [] ∧ AllNames o.path
  unions : ∀ i j o o', s.type? i = some (.oneOf o) → s.type? j = some (.oneOf o') → o.path = o'.path → i = j

theorem Identified.typeName?_iff (h : s.Identified) : s.typeName? id = some n ↔ s.Spelled id n := by
  refine ⟨spelled_of_typeNameAux, fun hs => hs.typeNameAux_eq h.below ?_⟩
  have hlt : id < s.types.size := by
    cases hs with
    | primitive ht | string ht | list ht _ | enum ht | sequence ht | oneOf ht => exact type?_lt ht
  exact Nat.lt_succ_of_lt hlt

theorem Identified.exists_spelled (h : s.Identified) (hid : id < s.types.size) : ∃ n, s.Spelled id n := by
  induction id using Nat.strong_induction_on with
  | _ id ih =>
    have ht : s.type? id = some s.types[id] := Array.getElem?_eq_getElem hid
    cases htype : s.types[id] with
    | primitive => exact ⟨_, .primitive (htype ▸ ht)⟩
    | string => exact ⟨_, .string (htype ▸ ht)⟩
    | enum => exact ⟨_, .enum (htype ▸ ht)⟩
    | sequence => exact ⟨_, .sequence (htype ▸ ht)⟩
    | oneOf => exact ⟨_, .oneOf (htype ▸ ht)⟩
    | list e =>
      rw [htype] at ht
      have hlt := h.below id e ht
      obtain ⟨n, hn⟩ := ih e hlt (Nat.lt_trans hlt hid)
      exact ⟨_, .list ht hn⟩

/-- The type that a builtin name stands for. -/
def builtinType? (n : Bytes) : Option TypeDef :=
  if n = stringTypeName then some .string else (PrimitiveKind.ofName? n).map .primitive

/-- What a written form is the form of, told by the form alone: a builtin type, a declaration, a list or a union. -/
def formKind (n : Bytes) : Nat :=
  if n.head? = some 0x5B then 2 else if n.all Token.isWord then if isBuiltin n then 0 else 1 else 3

theorem formKind_of_builtin {t : TypeDef} (h : builtinType? n = some t) (hword : n.all Token.isWord = true)
    (hhead : n.head? ≠ some 0x5B) : formKind n = 0 := by
  have hbuiltin : isBuiltin n = true := by
    unfold builtinType? at h
    split_ifs at h with hstr
    · simp [isBuiltin, hstr]
    · obtain ⟨k, hk, -⟩ := Option.map_eq_some_iff.1 h
      simp [isBuiltin, hk]
  simp [formKind, hhead, hword, hbuiltin]

theorem formKind_of_isName (hname : Token.isName n = true) (h : isBuiltin n = false) : formKind n = 1 := by
  have hword := Token.isWord_of_isName hname
  have hhead : n.head? ≠ some 0x5B := by
    intro heq
    cases hword _ (List.mem_of_mem_head? heq)
  simp only [formKind, if_neg hhead, h, List.all_eq_true.2 hword]
  rfl

theorem Spelled.view (hs : s.Spelled id n) (h : s.Identified) :
    (formKind n = 0 ∧ ∃ t, builtinType? n = some t ∧ s.type? id = some t) ∨
    (formKind n = 1 ∧ s.declName? id = some n) ∨
    (formKind n = 2 ∧ ∃ e m, n = "[" ++ m ++ "]" ∧ s.type? id = some (.list e) ∧ s.Spelled e m) ∨
    (formKind n = 3 ∧ ∃ o, n = "oneof " ++ pathName o.path ∧ s.type? id = some (.oneOf o)) := by
  have hdecl : ∀ n, s.declName? id = some n → formKind n = 1 ∧ s.declName? id = some n := fun n hn =>
    ⟨formKind_of_isName (h.names id n hn).1 (h.names id n hn).2, hn⟩
  cases hs with
  | @primitive _ k ht =>
    have hk : builtinType? k.name = some (.primitive k) ∧ (Bytes.ofString k.name).all Token.isWord = true ∧
        (Bytes.ofString k.name).head? ≠ some 0x5B := by
      cases k <;> decide +kernel
    exact .inl ⟨formKind_of_builtin hk.1 hk.2.1 hk.2.2, _, hk.1, ht⟩
  | string ht => exact .inl ⟨by decide +kernel, .string, by decide +kernel, ht⟩
  | enum ht => exact .inr (.inl (hdecl _ (by rw [declName?, ht]; rfl)))
  | sequence ht => exact .inr (.inl (hdecl _ (by rw [declName?, ht]; rfl)))
  | list ht hs => exact .inr (.inr (.inl ⟨rfl, _, _, rfl, ht, hs⟩))
  | @oneOf _ o ht =>
    refine .inr (.inr (.inr ⟨?_, o, rfl, ht⟩))
    -- the blank behind the keyword is no part of a word
    have hblank : ("oneof " ++ pathName o.path : Bytes).all Token.isWord = false := by
      rw [List.all_append]
      exact Bool.and_eq_false_imp.2 fun hword => absurd hword (by decide)
    have hhead : ("oneof " ++ pathName o.path : Bytes).head? = some 0x6F := rfl
    simp [formKind, hblank, hhead]

/-- Types of two schemas with the same form are of the same kind and have parts with the same forms. -/
inductive Alike (s s' : Schema) (i j : TypeId) : Prop where
  | builtin {t} : Builder.needsFilling t = false → (∀ e, t ≠ .list e) → s.type? i = some t → s'.type? j = some t →
      Alike s s' i j
  | declared {name} : s.declName? i = some name → s'.declName? j = some name → Alike s s' i j
  | list {e e' form} : s.type? i = some (.list e) → s'.type? j = some (.list e') → s.Spelled e form →
      s'.Spelled e' form → Alike s s' i j
  | oneOf {o o'} : s.type? i = some (.oneOf o) → s'.type? j = some (.oneOf o') → o.path = o'.path → Alike s s' i j

theorem Spelled.alike {s' : Schema} (hi : s.Spelled i n) (hj : s'.Spelled j n) (h : s.Identified) (h' : s'.Identified) :
    Alike s s' i j := by
  rcases hi.view h with ⟨hk, t, hn, ht⟩ | ⟨hk, ht⟩ | ⟨hk, e, m, hn, ht, hs⟩ | ⟨hk, o, hn, ht⟩ <;>
    rcases hj.view h' with ⟨hk', t', hn', ht'⟩ | ⟨hk', ht'⟩ | ⟨hk', e', m', hn', ht', hs'⟩ | ⟨hk', o', hn', ht'⟩ <;>
    cases hk.symm.trans hk'
  · cases hn.symm.trans hn'
    unfold builtinType? at hn
    split_ifs at hn
    · cases hn
      exact .builtin rfl (by simp) ht ht'
    · obtain ⟨k, -, rfl⟩ := Option.map_eq_some_iff.1 hn
      exact .builtin rfl (by simp) ht ht'
  · exact .declared ht ht'
  · have heq := hn.symm.trans hn'
    rw [List.append_assoc, List.append_assoc] at heq
    obtain rfl := List.append_cancel_right (List.append_cancel_left heq)
    exact .list ht ht' hs hs'
  · have heq := List.append_cancel_left (hn.symm.trans hn')
    obtain ⟨hne, hnames⟩ := h.paths i o ht
    obtain ⟨hne', hnames'⟩ := h'.paths j o' ht'
    exact .oneOf ht ht' (pathName_injective hnames hnames' hne hne' heq)

theorem Spelled.injective (hi : s.Spelled i n) (hj : s.Spelled j n) (h : s.Identified) : i = j := by
  induction i using Nat.strong_induction_on generalizing j n with
  | _ i ih =>
    cases hi.alike hj h h with
    | builtin hfill _ ht ht' => exact h.once i j _ hfill ht ht'
    | declared hn hn' => exact h.declared i j _ hn hn'
    | list ht ht' hs hs' =>
      obtain rfl := ih _ (h.below i _ ht) hs hs'
      exact h.once i j _ rfl ht ht'
    | oneOf ht ht' hpath => exact h.unions i j _ _ ht ht' hpath

end Schema

/-! ### Compiled schemas -/

theorem eq_of_nodup_filterMap {β : Type} {f : α → Option β} {xs : List α} (h : (xs.filterMap f).Nodup) {i j : Nat}
    {a b : α} {c : β} (hi : xs[i]? = some a) (hj : xs[j]? = some b) (ha : f a = some c) (hb : f b = some c) :
    i = j := by
  rw [List.Nodup, List.pairwise_filterMap, List.pairwise_iff_getElem] at h
  obtain ⟨hi', rfl⟩ := List.getElem?_eq_some_iff.1 hi
  obtain ⟨hj', rfl⟩ := List.getElem?_eq_some_iff.1 hj
  rcases Nat.lt_trichotomy i j with hlt | heq | hlt
  · exact absurd rfl (h i j hi' hj' hlt c ha c hb)
  · exact heq
  · exact absurd rfl (h j i hj' hi' hlt c hb c ha)

theorem FieldList.mem_names {fs : FieldList} {f : FieldExpr} (hf : f ∈ fs.toList) :
    f.name.text ∈ fs.forms.names ∧ ∀ n ∈ f.type.form.names, n ∈ fs.forms.names := by
  induction fs using FieldList.induction with
  | nil => cases hf
  | cons e gap rest ih =>
    obtain ⟨⟩ := e
    rcases List.mem_cons.1 hf with rfl | hf
    · exact ⟨List.mem_cons_self, fun n hn => List.mem_cons_of_mem _ (List.mem_append_left _ hn)⟩
    · obtain ⟨hname, hnames⟩ := ih hf
      exact ⟨List.mem_cons_of_mem _ (List.mem_append_right _ hname),
        fun n hn => List.mem_cons_of_mem _ (List.mem_append_right _ (hnames n hn))⟩

/-- The path to a union is made of names, and so are the names of its variants. -/
theorem Schema.OneOfIn.names {path p : List Bytes} {type : TypeExpr} {vs : FieldList} (h : OneOfIn path type p vs)
    (hpath : AllNames path) (htype : AllNames type.form.names) : AllNames p ∧ AllNames vs.forms.names := by
  induction h with
  | here => exact ⟨hpath, htype⟩
  | list _ ih => exact ih hpath htype
  | variant hf _ ih =>
    obtain ⟨hname, hnames⟩ := FieldList.mem_names hf
    refine ih (List.forall_mem_append.2 ⟨hpath, List.forall_mem_singleton.2 (htype _ hname)⟩) fun n hn => ?_
    exact htype n (hnames n hn)

namespace Compile

variable {ds : List Decl} {st : State}

theorem findings_of_errors {name : Bytes} (h : (compile tree name).errors = []) : findings tree.decls = [] := by
  have hperm := (compile_findings tree name).1
  rw [h] at hperm
  exact hperm.symm.eq_nil

theorem not_builtin_of_findings (h : findings ds = []) {d : Decl} (hd : d ∈ ds) : isBuiltin d.name.text = false := by
  simp only [findings, List.append_eq_nil_iff, List.map_eq_nil_iff, List.filter_eq_nil_iff] at h
  have hreserved := h.1.2 d hd
  simp only [Decl.isReserved, Bool.or_eq_true, not_or, Bool.not_eq_true] at hreserved
  exact hreserved.1

theorem Accepted.union_names (h : Accepted ds st) (hnames : ∀ d ∈ ds, AllNames d.form.names) {id : TypeId}
    {o : OneOfType} (ho : st.builder.schema.type? id = some (.oneOf o)) : o.path ≠ [] ∧ AllNames o.path ∧ ∃ vs,
      st.builder.schema.AreVariants o.path 0 vs o.variants ∧ AllNames vs.forms.names := by
  obtain ⟨i, d, f, vs, hd, hf, hin, hvs⟩ := h.unions id o ho
  have hd := hnames _ (List.mem_of_getElem? hd)
  have hfields : AllNames d.fieldList.forms.names := fun n hn => hd n (List.mem_cons_of_mem _ hn)
  obtain ⟨hname, htype⟩ := FieldList.mem_names hf
  have hpath : AllNames [d.name.text, f.name.text] :=
    List.forall_mem_cons.2 ⟨hd _ List.mem_cons_self, List.forall_mem_singleton.2 (hfields _ hname)⟩
  obtain ⟨hp, hvariants⟩ := hin.names hpath fun n hn => hfields n (htype n hn)
  refine ⟨fun hnil => ?_, hp, vs, hvs, hvariants⟩
  have := hin.length_le
  rw [hnil] at this
  cases this

theorem identified_of_compile {keep : Bool} {name : Bytes} {s : Schema}
    (hparse : SchemaTree.parse src keep = .ok tree) (hschema : (compile tree name).schema = some s) : s.Identified := by
  have herrors := errors_of_schema hschema
  obtain ⟨haccepted, heq⟩ := compile_accepted herrors
  cases hschema.symm.trans heq
  have hfindings := findings_of_errors herrors
  have hnames := SchemaTree.parse_names hparse
  have hclosed := closed_compileDecls tree.decls name
  obtain ⟨hinterned, hperm⟩ := interned_compileDecls tree.decls name
  have hnodup := hperm.nodup_iff.2 (nodup_unionPaths_of_findings hfindings)
  generalize (compileDecls tree.decls (start name)).2 = st at *
  -- a type with a name stands at the place of a declaration
  have hdecl : ∀ id n, st.builder.schema.declName? id = some n →
      ∃ i : Nat, ∃ d, st.builder.schema.decls[i]? = some id ∧ tree.decls[i]? = some d ∧
        firstDecl tree.decls n = some i ∧ d.name.text = n := by
    intro id n hn
    obtain ⟨t, ht, hname⟩ := Option.bind_eq_some_iff.1 hn
    obtain ⟨i, hi⟩ := List.getElem?_of_mem ((hclosed id t ht).2 (by simp [hname]))
    obtain ⟨d, hd, hfirst, hdn⟩ := haccepted.exists_decl hi
    obtain rfl := Option.some.inj (hdn.symm.trans hn)
    exact ⟨i, d, hi, hd, hfirst, rfl⟩
  refine ⟨hinterned, fun id n hn => ?_, fun i j n hi hj => ?_, fun id o ho => ?_, fun i j o o' hi hj hpath => ?_⟩
  · obtain ⟨i, d, -, hd, -, rfl⟩ := hdecl id n hn
    have hmem := List.mem_of_getElem? hd
    exact ⟨hnames d hmem _ (by cases d <;> exact List.mem_cons_self), not_builtin_of_findings hfindings hmem⟩
  · obtain ⟨k, -, hk, -, hfirst, -⟩ := hdecl i n hi
    obtain ⟨k', -, hk', -, hfirst', -⟩ := hdecl j n hj
    cases hfirst.symm.trans hfirst'
    exact Option.some.inj (hk.symm.trans hk')
  · obtain ⟨hne, hpath, -⟩ := haccepted.union_names hnames ho
    exact ⟨hne, hpath⟩
  · rw [Schema.type?, ← Array.getElem?_toList] at hi hj
    exact eq_of_nodup_filterMap hnodup hi hj rfl (congrArg some hpath.symm)

end Compile

/-- In a compiled schema, every type has a name and no two have the same. In particular builtin types and lists have one
place each, and no two unions have one path. -/
theorem Schema.typeName_injective {src : Bytes} {keep : Bool} {tree : SchemaTree} {name : Bytes} {s : Schema}
    (hparse : SchemaTree.parse src keep = .ok tree) (hschema : (compile tree name).schema = some s) :
    (∀ id < s.types.size, ∃ n, s.typeName? id = some n ∧ s.typeName id = n ∧ s.Spelled id n) ∧
    (∀ i < s.types.size, ∀ j < s.types.size, s.typeName i = s.typeName j → i = j) ∧
    (∀ i j t, Builder.needsFilling t = false → s.type? i = some t → s.type? j = some t → i = j) ∧
    ∀ i j o o', s.type? i = some (.oneOf o) → s.type? j = some (.oneOf o') → o.path = o'.path → i = j := by
  have h := Compile.identified_of_compile hparse hschema
  have hname : ∀ id < s.types.size, ∃ n, s.typeName? id = some n ∧ s.typeName id = n ∧ s.Spelled id n := by
    intro id hid
    obtain ⟨n, hn⟩ := h.exists_spelled hid
    have hsome := h.typeName?_iff.2 hn
    exact ⟨n, hsome, by rw [typeName, hsome]; rfl, hn⟩
  refine ⟨hname, fun i hi j hj heq => ?_, h.once, h.unions⟩
  obtain ⟨n, -, hn, hspelled⟩ := hname i hi
  obtain ⟨m, -, hm, hspelled'⟩ := hname j hj
  rw [hn, hm] at heq
  exact hspelled.injective (heq ▸ hspelled') h

theorem Schema.typeName_injective_sample :
    let src := Bytes.ofString
      "enum E{x=1;}sequence A{e:[E];u:oneof{a:A;l:[[u8]];v:oneof{l:[[u8]];};};v:[oneof{a:str;}];}"
    ∃ tree s, SchemaTree.parse src false = .ok tree ∧ (compile tree "s").schema = some s ∧ s.types.size = 11 ∧
      ∀ i < s.types.size, ∀ j < s.types.size, s.typeName i = s.typeName j → i = j := by
  intro src
  obtain ⟨tree, htree, hsome⟩ : ∃ tree, SchemaTree.parse src false = .ok tree ∧
      (compile tree "s").schema.any (fun s => s.types.size = 11) = true := SchemaTree.exists_parse (by decide +kernel)
  obtain ⟨hschema, hsize⟩ := (Option.any_eq_true_iff_get ..).1 hsome
  obtain ⟨s, hs⟩ := Option.isSome_iff_exists.1 hschema
  simp only [hs, Option.get_some, decide_eq_true_eq] at hsize
  exact ⟨tree, s, htree, hs, hsize, (typeName_injective htree hs).2.1⟩

end Flatwire
