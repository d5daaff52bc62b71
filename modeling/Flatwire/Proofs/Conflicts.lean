import Flatwire.Proofs.Checked
import Flatwire.Proofs.Renumbering

/-! Conflicts of identifiers in compiled schemas. The first that is found is between two names of the schema, or a name
and a method, since the types that have two methods of one identifier are declared before. -/

namespace Flatwire.Generate

variable {s : Schema} {t : TypeDef} {c : NameConflict} {ts : List TypeDef} {xs ys : List Declaration}
  {d e : Declaration}

/-! ### Names and types -/

theorem exists_split_flatMap {α β : Type} {f : α → List β} {ts : List α} {xs ys : List β} {d : β}
    (h : ts.flatMap f = xs ++ d :: ys) :
    ∃ us t vs p q, ts = us ++ t :: vs ∧ f t = p ++ d :: q ∧ xs = us.flatMap f ++ p := by
  induction ts generalizing xs with
  | nil => cases (List.append_eq_nil_iff.1 h.symm).2
  | cons t ts ih =>
    rw [List.flatMap_cons, List.append_eq_append_iff] at h
    rcases h with ⟨as, rfl, hrest⟩ | ⟨bs, hft, hrest⟩
    · obtain ⟨us, u, vs, p, q, rfl, hu, rfl⟩ := ih hrest
      exact ⟨t :: us, u, vs, p, q, rfl, hu, by rw [List.flatMap_cons, List.append_assoc]⟩
    · cases bs with
      | nil =>
        have hrest : ts.flatMap f = [] ++ d :: ys := hrest.symm
        obtain ⟨us, u, vs, p, q, rfl, hu, hnil⟩ := ih hrest
        refine ⟨t :: us, u, vs, p, q, rfl, hu, ?_⟩
        rw [List.flatMap_cons, List.append_assoc, ← hnil, hft, List.append_nil, List.append_nil]
      | cons b bs =>
        obtain ⟨rfl, -⟩ := List.cons.inj hrest
        exact ⟨[], t, ts, xs, bs, rfl, hft, rfl⟩

theorem mem_left_of_append {α : Type} {xs ys as bs : List α} {x : α} (h : xs ++ ys = as ++ x :: bs) (hx : x ∉ ys) :
    ∃ cs, xs = as ++ x :: cs := by
  rcases List.append_eq_append_iff.1 h with ⟨cs, rfl, rfl⟩ | ⟨cs, rfl, hcs⟩
  · exact absurd (List.mem_append_right _ List.mem_cons_self) hx
  · cases cs with
    | nil =>
      rw [List.nil_append] at hcs
      exact absurd (hcs ▸ List.mem_cons_self) hx
    | cons c cs => exact ⟨cs, by rw [(List.cons.inj hcs).1]⟩

theorem mem_right_of_append {α : Type} {xs ys as bs : List α} {x : α} (h : xs ++ ys = as ++ x :: bs) (hx : x ∉ xs) :
    ∃ cs, as = xs ++ cs ∧ ys = cs ++ x :: bs := by
  rcases List.append_eq_append_iff.1 h with ⟨cs, rfl, hcs⟩ | ⟨cs, rfl, hcs⟩
  · exact ⟨cs, rfl, hcs⟩
  · cases cs with
    | nil => exact ⟨[], by simp, by simpa using hcs.symm⟩
    | cons c cs =>
      rw [← (List.cons.inj hcs).1] at hx
      exact absurd (List.mem_append_right _ List.mem_cons_self) hx

theorem NameKind.text_injective {k k' : NameKind}
    (h : Bytes.ofString k.text ++ [0x20] = Bytes.ofString k'.text ++ [0x20]) : k = k' := by
  let kinds : List NameKind := [.enum, .enumVariant, .sequence, .field, .oneOf, .oneOfVariant]
  have hmem : ∀ k : NameKind, k ∈ kinds := by
    intro k
    cases k <;> decide
  have hkinds : ∀ k ∈ kinds, ∀ k' ∈ kinds,
      Bytes.ofString k.text ++ [0x20] = Bytes.ofString k'.text ++ [0x20] → k = k' := by decide
  exact hkinds k (hmem k) k' (hmem k') h

theorem titled_injective {k k' : NameKind} {p p' : List Bytes} (hp : AllNames p) (hp' : AllNames p') (hne : p ≠ [])
    (hne' : p' ≠ []) (h : titled k.text p = titled k'.text p') : k = k' ∧ p = p' := by
  have hform : ∀ (k : NameKind) (p : List Bytes), titled k.text p =
      (Bytes.ofString k.text ++ [0x20]) ++ 0x60 :: (pathName p ++ Bytes.ofString "`") := by
    intro k p
    simp only [titled, List.append_assoc]
    rfl
  have hkind : ∀ k : NameKind, ∀ b ∈ Bytes.ofString k.text ++ [0x20], (b != 0x60) = true := by
    intro k
    exact List.all_eq_true.1 (by cases k <;> decide)
  rw [hform, hform] at h
  obtain ⟨hk, hrest⟩ := Token.append_inj_of_span (hkind k) (hkind k') (by simp) (by simp) h
  refine ⟨NameKind.text_injective hk, pathName_injective hp hp' hne hne' ?_⟩
  exact List.append_cancel_right (List.cons.inj hrest).2

/-- The type that a name belongs to: whether it is a union, and what it is called. -/
def Origin.stem : Origin → Option (Bool × List Bytes)
  | .name .enum path | .name .sequence path => some (false, path)
  | .name .enumVariant path | .name .field path => some (false, path.dropLast)
  | .name .oneOf path => some (true, path)
  | .name .oneOfVariant path => some (true, path.dropLast)
  | .method => none

def typeStem : TypeDef → Option (Bool × List Bytes)
  | .enum e => some (false, [e.name])
  | .sequence q => some (false, [q.name])
  | .oneOf o => some (true, o.path)
  | _ => none

theorem ne_of_length {w v : Bytes} (h : w.length ≠ v.length) : w ≠ v := fun heq => h (congrArg List.length heq)

/-- What members of distinct names are declared by is told apart by its origin, so it is enough to look at one. -/
theorem pairwise_flatMap_members {α : Type} {name : α → Bytes} {declared : α → List Declaration} {kind : NameKind}
    {path : List Bytes} {xs : List α} (h : (xs.map name).Nodup)
    (horigin : ∀ x, ∀ d ∈ declared x, d.origin = .name kind (path ++ [name x]))
    (hone : ∀ x, (declared x).Pairwise fun a b => a.origin ≠ .method → a ≠ b) :
    (xs.flatMap declared).Pairwise fun a b => a.origin ≠ .method → a ≠ b := by
  refine List.pairwise_flatMap.2 ⟨fun x _ => hone x, ?_⟩
  refine (List.pairwise_map.1 h).imp fun {x y} hne a ha b hb _ heq => hne ?_
  have hx := horigin x a ha
  rw [heq, horigin y b hb] at hx
  simpa using hx.symm

theorem titled_ne_method (k : NameKind) (path : List Bytes) (w : Bytes) :
    titled k.text path ≠ "generated method `" ++ w ++ "`" := by
  intro heq
  cases k <;> cases congrArg List.head? heq

/-- Types by what they are called, with distinct members: what tells the names of a schema apart. -/
structure Named (s : Schema) : Prop extends s.Legible where
  stems : (sourceTypes s).Pairwise fun t u => typeStem t ≠ typeStem u
  distinct : ∀ id t, s.type? id = some t → t.memberNames.Nodup

theorem typeStem_of_declName? {n : Bytes} (h : t.declName? = some n) : typeStem t = some (false, [n]) := by
  cases t with
  | primitive | string | list | oneOf => cases h
  | enum | sequence =>
    cases h
    rfl

theorem stems_of_distinct (h : s.Legible)
    (hdecls : s.decls.Pairwise fun a b => s.declName? a ≠ s.declName? b) (hunions : s.oneOfs.Nodup) :
    (sourceTypes s).Pairwise fun t u => typeStem t ≠ typeStem u := by
  refine List.pairwise_append.2 ⟨.filter _ (List.pairwise_filterMap.2 ?_), List.pairwise_map.2 ?_, ?_⟩
  · refine hdecls.imp_of_mem fun {i j} hi hj hne t ht u hu heq => ?_
    obtain ⟨n, hn⟩ := Option.ne_none_iff_exists'.1 (h.named i hi)
    obtain ⟨m, hm⟩ := Option.ne_none_iff_exists'.1 (h.named j hj)
    have htype : t.declName? = some n := by simpa [Schema.declName?, ht] using hn
    have htype' : u.declName? = some m := by simpa [Schema.declName?, hu] using hm
    rw [typeStem_of_declName? htype, typeStem_of_declName? htype'] at heq
    simp only [Option.some.injEq, Prod.mk.injEq, List.cons.injEq, and_true, true_and] at heq
    exact hne (by rw [hn, hm, heq])
  · refine List.pairwise_filterMap.2 (hunions.imp fun {i j} hne u hu v hv heq => hne ?_)
    split at hu
    · next o ho =>
      split at hv
      · next o' ho' =>
        cases hu
        cases hv
        simp only [typeStem, Option.some.injEq, Prod.mk.injEq, true_and] at heq
        exact h.unions i j o o' ho ho' heq
      · cases hv
    · cases hu
  · intro t ht u hu heq
    obtain ⟨v, -, rfl⟩ := List.mem_map.1 hu
    obtain ⟨n, hn⟩ := Option.isSome_iff_exists.1 (List.mem_filter.1 ht).2
    rw [typeStem_of_declName? hn] at heq
    cases heq

variable [Libraries]

/-! ### A conflict that is found -/

theorem exists_split_of_conflict [Libraries.Titled] (h : Spoken s) (hpaths : ∀ u ∈ s.unions, u.2.path ≠ [])
    (hc : conflict? s = some c) :
    ∃ xs d ys e, declarations s = xs ++ d :: ys ∧ e ∈ xs ∧ e.item = d.item ∧ c = ⟨d.item.key, e.owner, d.owner⟩ ∧
      (xs.map Declaration.item).Nodup := by
  rw [conflict?, declared_eq hpaths] at hc
  obtain ⟨as, a, bs, b, hsplit, hb, hident, rfl, hnone⟩ := firstConflict_eq_some hc
  obtain ⟨xs, rest, hdecls, rfl, hrest⟩ := List.map_eq_append_iff.1 hsplit
  obtain ⟨d, ys, rfl, rfl, -⟩ := List.map_eq_cons_iff.1 hrest
  obtain ⟨e, he, rfl⟩ := List.mem_map.1 (hb.resolve_left List.not_mem_nil)
  have hd : d ∈ declarations s := hdecls ▸ List.mem_append_right _ List.mem_cons_self
  have he' : e ∈ declarations s := hdecls ▸ List.mem_append_left _ he
  have hnodup := (firstConflict_eq_none_iff.1 hnone).1
  rw [List.map_map] at hnodup
  refine ⟨xs, d, ys, e, hdecls, he, key_injOn h he' hd hident, rfl, ?_⟩
  exact List.Nodup.of_map Item.key (by rwa [List.map_map])

/-- The methods of a type are distinct, and stand after what they are part of and before what else names declare. -/
theorem exists_methods (t : TypeDef) : ∃ heads methods rest, typeDeclarations t = heads ++ (methods ++ rest) ∧
    (∀ a ∈ heads ++ rest, a.origin ≠ .method) ∧ (∀ a ∈ methods, a.item.root ∈ heads.map Declaration.item) ∧
      (methods.map Declaration.item).Nodup := by
  cases t with
  | primitive | string | list => exact ⟨[], [], [], rfl, by simp, by simp, by simp⟩
  | enum e =>
    refine ⟨enumDeclarations e, [], [], (List.append_nil _).symm, ?_, by simp, by simp⟩
    simp [enumDeclarations]
  | sequence q =>
    refine ⟨[_, _, _], [_, _, _, _], q.fields.flatMap _, rfl, List.forall_mem_append.2 ⟨by simp, ?_⟩, ?_, ?_⟩
    · intro a ha
      obtain ⟨f, -, ha⟩ := List.mem_flatMap.1 ha
      simp only [List.mem_cons, List.not_mem_nil, or_false] at ha
      rcases ha with rfl | rfl <;> simp
    · simp [Item.root]
    · simp +decide
  | oneOf o =>
    refine ⟨[_, _], [_, _], o.variants.flatMap _, rfl, List.forall_mem_append.2 ⟨by simp, ?_⟩, ?_, ?_⟩
    · intro a ha
      obtain ⟨v, -, ha⟩ := List.mem_flatMap.1 ha
      simp only [List.mem_cons, List.not_mem_nil, or_false] at ha
      rcases ha with rfl | rfl | rfl <;> simp
    · simp [Item.root]
    · simp +decide

/-- The conflict that is found first is not one of two methods: the types that have them are declared before. -/
theorem not_both_methods (hsplit : ts.flatMap typeDeclarations = xs ++ d :: ys) (he : e ∈ xs)
    (hitem : e.item = d.item) (hnodup : (xs.map Declaration.item).Nodup) (hd : d.origin = .method) :
    e.origin ≠ .method := by
  intro hemethod
  obtain ⟨us, t, vs, p, q, rfl, ht, rfl⟩ := exists_split_flatMap hsplit
  obtain ⟨heads, methods, rest, htype, hnames, hroots, hmethods⟩ := exists_methods t
  obtain ⟨hheads, hrest⟩ := List.forall_mem_append.1 hnames
  rw [htype, ← List.append_assoc] at ht
  obtain ⟨cs, hcs⟩ := mem_left_of_append ht fun h => hrest d h hd
  obtain ⟨as, rfl, hmethods'⟩ := mem_right_of_append hcs fun h => hheads d h hd
  rcases List.mem_append.1 he with he | he
  · -- the root of the item is declared by both types
    obtain ⟨u, hu, heu⟩ := List.mem_flatMap.1 he
    have hroot : d.item.root ∈ (us.flatMap typeDeclarations).map Declaration.item := by
      obtain ⟨a, ha, heq⟩ := List.mem_map.1 (root_mem _ (List.mem_append_left _ (List.mem_map_of_mem heu)))
      exact List.mem_map.2 ⟨a, List.mem_flatMap.2 ⟨u, hu, ha⟩, by rw [heq, hitem]⟩
    have hroot' : d.item.root ∈ heads.map Declaration.item :=
      hroots d (hmethods' ▸ List.mem_append_right _ List.mem_cons_self)
    rw [List.map_append, List.map_append, List.nodup_append] at hnodup
    exact hnodup.2.2 _ hroot _ (List.mem_append_left _ hroot') rfl
  · rcases List.mem_append.1 he with he | he
    · exact hheads e he hemethod
    · rw [hmethods', List.map_append, List.map_cons, List.nodup_append] at hmethods
      exact hmethods.2.2 _ (List.mem_map_of_mem he) _ List.mem_cons_self hitem

/-! ### The names in a conflict -/

theorem origin_cases : ∀ d ∈ typeDeclarations t, d.origin = .method ∨ d.origin.stem = typeStem t ∧
    ∃ kind stem, typeStem t = some stem ∧ (d.origin = .name kind stem.2 ∨
      ∃ n ∈ t.memberNames, d.origin = .name kind (stem.2 ++ [n])) := by
  cases t with
  | primitive | string | list => exact List.forall_mem_nil _
  | enum e =>
    refine List.forall_mem_cons.2 ⟨.inr ⟨rfl, _, _, rfl, .inl rfl⟩, List.forall_mem_map.2 fun v hv => ?_⟩
    exact .inr ⟨rfl, _, _, rfl, .inr ⟨v.name, List.mem_map_of_mem hv, rfl⟩⟩
  | sequence q =>
    simp only [typeDeclarations, sequenceDeclarations, List.forall_mem_append, List.forall_mem_flatMap,
      List.forall_mem_cons, List.not_mem_nil, false_implies, implies_true, and_true, true_or]
    refine ⟨?_, fun f hf => ⟨.inr ?_, .inr ?_⟩⟩
    · exact ⟨.inr ⟨rfl, _, _, rfl, .inl rfl⟩, .inr ⟨rfl, _, _, rfl, .inl rfl⟩, .inr ⟨rfl, _, _, rfl, .inl rfl⟩⟩
    all_goals exact ⟨rfl, _, _, rfl, .inr ⟨f.name, List.mem_map_of_mem hf, rfl⟩⟩
  | oneOf o =>
    simp only [typeDeclarations, unionDeclarations, List.forall_mem_append, List.forall_mem_flatMap,
      List.forall_mem_cons, List.not_mem_nil, false_implies, implies_true, and_true, true_or]
    refine ⟨⟨.inr ⟨rfl, _, _, rfl, .inl rfl⟩, .inr ⟨rfl, _, _, rfl, .inl rfl⟩⟩, fun v hv => ⟨.inr ?_, .inr ?_, .inr ?_⟩⟩
    all_goals exact ⟨by simp [Origin.stem, typeStem], _, _, rfl, .inr ⟨v.name, List.mem_map_of_mem hv, rfl⟩⟩

theorem pairwise_sequenceDeclarations {q : SequenceType} (h : (q.fields.map Field.name).Nodup) :
    (sequenceDeclarations q).Pairwise fun a b => a.origin ≠ .method → a ≠ b := by
  have hwriter : exportedName q.name ++ "Writer" ≠ "New" ++ (exportedName q.name ++ "Reader") :=
    ne_of_length (by simp +arith +decide)
  have hreader : exportedName q.name ++ "Reader" ≠ "New" ++ (exportedName q.name ++ "Reader") :=
    ne_of_length (by simp +arith +decide)
  refine List.pairwise_append.2 ⟨by simp +decide [hwriter, hreader], ?_, ?_⟩
  · refine @pairwise_flatMap_members _ _ _ .field [q.name] _ h (fun f d hd => ?_) fun f => by simp +decide
    simp only [List.mem_cons, List.not_mem_nil, or_false] at hd
    rcases hd with rfl | rfl <;> rfl
  · intro a ha b hb hname heq
    obtain ⟨f, -, hb⟩ := List.mem_flatMap.1 hb
    subst heq
    simp only [List.mem_cons, List.not_mem_nil, or_false] at ha hb
    rcases hb with rfl | rfl <;> simp at ha

theorem pairwise_unionDeclarations {o : OneOfType} (h : (o.variants.map Variant.name).Nodup) :
    (unionDeclarations o).Pairwise fun a b => a.origin ≠ .method → a ≠ b := by
  refine List.pairwise_append.2 ⟨by simp +decide, ?_, ?_⟩
  · refine @pairwise_flatMap_members _ _ _ .oneOfVariant o.path _ h (fun v d hd => ?_) fun v => ?_
    · simp only [List.mem_cons, List.not_mem_nil, or_false] at hd
      rcases hd with rfl | rfl | rfl <;> rfl
    · have hmaker : unionName o.path ++ "_" ++ exportedName v.name ≠
          "New" ++ (unionName o.path ++ "Writer") ++ exportedName v.name :=
        ne_of_length (by simp +arith +decide)
      simp [-List.append_assoc, hmaker]
  · intro a ha b hb hname heq
    obtain ⟨v, -, hb⟩ := List.mem_flatMap.1 hb
    subst heq
    simp only [List.mem_cons, List.not_mem_nil, or_false] at ha hb
    rcases hb with rfl | rfl | rfl <;> simp at ha

theorem pairwise_typeDeclarations (h : t.memberNames.Nodup) :
    (typeDeclarations t).Pairwise fun a b => a.origin ≠ .method → a ≠ b := by
  cases t with
  | primitive | string | list => exact .nil
  | enum e =>
    refine List.pairwise_cons.2 ⟨?_, List.pairwise_map.2 ((List.pairwise_map.1 h).imp fun {v w} hne _ heq => ?_)⟩
    · intro b hb _ heq
      obtain ⟨v, -, rfl⟩ := List.mem_map.1 hb
      exact absurd (congrArg Declaration.origin heq) (by simp)
    · simp only [Declaration.mk.injEq, Origin.name.injEq, List.cons.injEq] at heq
      exact hne heq.2.2.2.1
  | sequence q => exact pairwise_sequenceDeclarations h
  | oneOf o => exact pairwise_unionDeclarations h

theorem Named.pairwise (h : Named s) : (declarations s).Pairwise fun a b => a.origin ≠ .method → a ≠ b := by
  refine List.pairwise_flatMap.2 ⟨fun t ht => ?_, h.stems.imp fun {t u} hne a ha b hb hname heq => hne ?_⟩
  · obtain ⟨id, hid⟩ := mem_sourceTypes ht
    exact pairwise_typeDeclarations (h.distinct id t hid)
  · rw [← ((origin_cases _ ha).resolve_left hname).1, heq]
    exact ((origin_cases _ hb).resolve_left (heq ▸ hname)).1

theorem Named.path (h : Named s) {kind : NameKind} {path : List Bytes} (hd : d ∈ declarations s)
    (hname : d.origin = .name kind path) : path ≠ [] ∧ AllNames path := by
  obtain ⟨t, ht, hdt⟩ := List.mem_flatMap.1 hd
  obtain ⟨id, hid⟩ := mem_sourceTypes ht
  have hstem : ∀ stem, typeStem t = some stem → stem.2 ≠ [] ∧ AllNames stem.2 := by
    intro stem hstem
    cases t with
    | primitive | string | list => cases hstem
    | enum e =>
      cases hstem
      have hname : s.declName? id = some e.name := by rw [Schema.declName?, hid]; rfl
      exact ⟨List.cons_ne_nil _ _, List.forall_mem_singleton.2 (h.names id e.name hname).1⟩
    | sequence q =>
      cases hstem
      have hname : s.declName? id = some q.name := by rw [Schema.declName?, hid]; rfl
      exact ⟨List.cons_ne_nil _ _, List.forall_mem_singleton.2 (h.names id q.name hname).1⟩
    | oneOf o =>
      cases hstem
      exact h.paths id o hid
  obtain ⟨-, k, stem, htype, hcase⟩ := (origin_cases _ hdt).resolve_left (by rw [hname]; simp)
  obtain ⟨hne, hall⟩ := hstem stem htype
  rcases hcase with heq | ⟨n, hn, heq⟩
  · cases hname.symm.trans heq
    exact ⟨hne, hall⟩
  · cases hname.symm.trans heq
    exact ⟨by simp, List.forall_mem_append.2 ⟨hall, List.forall_mem_singleton.2 (h.members id t hid n hn)⟩⟩

theorem Named.owner_ne (h : Named s) (hsplit : declarations s = xs ++ d :: ys) (he : e ∈ xs) (hitem : e.item = d.item)
    (hmethods : d.origin = .method → e.origin ≠ .method) : e.owner ≠ d.owner := by
  have hd : d ∈ declarations s := hsplit ▸ List.mem_append_right _ List.mem_cons_self
  have he' : e ∈ declarations s := hsplit ▸ List.mem_append_left _ he
  intro howner
  rw [Declaration.owner, Declaration.owner] at howner
  cases horigin : d.origin with
  | method =>
    cases horigin' : e.origin with
    | method => exact hmethods horigin horigin'
    | name k p =>
      rw [horigin, horigin'] at howner
      exact titled_ne_method k p _ howner
  | name k p =>
    cases horigin' : e.origin with
    | method =>
      rw [horigin, horigin'] at howner
      exact titled_ne_method k p _ howner.symm
    | name k' p' =>
      rw [horigin, horigin'] at howner
      obtain ⟨hne, hall⟩ := h.path hd horigin
      obtain ⟨hne', hall'⟩ := h.path he' horigin'
      obtain ⟨rfl, rfl⟩ := titled_injective hall' hall hne' hne howner
      have heq : e = d := by
        obtain ⟨i, o⟩ := d
        obtain ⟨i', o'⟩ := e
        cases hitem
        rw [show o' = o from horigin'.trans horigin.symm]
      have hpairs := h.pairwise
      rw [hsplit, List.pairwise_append] at hpairs
      exact hpairs.2.2 e he d List.mem_cons_self (by rw [horigin']; simp) heq

end Flatwire.Generate

namespace Flatwire

theorem FieldList.findings_of_mem {known : Bytes → Bool} {fs : FieldList} {f : FieldExpr} (hf : f ∈ fs.toList)
    (h : fs.findings known = []) : f.type.findings known = [] := by
  induction fs using FieldList.induction with
  | nil => cases hf
  | cons g gap rest ih =>
    obtain ⟨⟩ := g
    obtain ⟨htype, hrest⟩ := List.append_eq_nil_iff.1 h
    rcases List.mem_cons.1 hf with rfl | hf
    · exact htype
    · exact ih hf hrest

theorem Schema.OneOfIn.distinct {known : Bytes → Bool} {path p : List Bytes} {type : TypeExpr} {vs : FieldList}
    (h : OneOfIn path type p vs) (hfindings : type.findings known = []) :
    (vs.toList.map fun f => f.name.text).Nodup := by
  induction h with
  | here =>
    simp only [TypeExpr.findings, List.append_eq_nil_iff] at hfindings
    exact (conflicts_eq_nil hfindings.1.2).1
  | list _ ih => exact ih hfindings
  | variant hf _ ih =>
    simp only [TypeExpr.findings, List.append_eq_nil_iff] at hfindings
    exact ih (FieldList.findings_of_mem hf hfindings.2)

theorem Schema.AreVariants.names_eq {s : Schema} {path : List Bytes} {tag : Nat} {variants : FieldList}
    {vs : List Variant} (h : s.AreVariants path tag variants vs) :
    vs.map Variant.name = variants.toList.map fun f => f.name.text := by
  induction variants using FieldList.induction generalizing tag vs with
  | nil =>
    cases h
    rfl
  | cons f gap rest ih =>
    cases h with
    | cons hname _ _ hrest => rw [List.map_cons, hname, ih hrest]; rfl

namespace Compile

variable {ds : List Decl} {st : State}

theorem Compiled.distinct {known : Bytes → Bool} {d : Decl} {t : TypeDef} (h : Compiled st d t)
    (hfindings : d.findings known = []) : t.memberNames.Nodup := by
  cases d with
  | enum e =>
    cases h
    have hnames := (conflicts_eq_nil (List.append_eq_nil_iff.1 hfindings).1).1
    have heq : (enumType e).memberNames = e.items.map fun i => i.name.text := by
      rw [enumType, TypeDef.memberNames, EnumDecl.variants, List.map_map]
      rfl
    rwa [heq]
  | sequence d =>
    obtain ⟨gs, off, rfl, -, hlaid⟩ := h
    have hnames := (conflicts_eq_nil (List.append_eq_nil_iff.1 hfindings).1).1
    rw [TypeDef.memberNames, hlaid.areFields.names_eq]
    exact hnames

theorem Accepted.nodup_oneOfs (h : Accepted ds st) : st.builder.schema.oneOfs.Nodup := by
  have hlisted : st.builder.schema.oneOfs = st.builder.schema.unionPlaces := h.listed
  rw [hlisted, Schema.unionPlaces]
  exact List.nodup_range.filter _

theorem named_of_compile {src : Bytes} {keep : Bool} {tree : SchemaTree} {name : Bytes} {s : Schema}
    (hparse : SchemaTree.parse src keep = .ok tree) (hschema : (compile tree name).schema = some s) :
    Generate.Named s := by
  have hlegible := (connected_of_compile hparse hschema).toLegible
  have herrors := errors_of_schema hschema
  obtain ⟨haccepted, heq⟩ := compile_accepted herrors
  cases hschema.symm.trans heq
  have hfindings := findings_of_errors herrors
  have hdecls : ∀ d ∈ tree.decls, d.findings (declares tree.decls) = [] := by
    simp only [findings, List.append_eq_nil_iff, List.flatMap_eq_nil_iff] at hfindings
    exact hfindings.2
  have hclosed := closed_compileDecls tree.decls name
  generalize (compileDecls tree.decls (start name)).2 = st at *
  refine ⟨hlegible, Generate.stems_of_distinct hlegible haccepted.distinct haccepted.nodup_oneOfs, fun id t ht => ?_⟩
  cases t with
  | primitive | string | list => exact List.nodup_nil
  | enum e =>
    obtain ⟨d, hd, hcompiled⟩ := haccepted.exists_compiled hclosed ht (by simp [TypeDef.declName?])
    exact hcompiled.distinct (hdecls d hd)
  | sequence q =>
    obtain ⟨d, hd, hcompiled⟩ := haccepted.exists_compiled hclosed ht (by simp [TypeDef.declName?])
    exact hcompiled.distinct (hdecls d hd)
  | oneOf o =>
    obtain ⟨i, d, f, vs, hd, hf, hin, hvs⟩ := haccepted.unions id o ht
    have hfields : d.fieldList.findings (declares tree.decls) = [] :=
      (List.append_eq_nil_iff.1 (hdecls _ (List.mem_of_getElem? hd))).2
    rw [TypeDef.memberNames, hvs.names_eq]
    exact hin.distinct (FieldList.findings_of_mem hf hfields)

end Compile

namespace Generate

section Check

variable [Libraries] {s : Schema}

theorem accessors_of_none (h : conflict? s = none) (o : SourceOptions) :
    accessors s o = if (leadingIdentifiers s).any startsWithDigit then .error .malformed
      else .ok (Bytes.unlines (headerSource s o) ++ body s) := by
  rw [accessors, h]
  dsimp only
  split_ifs
  · rfl
  · rw [body, sourceTypes, List.flatMap_append, List.flatMap_map, Bytes.unlines, Bytes.unlines, Bytes.unlines,
      List.append_assoc, ← List.flatMap_append]
    refine congrArg (fun ls => Except.ok ((headerSource s o ++ ls).flatMap (· ++ [0x0A])))
      (congrArg₂ _ (flatMap_filter_of_nil ?_ ?_) rfl)
    · intro t _ ht
      cases t with
      | primitive | string | list | oneOf => cases ht
      | enum | sequence => rfl
    · intro t _ ht
      cases t with
      | primitive | string | list | oneOf => rfl
      | enum | sequence => cases ht

variable [Libraries.Titled]

theorem two_le_count {xs ys : List Declaration} {d e : Declaration} (h : Spoken s)
    (hsplit : declarations s = xs ++ d :: ys) (he : e ∈ xs) (hitem : e.item = d.item) :
    2 ≤ (outline (body s)).count d.item := by
  have hperm : ((declarations s).map Declaration.item ++ (sourceTypes s).flatMap fixedItems).Perm
      (outline (body s)) := by
    rw [declarations, List.map_flatMap]
    exact (List.flatMap_append_perm _ _ _).trans (outline_body h).symm
  have hbefore : 1 ≤ (xs.map Declaration.item).count d.item :=
    List.one_le_count_iff.2 (hitem ▸ List.mem_map_of_mem he)
  have hat : 1 ≤ ((d :: ys).map Declaration.item).count d.item := List.one_le_count_iff.2 List.mem_cons_self
  rw [← hperm.count_eq, hsplit, List.map_append, List.count_append, List.count_append]
  omega

/-- The check of identifiers is exact for compiled schemas. It passes if and only if in the source no identifier at
package level, and no field or method of one type, is declared twice, and then the source comes out if its identifiers
can stand where they do. Where it fails, the item that it reports is declared at least twice, by two names of the schema
or a name and a method, which are those of the report, and no source comes out. -/
theorem conflict_check_exact {src : Bytes} {keep : Bool} {tree : SchemaTree} {name : Bytes}
    (hparse : SchemaTree.parse src keep = .ok tree) (hschema : (compile tree name).schema = some s) :
    (conflict? s = none ↔ (packageIdents (outline (body s))).Nodup ∧
      ∀ type, (memberIdents type (outline (body s))).Nodup) ∧
    (conflict? s = none → ∀ o, accessors s o = if (leadingIdentifiers s).any startsWithDigit then .error .malformed
      else .ok (Bytes.unlines (headerSource s o) ++ body s)) ∧
    ∀ c, conflict? s = some c →
      (∃ d ∈ declarations s, ∃ e ∈ declarations s, d.item = e.item ∧ 2 ≤ (outline (body s)).count d.item ∧
        c = ⟨d.item.key, d.owner, e.owner⟩ ∧ d.owner ≠ e.owner ∧ (d.origin = .method → e.origin ≠ .method)) ∧
      ∀ o, accessors s o = .error (.conflict c) := by
  have hnamed := Compile.named_of_compile hparse hschema
  have hspoken := spoken_of_legible hnamed.toLegible
  have hpaths : ∀ u ∈ s.unions, u.2.path ≠ [] := by
    intro u hu
    obtain ⟨id, hid⟩ := mem_sourceTypes (List.mem_append_right _ (List.mem_map_of_mem hu))
    exact (hnamed.paths id u.2 hid).1
  have hnone := (conflict?_eq_none_iff hspoken hpaths).trans nodup_iff_idents
  refine ⟨hnone, accessors_of_none, fun c hc => ⟨?_, fun o => ?_⟩⟩
  · obtain ⟨xs, d, ys, e, hsplit, he, hitem, rfl, hnodup⟩ := exists_split_of_conflict hspoken hpaths hc
    have hmethods := not_both_methods hsplit he hitem hnodup
    have hd : d ∈ declarations s := hsplit ▸ List.mem_append_right _ List.mem_cons_self
    have he' : e ∈ declarations s := hsplit ▸ List.mem_append_left _ he
    refine ⟨e, he', d, hd, hitem, ?_, by rw [hitem], hnamed.owner_ne hsplit he hitem hmethods, fun hem hdm => ?_⟩
    · rw [hitem]
      exact two_le_count hspoken hsplit he hitem
    · exact hmethods hdm hem
  · rw [accessors, hc]

end Check

theorem titled_plain : letI := Libraries.plain; Libraries.Titled := by
  let := Libraries.plain
  have hall : ∀ n < 256, Token.isWord (UInt8.ofNat n) = true →
      Token.isWord (if 97 ≤ UInt8.ofNat n && UInt8.ofNat n ≤ 122 then UInt8.ofNat n - 32 else UInt8.ofNat n) = true := by
    decide +kernel
  have hfirst : ∀ n < 256,
      (97 ≤ (if 97 ≤ UInt8.ofNat n && UInt8.ofNat n ≤ 122 then UInt8.ofNat n - 32 else UInt8.ofNat n) &&
        (if 97 ≤ UInt8.ofNat n && UInt8.ofNat n ≤ 122 then UInt8.ofNat n - 32 else UInt8.ofNat n) ≤ 122) = false := by
    decide +kernel
  refine ⟨fun _ _ => rfl, fun w hw _ => ?_, fun w _ _ => ?_⟩
  · cases w with
    | nil => exact hw
    | cons b bs =>
      obtain ⟨hb, hbs⟩ := List.forall_mem_cons.1 hw
      have hb' := hall b.toNat b.toNat_lt (by rwa [UInt8.ofNat_toNat])
      rw [UInt8.ofNat_toNat] at hb'
      exact List.forall_mem_cons.2 ⟨hb', hbs⟩
  · cases w with
    | nil => exact fun b hb => by cases hb
    | cons b bs =>
      have hb' := hfirst b.toNat b.toNat_lt
      rw [UInt8.ofNat_toNat] at hb'
      rintro c ⟨⟩
      exact hb'

/-- A schema in which nothing conflicts, with the members of one of its types as the source declares them, and one where
the path of a union and the name of a sequence make one identifier. -/
theorem conflict_check_exact_samples :
    letI := Libraries.plain
    let apart := Bytes.ofString "enum E{x=0;}sequence A{e:E;u:oneof{a:u8;};}"
    let clash := Bytes.ofString "sequence Foo{bar:oneof{a:u8;};}sequence FooBar{x:u8;}"
    let found : NameConflict := ⟨"FooBarWriter", "sequence `FooBar`", "oneof `Foo::bar`"⟩
    ∃ tree₁ tree₂ s₁ s₂, SchemaTree.parse apart false = .ok tree₁ ∧ SchemaTree.parse clash false = .ok tree₂ ∧
      (compile tree₁ "s").schema = some s₁ ∧ (compile tree₂ "s").schema = some s₂ ∧
      memberIdents "AReader" (outline (body s₁)) = ["buf", "addr", "Addr", "E", "U"].map Bytes.ofString ∧
      (packageIdents (outline (body s₁))).Nodup ∧ conflict? s₂ = some found ∧
      (∃ d ∈ declarations s₂, d.item.key = Bytes.ofString "FooBarWriter" ∧ 2 ≤ (outline (body s₂)).count d.item) ∧
      ∀ o, accessors s₂ o = .error (.conflict found) := by
  let := Libraries.plain
  have := titled_plain
  intro apart clash found
  let clean (tree : SchemaTree) : Bool := (compile tree "s").schema.any fun s => conflict? s == none &&
    memberIdents "AReader" (outline (body s)) == ["buf", "addr", "Addr", "E", "U"].map Bytes.ofString
  let clashes (tree : SchemaTree) : Bool := (compile tree "s").schema.any fun s => conflict? s == some found
  obtain ⟨tree₁, htree₁, h₁⟩ : ∃ tree, SchemaTree.parse apart false = .ok tree ∧ clean tree = true :=
    SchemaTree.exists_parse (by decide +kernel)
  obtain ⟨tree₂, htree₂, h₂⟩ : ∃ tree, SchemaTree.parse clash false = .ok tree ∧ clashes tree = true :=
    SchemaTree.exists_parse (by decide +kernel)
  obtain ⟨s₁, hs₁, heq₁⟩ := (Option.any_eq_true ..).1 h₁
  obtain ⟨s₂, hs₂, heq₂⟩ := (Option.any_eq_true ..).1 h₂
  rw [Bool.and_eq_true, beq_iff_eq, beq_iff_eq] at heq₁
  rw [beq_iff_eq] at heq₂
  obtain ⟨hnone, hmembers⟩ := heq₁
  have hexact := conflict_check_exact htree₁ hs₁
  obtain ⟨⟨d, hd, e, -, -, hcount, hfound, -, -⟩, herror⟩ := (conflict_check_exact htree₂ hs₂).2.2 found heq₂
  have hkey : d.item.key = Bytes.ofString "FooBarWriter" := (congrArg NameConflict.ident hfound).symm
  exact ⟨tree₁, tree₂, s₁, s₂, htree₁, htree₂, hs₁, hs₂, hmembers, (hexact.1.1 hnone).1, heq₂,
    ⟨d, hd, hkey, hcount⟩, herror⟩

end Generate

end Flatwire
