import Mathlib.Data.List.Basic
import Flatwire.Compile
import Flatwire.Proofs.Arena

/-! Resolving a type expression. It appends types to the arena and reports what is wrong in the expression, which depends
on the names that are declared and on nothing else. If nothing is wrong, the place that it gives denotes the type that
the expression says. -/

namespace Flatwire

theorem TypeExpr.induction {P : TypeExpr → Prop} {Q : FieldList → Prop} (name : ∀ ident, P (.name ident))
    (list : ∀ s o g elem g' c, P elem → P (.list s o g elem g' c))
    (oneOf : ∀ s k g o g' vs c, Q vs → P (.oneOf s k g o g' vs c)) (nil : Q .nil)
    (cons : ∀ f gap rest, P f.type → Q rest → Q (.cons f gap rest)) : (∀ t, P t) ∧ ∀ fs, Q fs :=
  have field : ∀ s n g c g' t g'' semi, P t → P (FieldExpr.mk s n g c g' t g'' semi).type := fun _ _ _ _ _ _ _ _ h => h
  ⟨fun t => @TypeExpr.rec P (fun f => P f.type) Q name list oneOf field nil cons t,
    fun fs => @FieldList.rec P (fun f => P f.type) Q name list oneOf field nil cons fs⟩

namespace Schema

variable {path : List Bytes}

/-! ### What an expression says -/

mutual

/-- The type at a place is the one that the expression says, in a schema with these declarations. A union belongs to the
path of names that leads to it. -/
inductive Denotes (s : Schema) : List Bytes → TypeExpr → TypeId → Prop where
  | primitive {path ident id k} : PrimitiveKind.ofName? ident.text = some k → s.type? id = some (.primitive k) →
      Denotes s path (.name ident) id
  | string {path ident id} : ident.text = stringTypeName → s.type? id = some .string → Denotes s path (.name ident) id
  | declared {path ident id} : isBuiltin ident.text = false → s.lookup ident.text = some id →
      Denotes s path (.name ident) id
  | list {path span o g elem g' c id e} : Denotes s path elem e → s.type? id = some (.list e) →
      Denotes s path (.list span o g elem g' c) id
  | oneOf {path span k g o g' variants c id vs} : s.type? id = some (.oneOf ⟨path, vs⟩) →
      AreVariants s path 0 variants vs → Denotes s path (.oneOf span k g o g' variants c) id

/-- The variants of a union, of which the first has the given tag. -/
inductive AreVariants (s : Schema) : List Bytes → Nat → FieldList → List Variant → Prop where
  | nil {path tag} : AreVariants s path tag .nil []
  | cons {path tag f gap rest v vs} : v.name = f.name.text → v.tag.toNat = tag →
      Denotes s (path ++ [f.name.text]) f.type v.type → AreVariants s path (tag + 1) rest vs →
      AreVariants s path tag (.cons f gap rest) (v :: vs)

end

/-- A union with the given path and variants stands in the expression. -/
inductive OneOfIn : List Bytes → TypeExpr → List Bytes → FieldList → Prop where
  | here {path span k g o g' variants c} : OneOfIn path (.oneOf span k g o g' variants c) path variants
  | list {path span o g elem g' c p vs} : OneOfIn path elem p vs → OneOfIn path (.list span o g elem g' c) p vs
  | variant {path span k g o g' variants c f p vs} : f ∈ variants.toList → OneOfIn (path ++ [f.name.text]) f.type p vs →
      OneOfIn path (.oneOf span k g o g' variants c) p vs

/-- What expressions can refer to is kept, unions with a path of at least the given length among it. -/
structure Keeps (s s' : Schema) (n : Nat) : Prop where
  lookup : ∀ name id, s.lookup name = some id → s'.lookup name = some id
  types : ∀ id t, s.type? id = some t → t.declName? = none → (∀ o, t = .oneOf o → n ≤ o.path.length) →
    s'.type? id = some t

variable {s s' : Schema}

theorem Keeps.mono {m n : Nat} (h : s.Keeps s' m) (hmn : m ≤ n) : s.Keeps s' n :=
  ⟨h.lookup, fun id t ht hname hpath => h.types id t ht hname fun o ho => hmn.trans (hpath o ho)⟩

theorem keeps_denotes :
    (∀ type path id, s.Denotes path type id → s.Keeps s' path.length → s'.Denotes path type id) ∧
    ∀ variants path tag vs, s.AreVariants path tag variants vs → s.Keeps s' (path.length + 1) →
      s'.AreVariants path tag variants vs := by
  apply TypeExpr.induction
  case name =>
    intro ident path id h hk
    cases h with
    | primitive hname ht => exact .primitive hname (hk.types _ _ ht rfl (by simp))
    | string hname ht => exact .string hname (hk.types _ _ ht rfl (by simp))
    | declared hname hid => exact .declared hname (hk.lookup _ _ hid)
  case list =>
    intro _ _ _ elem _ _ ih path id h hk
    cases h with
    | list he ht => exact .list (ih _ _ he hk) (hk.types _ _ ht rfl (by simp))
  case oneOf =>
    intro _ _ _ _ _ variants _ ih path id h hk
    cases h with
    | oneOf ht hvs =>
      refine .oneOf (hk.types _ _ ht rfl ?_) (ih _ _ _ hvs (hk.mono (Nat.le_succ _)))
      rintro o ho
      cases ho
      exact Nat.le_refl _
  case nil =>
    intro path tag vs h _
    cases h
    exact .nil
  case cons =>
    intro f gap rest ihType ihRest path tag vs h hk
    cases h with
    | cons hname htag htype hrest =>
      exact .cons hname htag (ihType _ _ htype (by simpa using hk)) (ihRest _ _ _ hrest hk)

theorem Denotes.keep {type : TypeExpr} {id : TypeId} (h : s.Denotes path type id) (hk : s.Keeps s' path.length) :
    s'.Denotes path type id :=
  keeps_denotes.1 type path id h hk

theorem AreVariants.keep {tag : Nat} {variants : FieldList} {vs : List Variant}
    (h : s.AreVariants path tag variants vs) (hk : s.Keeps s' (path.length + 1)) :
    s'.AreVariants path tag variants vs :=
  keeps_denotes.2 variants path tag vs h hk

theorem OneOfIn.length_le {p : List Bytes} {type : TypeExpr} {vs : FieldList} (h : OneOfIn path type p vs) :
    path.length ≤ p.length := by
  induction h with
  | here => exact Nat.le_refl _
  | list _ ih => exact ih
  | variant _ _ ih =>
    rw [List.length_append] at ih
    omega

end Schema

theorem Builder.Appends.keeps {a b : Builder} (h : a.Appends b) (n : Nat) : a.schema.Keeps b.schema n :=
  ⟨fun name _ hid => (h.lookup name).trans hid, fun id t ht _ _ => h.types id t ht⟩

namespace Compile

variable {span : Span}

/-! ### What is wrong with an expression -/

mutual

/-- The errors in an expression: names that are neither built in nor declared, unions with too few or too many variants,
and variants whose name an earlier one has. -/
def typeErrors (declared : Bytes → Bool) (path : List Bytes) : TypeExpr → List CompileError
  | .name ident => errorIf (!isBuiltin ident.text && !declared ident.text) (.typeNotFound ident.text) ident.span
  | .list _ _ _ elem _ _ => typeErrors declared path elem
  | .oneOf _ keyword _ _ _ variants _ =>
    countErrors path keyword.span variants.toList.length ++ variantErrors declared path [] variants

/-- The errors in variants behind those with the given names. -/
def variantErrors (declared : Bytes → Bool) (path before : List Bytes) : FieldList → List CompileError
  | .nil => []
  | .cons (.mk _ name _ _ _ type _ _) _ rest =>
    errorIf (name.text ∈ before) (.variantConflict name.text path) name.span ++
      typeErrors declared (path ++ [name.text]) type ++ variantErrors declared path (before ++ [name.text]) rest

end

/-- No cycle is among the errors. -/
def Quiet (es : List CompileError) : Prop := ∀ e ∈ es, e.code ≠ 3007

theorem quiet_nil : Quiet [] := by simp [Quiet]

theorem quiet_append {es fs : List CompileError} : Quiet (es ++ fs) ↔ Quiet es ∧ Quiet fs := List.forall_mem_append

theorem quiet_singleton {e : CompileError} (h : e.code ≠ 3007) : Quiet [e] := by simpa [Quiet] using h

theorem quiet_errorIf {found : Bool} {cause : CompileError.Cause} (h : cause.code ≠ 3007) :
    Quiet (errorIf found cause span) := by
  unfold errorIf
  split_ifs
  · exact quiet_singleton h
  · exact quiet_nil

theorem quiet_typeErrors (declared : Bytes → Bool) :
    (∀ type path, Quiet (typeErrors declared path type)) ∧
    ∀ variants path before, Quiet (variantErrors declared path before variants) := by
  apply TypeExpr.induction
  case name =>
    intro ident path
    rw [typeErrors]
    exact quiet_errorIf (by simp [CompileError.Cause.code])
  case list =>
    intro _ _ _ elem _ _ ih path
    rw [typeErrors]
    exact ih path
  case oneOf =>
    intro _ keyword _ _ _ variants _ ih path
    rw [typeErrors, quiet_append]
    refine ⟨?_, ih path []⟩
    unfold countErrors
    split_ifs
    · exact quiet_singleton (by simp [CompileError.code, CompileError.Cause.code])
    · exact quiet_singleton (by simp [CompileError.code, CompileError.Cause.code])
    · exact quiet_nil
  case nil => exact fun path before => quiet_nil
  case cons =>
    intro f gap rest ihType ihRest path before
    obtain ⟨span, name, g₁, colon, g₂, type, g₃, semi⟩ := f
    rw [variantErrors, quiet_append, quiet_append]
    exact ⟨⟨quiet_errorIf (by simp [CompileError.Cause.code]), ihType _⟩, ihRest _ _⟩

/-! ### Resolving -/

/-- The state with another builder and more errors. -/
def State.amend (st : State) (b : Builder) (es : List CompileError) : State :=
  { st with builder := b, errors := st.errors ++ es }

variable {st : State} {path : List Bytes}

@[simp] theorem amend_infos (st : State) (b : Builder) (es : List CompileError) : (st.amend b es).infos = st.infos := rfl

@[simp] theorem amend_builder (st : State) (b : Builder) (es : List CompileError) : (st.amend b es).builder = b := rfl

theorem amend_amend (st : State) (b c : Builder) (es fs : List CompileError) :
    (st.amend b es).amend c fs = st.amend c (es ++ fs) := by
  simp [State.amend]

theorem amend_nil (st : State) : st.amend st.builder [] = st := by
  simp [State.amend]

theorem get_bind {α : Type} (f : State → CompileM α) : ((get : CompileM State) >>= f) st = f st st := rfl

theorem bind_of_eq {α β : Type} {x : CompileM α} {f : α → CompileM β} {a : α} {st' : State} (h : x st = (a, st')) :
    (x >>= f) st = f a st' := by
  change f (x st).1 (x st).2 = f a st'
  rw [h]

theorem place_of_ok {op : Builder → Builder.Reply TypeId} {id : TypeId} {b : Builder}
    (h : op st.builder = (.ok id, b)) : place op st = (id, st.amend b []) := by
  simp [place, h, State.amend]

theorem fill_of_ok {op : Builder → Builder.Reply Unit} {b : Builder} (h : op st.builder = (.ok (), b)) :
    fill op st = ((), st.amend b []) := by
  simp [fill, h, State.amend]

theorem report_eq (es : List CompileError) : report es st = ((), st.amend st.builder es) := rfl

/-- The names that have a declaration. -/
def declared (infos : Array DeclInfo) (name : Bytes) : Bool := (findDecl infos name).isSome

theorem findDecl_spec {infos : Array DeclInfo} {name : Bytes} {i : Nat} (h : findDecl infos name = some i) :
    ∃ info, infos[i]? = some info ∧ info.decl.name.text = name := by
  obtain ⟨hlt, hfound, -⟩ := Array.findIdx?_eq_some_iff_getElem.1 h
  exact ⟨infos[i], Array.getElem?_eq_getElem hlt, by simpa using hfound⟩

/-- The first declaration of a name has a place, under which the name is looked up. -/
def Indexed (infos : Array DeclInfo) (s : Schema) : Prop :=
  ∀ name i, findDecl infos name = some i → ∃ info id, infos[i]? = some info ∧ info.id = some id ∧ s.lookup name = some id

theorem Indexed.append {infos : Array DeclInfo} {a b : Builder} (h : Indexed infos a.schema) (hab : a.Appends b) :
    Indexed infos b.schema := by
  intro name i hi
  obtain ⟨info, id, hinfo, hid, hlookup⟩ := h name i hi
  exact ⟨info, id, hinfo, hid, (hab.lookup name).trans hlookup⟩

theorem Indexed.lt {infos : Array DeclInfo} {s : Schema} {name : Bytes} {i : Nat} {info : DeclInfo} (h : Indexed infos s)
    (hi : findDecl infos name = some i) (hinfo : infos[i]? = some info) :
    s.lookup name = some (info.id.getD 0) ∧ info.id.getD 0 < s.types.size := by
  obtain ⟨info', id, hinfo', hid, hlookup⟩ := h name i hi
  cases hinfo.symm.trans hinfo'
  have hname := List.find?_some (by exact hlookup)
  obtain ⟨t, ht, -⟩ := Option.bind_eq_some_iff.1 (of_decide_eq_true hname)
  rw [hid]
  exact ⟨hlookup, Schema.type?_lt ht⟩

theorem countErrors_eq_nil {count : Nat} (h : countErrors path span count = []) : 1 ≤ count ∧ count ≤ 255 := by
  unfold countErrors maxVariants at h
  split_ifs at h
  omega

theorem lookup_withUnion (b : Builder) (path : List Bytes) (name : Bytes) :
    (b.withUnion path).schema.lookup name = b.schema.lookup name := by
  apply Schema.lookup_congr
  · rfl
  · exact Builder.declName?_pushed rfl

/-- A name that is built in, and its type. -/
inductive Builtin (name : Bytes) : TypeDef → Prop where
  | primitive {k} : PrimitiveKind.ofName? name = some k → Builtin name (.primitive k)
  | string : name = stringTypeName → Builtin name .string

/-- Relations that each step of resolving keeps: between the builder before an expression, the place that is found for it
and the builder then, and likewise for variants behind others. -/
structure Stepwise (known : Bytes → Bool) (P : Builder → List Bytes → TypeExpr → Option TypeId → Builder → Prop)
    (Q : Builder → List Bytes → List Variant → FieldList → List Variant → Builder → Prop) : Prop where
  builtin : ∀ {b path ident t id c}, Builtin ident.text t → b.Interns t id c → P b path (.name ident) (some id) c
  named : ∀ {b path ident id}, isBuiltin ident.text = false → b.schema.lookup ident.text = some id →
    P b path (.name ident) (some id) b
  unknown : ∀ {b path ident}, isBuiltin ident.text = false → known ident.text = false → P b path (.name ident) none b
  unlisted : ∀ {b path span o g elem g' l c}, P b path elem none c → P b path (.list span o g elem g' l) none c
  list : ∀ {b path span o g elem g' l e c id d}, P b path elem (some e) c → e < c.schema.types.size →
    c.Interns (.list e) id d → P b path (.list span o g elem g' l) (some id) d
  oneOf : ∀ {b path span k g o g' fs l vs c d}, Q (b.withUnion path) path [] fs vs c → (b.withUnion path).Appends c →
    c.setOneOf b.schema.types.size vs = (.ok (), d) → b.Appends d →
    (∀ id, d.schema.type? id = if id = b.schema.types.size then some (.oneOf ⟨path, vs⟩) else c.schema.type? id) →
    P b path (.oneOf span k g o g' fs l) (some b.schema.types.size) d
  nil : ∀ {b path before}, Q b path before .nil [] b
  cons : ∀ {b path before f gap rest found c v vs d}, P b (path ++ [f.name.text]) f.type found c →
    v = ⟨f.name.text, UInt8.ofNat before.length, found.getD 0⟩ → c.Appends d → Q c path (before ++ [v]) rest vs d →
    Q b path before (.cons f gap rest) (v :: vs) d

section Stepwise

variable {known : Bytes → Bool} {P : Builder → List Bytes → TypeExpr → Option TypeId → Builder → Prop}
  {Q : Builder → List Bytes → List Variant → FieldList → List Variant → Builder → Prop} {type : TypeExpr}

/-- What resolving an expression does: it appends types, reports what is wrong, and is in the relation if the names that
are declared have their places. -/
def Resolves (P : Builder → List Bytes → TypeExpr → Option TypeId → Builder → Prop) (st : State) (path : List Bytes)
    (type : TypeExpr) : Prop :=
  ∃ found b, resolve path type st = (found, st.amend b (typeErrors (declared st.infos) path type)) ∧
    st.builder.Appends b ∧
    (Indexed st.infos st.builder.schema → P st.builder path type found b ∧ ∀ id ∈ found, id < b.schema.types.size)

/-- What resolving variants behind others does. -/
def ResolvesVariants (Q : Builder → List Bytes → List Variant → FieldList → List Variant → Builder → Prop) (st : State)
    (path : List Bytes) (before : List Variant) (fs : FieldList) : Prop :=
  ∃ vs b, resolveVariants path before fs st =
      (before ++ vs, st.amend b (variantErrors (declared st.infos) path (before.map Variant.name) fs)) ∧
    st.builder.Appends b ∧ (Indexed st.infos st.builder.schema → Q st.builder path before fs vs b)

theorem Stepwise.resolves_builtin {t : TypeDef} {ident : Lexeme} (law : Stepwise known P Q)
    (hb : st.builder.Ready) (ht : Builtin ident.text t)
    (hrun : resolve path (.name ident) st = (place (·.kept t) >>= fun id => pure (some id)) st) :
    Resolves P st path (.name ident) := by
  obtain ⟨id, b, hintern⟩ := Builder.exists_interns (t := t) hb (by cases ht <;> rfl)
  have hbuiltin : isBuiltin ident.text = true := by
    cases ht with
    | primitive hk => simp [isBuiltin, hk]
    | string hs => simp [isBuiltin, hs]
  refine ⟨some id, b, ?_, hintern.appends, fun _ => ⟨law.builtin ht hintern, ?_⟩⟩
  · rw [hrun, bind_of_eq (place_of_ok hintern.run), typeErrors, hbuiltin]
    rfl
  · rintro _ ⟨⟩
    exact Schema.type?_lt hintern.type

theorem Stepwise.resolves_name (law : Stepwise known P Q) (hknown : declared st.infos = known)
    (hb : st.builder.Ready) (ident : Lexeme) : Resolves P st path (.name ident) := by
  cases hk : PrimitiveKind.ofName? ident.text with
  | some k =>
    refine law.resolves_builtin hb (.primitive hk) ?_
    rw [resolve, hk]
    rfl
  | none =>
    by_cases hs : ident.text = stringTypeName
    · refine law.resolves_builtin hb (.string hs) ?_
      rw [resolve, hk]
      simp only [if_pos hs]
      rfl
    · have hbuiltin : isBuiltin ident.text = false := by simp [isBuiltin, hs, hk]
      unfold Resolves
      rw [resolve, hk, typeErrors, hbuiltin]
      simp only [if_neg hs]
      rw [get_bind, declInfo?, declared]
      cases hd : findDecl st.infos ident.text with
      | none =>
        have hunknown : known ident.text = false := by rw [← hknown, declared, hd]; rfl
        exact ⟨none, st.builder, rfl, .refl _, fun _ => ⟨law.unknown hbuiltin hunknown, by simp⟩⟩
      | some i =>
        obtain ⟨info, hinfo, -⟩ := findDecl_spec hd
        refine ⟨some (info.id.getD 0), st.builder, ?_, .refl _, fun hindexed => ?_⟩
        · simp [hinfo, errorIf, amend_nil]
          rfl
        · obtain ⟨hlookup, hlt⟩ := hindexed.lt hd hinfo
          exact ⟨law.named hbuiltin hlookup, by rintro _ ⟨⟩; exact hlt⟩

theorem Stepwise.resolves_list (law : Stepwise known P Q) (hb : st.builder.Ready) {o c : Lexeme} {g g' : Gap}
    (h : Resolves P st path type) : Resolves P st path (.list span o g type g' c) := by
  obtain ⟨found, b, heq, hab, hgood⟩ := h
  unfold Resolves
  rw [resolve, typeErrors, bind_of_eq heq]
  cases found with
  | none => exact ⟨none, b, rfl, hab, fun hindexed => ⟨law.unlisted (hgood hindexed).1, by simp⟩⟩
  | some e =>
    obtain ⟨id, b', hintern⟩ := Builder.exists_interns (t := .list e) (hab.ready hb) rfl
    have hplace : ∀ es, place (·.list e) (st.amend b es) = (id, st.amend b' es) := by
      intro es
      rw [place_of_ok (by exact hintern.run), amend_amend, List.append_nil]
    refine ⟨some id, b', bind_of_eq (hplace _), hab.trans hintern.appends, fun hindexed => ?_⟩
    obtain ⟨hp, hlt⟩ := hgood hindexed
    refine ⟨law.list hp (hlt e rfl) hintern, ?_⟩
    rintro _ ⟨⟩
    exact Schema.type?_lt hintern.type

theorem Stepwise.resolves_oneOf (law : Stepwise known P Q) (hb : st.builder.Ready) {k o c : Lexeme}
    {g g' : Gap} {fs : FieldList}
    (h : ResolvesVariants Q (st.amend (st.builder.withUnion path) (countErrors path k.span fs.toList.length)) path [] fs) :
    Resolves P st path (.oneOf span k g o g' fs c) := by
  obtain ⟨vs, b, heq, hab, hgood⟩ := h
  obtain ⟨b', hset, hab', htypes⟩ := Builder.setOneOf_spec hab vs
  refine ⟨some st.builder.schema.types.size, b', ?_, hab', fun hindexed => ⟨law.oneOf (hgood ?_) hab hset hab' htypes, ?_⟩⟩
  · have hplace : place (·.declareOneOf path) st =
        (st.builder.schema.types.size, st.amend (st.builder.withUnion path) []) :=
      place_of_ok (Builder.declareOneOf_eq hb.built path)
    rw [resolve, bind_of_eq hplace, bind_of_eq (report_eq _), amend_amend, List.nil_append]
    refine (bind_of_eq heq).trans ((bind_of_eq (fill_of_ok hset)).trans ?_)
    rw [amend_amend, amend_amend, List.append_nil]
    rfl
  · intro name i hi
    rw [amend_builder, lookup_withUnion]
    exact hindexed name i hi
  · rintro _ ⟨⟩
    exact Schema.type?_lt ((htypes _).trans (if_pos rfl))

theorem Stepwise.resolves_cons (law : Stepwise known P Q) (hb : st.builder.Ready) {f : FieldExpr} {gap : Gap}
    {rest : FieldList} {before : List Variant}
    (hType : ∀ (st' : State) path, st'.infos = st.infos → st'.builder.Ready → Resolves P st' path f.type)
    (hRest : ∀ (st' : State) before, st'.infos = st.infos → st'.builder.Ready →
      ResolvesVariants Q st' path before rest) : ResolvesVariants Q st path before (.cons f gap rest) := by
  obtain ⟨span, name, g₁, colon, g₂, type, g₃, semi⟩ := f
  have htaken : (before.any fun v => v.name = name.text) = decide (name.text ∈ before.map Variant.name) := by
    rw [Bool.eq_iff_iff]
    simp
  let es := errorIf (name.text ∈ before.map Variant.name) (.variantConflict name.text path) name.span
  let fs := typeErrors (declared st.infos) (path ++ [name.text]) type
  obtain ⟨found, b, heq, hab, hgood⟩ := hType (st.amend st.builder es) (path ++ [name.text]) rfl hb
  let v : Variant := ⟨name.text, UInt8.ofNat before.length, found.getD 0⟩
  obtain ⟨vs, c, heq', hbc, hgood'⟩ := hRest (st.amend b (es ++ fs)) (before ++ [v]) rfl (hab.ready hb)
  refine ⟨v :: vs, c, ?_, hab.trans hbc, fun hindexed => law.cons (hgood hindexed).1 rfl hbc (hgood' ?_)⟩
  · rw [resolveVariants, htaken, bind_of_eq (report_eq _)]
    refine (bind_of_eq heq).trans ?_
    rw [amend_amend]
    refine heq'.trans ?_
    rw [amend_amend, variantErrors, List.map_append, List.append_assoc before, List.singleton_append]
    rfl
  · exact hindexed.append hab

theorem Stepwise.resolves (law : Stepwise (declared st.infos) P Q) (hb : st.builder.Ready) (path : List Bytes)
    (type : TypeExpr) : Resolves P st path type := by
  have hall : (∀ type (st' : State) path, st'.infos = st.infos → st'.builder.Ready → Resolves P st' path type) ∧
      ∀ fs (st' : State) path before, st'.infos = st.infos → st'.builder.Ready →
        ResolvesVariants Q st' path before fs := by
    apply TypeExpr.induction
    case name => exact fun ident st' path hst hb => law.resolves_name (congrArg declared hst) hb ident
    case list => exact fun _ _ _ _ _ _ ih st' path hst hb => law.resolves_list hb (ih st' path hst hb)
    case oneOf => exact fun _ _ _ _ _ _ _ ih st' path hst hb => law.resolves_oneOf hb (ih _ path [] hst (hb.withUnion path))
    case nil =>
      intro st' path before _ _
      refine ⟨[], st'.builder, ?_, .refl _, fun _ => law.nil⟩
      rw [resolveVariants, variantErrors, amend_nil, List.append_nil]
      rfl
    case cons =>
      exact fun _ _ _ ihType ihRest st' path before hst hb =>
        law.resolves_cons hb (fun st' path h => ihType st' path (h.trans hst)) fun st' before h =>
          ihRest st' path before (h.trans hst)
  exact hall.1 type st path rfl hb

theorem Stepwise.resolve (law : Stepwise (declared st.infos) P Q) (hb : st.builder.Ready)
    (hindexed : Indexed st.infos st.builder.schema) {found : Option TypeId} {st' : State}
    (hres : resolve path type st = (found, st')) : P st.builder path type found st'.builder ∧ st'.infos = st.infos := by
  obtain ⟨_, b, heq, -, hgood⟩ := law.resolves hb path type
  cases hres.symm.trans heq
  exact ⟨(hgood hindexed).1, rfl⟩

end Stepwise

/-! ### What is found -/

/-- Every union that the second builder has and the first has not stands in the expression. -/
def OwnUnions (a b : Builder) (path : List Bytes) (type : TypeExpr) : Prop :=
  ∀ id o, b.schema.type? id = some (.oneOf o) → a.schema.type? id = some (.oneOf o) ∨
    ∃ vs, Schema.OneOfIn path type o.path vs ∧ b.schema.AreVariants o.path 0 vs o.variants

/-- Unless something is wrong, the place denotes the type that the expression says. -/
def Finds (known : Bytes → Bool) (a : Builder) (path : List Bytes) (type : TypeExpr) (found : Option TypeId)
    (b : Builder) : Prop :=
  typeErrors known path type = [] → ∃ id, found = some id ∧ b.schema.Denotes path type id ∧ OwnUnions a b path type

/-- Unless something is wrong, the variants are those that are said, with tags from the number of those before on. -/
def FindsVariants (known : Bytes → Bool) (a : Builder) (path : List Bytes) (before : List Variant) (fs : FieldList)
    (vs : List Variant) (b : Builder) : Prop :=
  variantErrors known path (before.map Variant.name) fs = [] → before.length + fs.toList.length ≤ 256 →
    b.schema.AreVariants path before.length fs vs ∧
    ∀ id o, b.schema.type? id = some (.oneOf o) → a.schema.type? id = some (.oneOf o) ∨
      ∃ f ∈ fs.toList, ∃ us, Schema.OneOfIn (path ++ [f.name.text]) f.type o.path us ∧
        b.schema.AreVariants o.path 0 us o.variants

section Finds

variable {known : Bytes → Bool} {a b c d : Builder} {t : TypeDef} {id : TypeId}

theorem ownUnions_interns (h : a.Interns t id b) (ht : ∀ o, t ≠ .oneOf o) (path : List Bytes) (type : TypeExpr) :
    OwnUnions a b path type := fun i o ho => .inl ((h.fresh i _ ho).resolve_left fun heq => ht o heq.symm)

theorem OwnUnions.within {type elem : TypeExpr} (h : OwnUnions a b path elem)
    (hbc : b.Appends c) (hin : ∀ p vs, Schema.OneOfIn path elem p vs → Schema.OneOfIn path type p vs)
    (h' : OwnUnions b c path type) : OwnUnions a c path type := by
  intro id o ho
  rcases h' id o ho with hb | hown
  · rcases h id o hb with ha | ⟨vs, hvs, hare⟩
    · exact .inl ha
    · exact .inr ⟨vs, hin _ _ hvs, hare.keep (hbc.keeps _)⟩
  · exact .inr hown

theorem finds_oneOf {k o l : Lexeme} {g g' : Gap} {fs : FieldList} {vs : List Variant}
    (h : FindsVariants known (b.withUnion path) path [] fs vs c) (hbc : (b.withUnion path).Appends c)
    (hbd : b.Appends d) (htypes : ∀ id, d.schema.type? id =
      if id = b.schema.types.size then some (.oneOf ⟨path, vs⟩) else c.schema.type? id) :
    Finds known b path (.oneOf span k g o g' fs l) (some b.schema.types.size) d := by
  intro hes
  rw [typeErrors, List.append_eq_nil_iff] at hes
  have hcount := countErrors_eq_nil hes.1
  obtain ⟨hvs, hunions⟩ := h hes.2 (by rw [List.length_nil]; omega)
  -- filling in the union touches no type that its own variants refer to
  have hkeeps : c.schema.Keeps d.schema (path.length + 1) := by
    refine ⟨fun name id hid => ?_, fun id t ht _ hpath => ?_⟩
    · rw [hbd.lookup, ← lookup_withUnion b path, ← hbc.lookup]
      exact hid
    · rw [htypes, if_neg, ht]
      rintro rfl
      have hplace := hbc.types b.schema.types.size _ (by rw [Builder.type?_withUnion, if_pos rfl])
      cases ht.symm.trans hplace
      have := hpath _ rfl
      simp at this
  have hown : d.schema.type? b.schema.types.size = some (.oneOf ⟨path, vs⟩) := by rw [htypes, if_pos rfl]
  refine ⟨_, rfl, .oneOf hown (hvs.keep hkeeps), fun id u hu => ?_⟩
  rw [htypes] at hu
  split_ifs at hu with hid
  · cases hu
    exact .inr ⟨fs, .here, hvs.keep hkeeps⟩
  · rcases hunions id u hu with hold | ⟨f, hf, us, hus, hare⟩
    · exact .inl (((Builder.type?_withUnion b path id).trans (if_neg hid)).symm.trans hold)
    · refine .inr ⟨us, .variant hf hus, hare.keep (hkeeps.mono ?_)⟩
      have := hus.length_le
      rw [List.length_append, List.length_singleton] at this
      omega

theorem finds_cons {f : FieldExpr} {gap : Gap} {rest : FieldList} {found : Option TypeId} {before vs : List Variant}
    (h : Finds known b (path ++ [f.name.text]) f.type found c) (hcd : c.Appends d)
    (hrest : FindsVariants known c path (before ++ [⟨f.name.text, UInt8.ofNat before.length, found.getD 0⟩]) rest vs d) :
    FindsVariants known b path before (.cons f gap rest)
      (⟨f.name.text, UInt8.ofNat before.length, found.getD 0⟩ :: vs) d := by
  intro hes hlen
  obtain ⟨span, name, g₁, colon, g₂, type, g₃, semi⟩ := f
  rw [variantErrors, List.append_eq_nil_iff, List.append_eq_nil_iff] at hes
  obtain ⟨⟨-, hfs⟩, hes⟩ := hes
  rw [FieldList.toList, List.length_cons] at hlen
  obtain ⟨id, rfl, hdenotes, hown⟩ := h hfs
  obtain ⟨hvs, hunions⟩ := hrest (by rw [List.map_append]; exact hes) (by
    rw [List.length_append, List.length_singleton]
    omega)
  rw [List.length_append, List.length_singleton] at hvs
  have htag : (UInt8.ofNat before.length).toNat = before.length :=
    UInt8.toNat_ofNat_of_lt' (by change before.length < 256; omega)
  refine ⟨.cons rfl htag (hdenotes.keep (hcd.keeps _)) hvs, fun i o ho => ?_⟩
  rcases hunions i o ho with hold | ⟨f, hf, us, hus, hare⟩
  · rcases hown i o hold with hold | ⟨us, hus, hare⟩
    · exact .inl hold
    · exact .inr ⟨_, List.mem_cons_self, us, hus, hare.keep (hcd.keeps _)⟩
  · exact .inr ⟨f, List.mem_cons_of_mem _ hf, us, hus, hare⟩

theorem stepwise_finds (known : Bytes → Bool) : Stepwise known (Finds known) (FindsVariants known) where
  builtin ht h _ := by
    cases ht with
    | primitive hk => exact ⟨_, rfl, .primitive hk h.type, ownUnions_interns h (by simp) _ _⟩
    | string hs => exact ⟨_, rfl, .string hs h.type, ownUnions_interns h (by simp) _ _⟩
  named hbuiltin hlookup _ := ⟨_, rfl, .declared hbuiltin hlookup, fun _ _ h => .inl h⟩
  unknown hbuiltin hunknown hes := by
    rw [typeErrors, hbuiltin, hunknown] at hes
    cases hes
  unlisted h hes := by
    obtain ⟨id, hid, -⟩ := h hes
    cases hid
  list h _ hintern hes := by
    obtain ⟨_, hid, hdenotes, hown⟩ := h hes
    cases hid
    refine ⟨_, rfl, .list (hdenotes.keep (hintern.appends.keeps _)) hintern.type, ?_⟩
    exact hown.within hintern.appends (fun _ _ => .list) (ownUnions_interns hintern (by simp) _ _)
  oneOf h hbc _ hbd htypes := finds_oneOf h hbc hbd htypes
  nil _ _ := ⟨.nil, fun _ _ h => .inl h⟩
  cons h hv hcd hrest := by
    subst hv
    exact finds_cons h hcd hrest

end Finds

theorem resolve_spec (st : State) (path : List Bytes) (type : TypeExpr) (hb : st.builder.Ready) :
    Resolves (Finds (declared st.infos)) st path type :=
  (stepwise_finds _).resolves hb path type

end Compile

end Flatwire
