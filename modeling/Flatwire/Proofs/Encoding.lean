import Flatwire.Proofs.Reference
import Flatwire.Proofs.Writing

/-! Encoding follows the reference. The component that is planned for a value draws the value's image, and the size that
is planned for its payloads is theirs. Hence a buffer takes the value if and only if it has the planned size, and what
is written depends on the value alone. -/

namespace Flatwire

variable {s : Schema} {p : Plan}

theorem within_eq_ok {ε α : Type} {p : Place} {x : Except (Located ε) α} {a : α} : within p x = .ok a ↔ x = .ok a := by
  cases x <;> simp [within]

theorem forall₂_split {α β γ : Type} {R : α → β → Prop} {S : α → γ → Prop} {T : β → γ → Prop} {as : List α}
    {bs : List β} (h : List.Forall₂ R as bs) (step : ∀ a ∈ as, ∀ b, R a b → ∃ c, S a c ∧ T b c) :
    ∃ cs, List.Forall₂ S as cs ∧ List.Forall₂ T bs cs := by
  induction h with
  | nil => exact ⟨[], .nil, .nil⟩
  | @cons a b as bs hab _ ih =>
    obtain ⟨c, hs, ht⟩ := step a (by simp) b hab
    obtain ⟨cs, hss, hts⟩ := ih fun a ha => step a (by simp [ha])
    exact ⟨c :: cs, .cons hs hss, .cons ht hts⟩

theorem PrimitiveKind.component?_eq (k : PrimitiveKind) (v : Value) :
    k.component? v = (k.number? v).map fun n => .scalar k.size n := by
  cases k with
  | bool => cases v <;> rfl
  | f32 =>
    rw [component?, number?, Option.map_map]
    rfl
  | f64 => rw [component?, number?]; rfl
  | u8 | u16 | u32 | u64 | i8 | i16 | i32 | i64 =>
    rw [component?_integer (by decide) rfl, number?, Option.map_map]
    · rfl
    all_goals simp

namespace Plan

/-- The planned component draws the image, and its payloads were measured right. -/
structure Draws (p : Plan) (i : Image) : Prop where
  writes : p.component.Writes i
  payloads : p.payloads = i.payloads

variable {ps : List Plan} {is : List Image}

theorem sum_payloads (h : List.Forall₂ Draws ps is) : (ps.map Plan.payloads).sum = (Image.concat is).payloads := by
  induction h with
  | nil => rfl
  | cons hd _ ih => rw [List.map_cons, List.sum_cons, ih, hd.payloads, Image.concat, Image.payloads_append]

theorem writes_components (h : List.Forall₂ Draws ps is) : List.Forall₂ Component.Writes (ps.map component) is := by
  induction h with
  | nil => exact .nil
  | cons hd _ ih => exact .cons hd.writes ih

end Plan

theorem planFields_ok {q : SequenceType} {entries : List (Bytes × (TypeId → Planned))} {fs : List Field} {n m : Nat}
    {done out : List (UInt16 × Component)} (h : planFields q entries fs n done = .ok (out, m)) :
    ∃ ps : List Plan, List.Forall₂ (fun f p => ∃ plan, named? entries f.name = some plan ∧ plan f.type = .ok p) fs ps ∧
      out = done.reverse ++ (fs.zip ps).map (fun e => (e.1.offset, e.2.component)) ∧
      m = n + (ps.map Plan.payloads).sum := by
  induction fs generalizing n done with
  | nil =>
    cases h
    exact ⟨[], .nil, by simp, by simp⟩
  | cons f fs ih =>
    rw [planFields] at h
    split at h
    · cases h
    · rename_i name plan hfind
      split at h
      · cases h
      · rename_i p hp
        obtain ⟨ps, hps, rfl, rfl⟩ := ih h
        refine ⟨p :: ps, .cons ⟨plan, by rw [named?, hfind]; rfl, within_eq_ok.1 hp⟩ hps, by simp, ?_⟩
        rw [List.map_cons, List.sum_cons, Nat.add_assoc]

theorem Value.planItems_ok {items : List Value} {elem : TypeId} {k n : Nat} {done : List Component}
    (h : planItems s items elem k n done = .ok p) :
    ∃ ps : List Plan, List.Forall₂ (fun v p => v.plan s elem = .ok p) items ps ∧
      p = ⟨.list (done.reverse ++ ps.map Plan.component), n + (ps.map Plan.payloads).sum⟩ := by
  induction items generalizing k n done with
  | nil =>
    rw [planItems] at h
    cases h
    exact ⟨[], .nil, by simp⟩
  | cons v vs ih =>
    rw [planItems] at h
    split at h
    · cases h
    · rename_i p' hp
      obtain ⟨ps, hps, rfl⟩ := ih h
      refine ⟨p' :: ps, .cons (within_eq_ok.1 hp) hps, ?_⟩
      simp [Nat.add_assoc]

theorem Value.planEntries_eq (s : Schema) (fields : List (Bytes × Value)) :
    planEntries s fields = fields.map fun f => (f.1, fun id => f.2.plan s id) := by
  induction fields with
  | nil => rw [planEntries]; rfl
  | cons f fs ih => rw [planEntries, ih, List.map_cons]

theorem planRecord_ok {q : SequenceType} {fields : List (Bytes × Value)}
    (h : planRecord q (Value.planEntries s fields) = .ok p) :
    ∃ ps : List Plan,
      List.Forall₂ (fun f p => ∃ v, named? fields f.name = some v ∧ v.plan s f.type = .ok p) q.fields ps ∧
      p = ⟨.record q.size ((q.fields.zip ps).map fun e => (e.1.offset, e.2.component)),
        (ps.map Plan.payloads).sum⟩ := by
  unfold planRecord at h
  cases hf : planFields q (Value.planEntries s fields) q.fields 0 [] with
  | error e => rw [hf] at h; cases h
  | ok r =>
    obtain ⟨out, m⟩ := r
    obtain ⟨ps, hps, rfl, rfl⟩ := planFields_ok hf
    rw [hf, ok_bind] at h
    dsimp only at h
    split at h
    · cases h
    · cases h
      refine ⟨ps, hps.imp ?_, by simp⟩
      rintro f p ⟨plan, he, hp⟩
      rw [Value.planEntries_eq, named?_map fun (v : Value) id => v.plan s id] at he
      obtain ⟨v, hv, rfl⟩ := Option.map_eq_some_iff.1 he
      exact ⟨v, hv, hp⟩

theorem planVariant_ok {o : OneOfType} {typeName name : Bytes} {plan : TypeId → Planned}
    (h : planVariant o typeName name plan = .ok p) :
    ∃ member inner, o.find? name = some member ∧ plan member.type = .ok inner ∧
      p = ⟨.oneOf member.tag (some inner.component), inner.payloads + inner.component.staticSize⟩ := by
  unfold planVariant at h
  split at h
  · cases h
  · rename_i member hm
    split at h
    · cases h
    · rename_i inner hp
      cases h
      exact ⟨member, inner, hm, within_eq_ok.1 hp, rfl⟩

namespace Value

/-- How a plan comes about, one level deep. -/
inductive Plans (s : Schema) : TypeDef → Value → Plan → Prop
  | primitive {k : PrimitiveKind} {v : Value} {n : Nat} (h : k.number? v = some n) :
      Plans s (.primitive k) v ⟨.scalar k.size n, 0⟩
  | enum {e : EnumType} {v : Value} {n : UInt64} (h : e.number? v = some n) :
      Plans s (.enum e) v ⟨.scalar e.width.toNat n.toNat, 0⟩
  | text {t : Bytes} (h : 0 ∉ t) : Plans s .string (.text t) ⟨.text t, t.length + 1⟩
  | bytes {elem : TypeId} {items : Bytes} (h : s.type? elem = some (.primitive .u8))
      (hl : items.length ≤ maxListLength) : Plans s (.list elem) (.bytes items) ⟨.bytes items, items.length⟩
  | list {elem : TypeId} {items : List Value} {ps : List Plan} (hl : items.length ≤ maxListLength)
      (h : List.Forall₂ (fun v p => v.plan s elem = .ok p) items ps) :
      Plans s (.list elem) (.list items)
        ⟨.list (ps.map Plan.component), items.length * s.staticSize elem + (ps.map Plan.payloads).sum⟩
  | record {q : SequenceType} {fields : List (Bytes × Value)} {ps : List Plan}
      (h : List.Forall₂ (fun f p => ∃ v, named? fields f.name = some v ∧ v.plan s f.type = .ok p) q.fields ps) :
      Plans s (.sequence q) (.record fields)
        ⟨.record q.size ((q.fields.zip ps).map fun e => (e.1.offset, e.2.component)), (ps.map Plan.payloads).sum⟩
  | oneOf {o : OneOfType} {v : Value} {name : Bytes} {value : Value} {member : Variant} {p : Plan}
      (hv : v = .variant name value ∨ v = .variantRef name value) (hm : o.find? name = some member)
      (hp : value.plan s member.type = .ok p) :
      Plans s (.oneOf o) v ⟨.oneOf member.tag (some p.component), p.payloads + p.component.staticSize⟩

theorem plan_plans {v : Value} {id : TypeId} (h : v.plan s id = .ok p) : ∃ t, s.type? id = some t ∧ Plans s t v p := by
  rw [plan.eq_def] at h
  cases ht : s.type? id with
  | none => simp [ht] at h
  | some t =>
    refine ⟨t, rfl, ?_⟩
    cases t with
    | primitive k =>
      simp only [ht, PrimitiveKind.component?_eq] at h
      cases hn : k.number? v with
      | none => simp [hn] at h
      | some n =>
        simp only [hn, Option.map_some] at h
        cases h
        exact .primitive hn
    | enum e =>
      simp only [ht] at h
      cases hn : e.number? v with
      | none => simp [hn] at h
      | some n =>
        simp only [hn] at h
        cases h
        exact .enum hn
    | string =>
      simp only [ht] at h
      split at h
      · split_ifs at h with h0
        cases h
        exact .text (by simpa using h0)
      · cases h
    | list elem =>
      simp only [ht] at h
      split at h
      · split_ifs at h with hu hl
        cases h
        exact .bytes hu (Nat.not_lt.1 hl)
      · split_ifs at h with hl
        obtain ⟨ps, hps, rfl⟩ := planItems_ok h
        exact .list (Nat.not_lt.1 hl) hps
      · cases h
    | sequence q =>
      simp only [ht] at h
      split at h
      · obtain ⟨ps, hps, rfl⟩ := planRecord_ok h
        exact .record hps
      · cases h
    | oneOf o =>
      simp only [ht] at h
      split at h
      · obtain ⟨member, inner, hm, hp, rfl⟩ := planVariant_ok h
        exact .oneOf (.inl rfl) hm hp
      · obtain ⟨member, inner, hm, hp, rfl⟩ := planVariant_ok h
        exact .oneOf (.inr rfl) hm hp
      · cases h

end Value

theorem writesFields_of_follows {fs : List Field} {ps : List Plan} {is : List Image} {start : Nat}
    (hsize : List.Forall₂ (fun f i => i.size = s.staticSize f.type) fs is) (hd : List.Forall₂ Plan.Draws ps is)
    (hf : s.Follows start fs) :
    Component.WritesFields start ((fs.zip ps).map fun e => (e.1.offset, e.2.component)) is := by
  induction hsize generalizing ps start with
  | nil =>
    cases hd
    exact .nil start
  | @cons f i fs is hfi _ ih =>
    cases hd with
    | @cons p _ ps _ hp hps =>
      obtain ⟨ho, hfs⟩ := hf
      rw [← hfi] at hfs
      exact .cons ho hp.writes (ih hps hfs)

theorem Value.plan_draws (hs : s.LaidOut) (v : Value) :
    ∀ (id : TypeId) (p : Plan), v.plan s id = .ok p → ∃ i, v.image? s id = some i ∧ p.Draws i := by
  induction v using Value.parts_induction with
  | step v ih =>
    intro id p h
    -- plan and image are opened one level deep; below that the parts are known to agree
    obtain ⟨t, ht, hp⟩ := plan_plans h
    cases hp with
    | primitive hn => exact ⟨_, image?_of_draws ht (.primitive hn), Component.writes_scalar _ _, rfl⟩
    | enum hn => exact ⟨_, image?_of_draws ht (.enum hn), Component.writes_scalar _ _, rfl⟩
    | text h0 =>
      refine ⟨_, image?_of_draws ht (.text h0), Component.writes_text _, ?_⟩
      simp [Image.payloads, Image.text, Cell.bytes]
    | @bytes elem items hu hl =>
      exact ⟨_, image?_of_draws ht (.bytes hu hl), Component.writes_bytes items hl, (Image.payloads_ofBytes items).symm⟩
    | @list elem items ps hl hps =>
      obtain ⟨is, his, hd⟩ := forall₂_split hps fun w hw p hp => ih w hw elem p hp
      have hsize := size_items hs his
      refine ⟨_, image?_of_draws ht (.list hl his), ?_, ?_⟩
      · refine Component.writes_list _ (Plan.writes_components hd) hsize ?_
        rw [List.length_map, ← hps.length_eq]
        exact hl
      · have hlen : items.length = is.length := his.length_eq
        have hc := Image.size_concat _ is hsize
        have hp : (Image.list is).payloads = (Image.concat is).size + (Image.concat is).payloads :=
          (Image.concat is).length_bytes
        rw [hp, hc, Plan.sum_payloads hd, hlen, Nat.mul_comm]
    | @record q fields ps hps =>
      have hfields : ∀ f ∈ q.fields, ∀ p, (∃ w, named? fields f.name = some w ∧ w.plan s f.type = .ok p) →
          ∃ i, (∃ w, named? fields f.name = some w ∧ w.image? s f.type = some i) ∧ p.Draws i := by
        rintro f - p ⟨w, hw, hp⟩
        obtain ⟨e, he, rfl⟩ := named?_mem hw
        obtain ⟨i, hi, hpi⟩ := ih e.2 (List.mem_map_of_mem he) f.type p hp
        exact ⟨i, ⟨e.2, hw, hi⟩, hpi⟩
      obtain ⟨is, his, hd⟩ := forall₂_split hps hfields
      have hsize : List.Forall₂ (fun f i => i.size = s.staticSize f.type) q.fields is := by
        refine his.imp ?_
        rintro f i ⟨w, -, hi⟩
        exact size_image? hs w f.type i hi
      have htotal := (hs.contiguous id _ ht).2
      refine ⟨_, image?_of_draws ht (.record his), Component.writes_record ?_ ?_, Plan.sum_payloads hd⟩
      · exact writesFields_of_follows hsize hd (hs.follows ht)
      · rw [htotal, size_concat_fields hsize]
    | @oneOf o v name value member p hv hm hp =>
      have hw : value ∈ v.parts := by rcases hv with rfl | rfl <;> simp [parts]
      obtain ⟨i, hi, hd⟩ := ih value hw member.type p hp
      refine ⟨_, image?_of_draws ht (.oneOf hv hm hi), Component.writes_oneOf hd.writes _, ?_⟩
      have hp : (Image.oneOf member.tag i).payloads = i.size + i.payloads := i.length_bytes
      rw [hp, hd.payloads, hd.writes.staticSize, Nat.add_comm]

theorem Plan.Draws.size {i : Image} (h : p.Draws i) : p.size = i.bytes.length := by
  rw [Plan.size, h.writes.staticSize, h.payloads, i.length_bytes]

theorem Schema.encode_eq_ok (hs : s.LaidOut) {id : TypeId} {v : Value} {b : Bytes} :
    s.encode id v = .ok b ↔
      ∃ p i, v.plan s id = .ok p ∧ v.image? s id = some i ∧ p.Draws i ∧ p.size ≤ Buffer.maxSize ∧ b = i.bytes := by
  cases hp : v.plan s id with
  | error e => simp [Schema.encode, hp]
  | ok p =>
    obtain ⟨i, hi, hd⟩ := v.plan_draws hs id p hp
    have hw := hd.writes.writeTo (Array.replicate p.size 0)
    rw [Schema.encode, hp, ok_bind]
    by_cases hfit : p.size ≤ Buffer.maxSize
    · rw [← hd.size, Array.size_replicate, Nat.min_eq_left hfit, if_pos (Nat.le_refl _)] at hw
      have hcut :
          ((i.bytes ++ (Array.replicate p.size (0 : UInt8)).toList.drop p.size).toArray.extract 0 p.size).toList =
            i.bytes := by
        simp [hd.size]
      rw [if_neg (Nat.not_lt.2 hfit), hw]
      simp only [hcut]
      constructor
      · intro h
        cases h
        exact ⟨p, i, rfl, hi, hd, hfit, rfl⟩
      · rintro ⟨_, j, -, hj, -, -, rfl⟩
        rw [hi] at hj
        cases hj
        rfl
    · rw [if_pos (Nat.lt_of_not_le hfit)]
      constructor
      · intro h
        cases h
      · rintro ⟨_, _, h, -, -, hq, -⟩
        cases h
        exact absurd hq hfit

/-- What is encoded is the reference encoding, and every distance in it fits its slot. -/
theorem Schema.encode_refines_image {s : Schema} (hs : s.LaidOut) {id : TypeId} {v : Value} {b : Bytes}
    (h : s.encode id v = .ok b) :
    ∃ i, v.image? s id = some i ∧ b = i.bytes ∧ ∀ o, .offset o ∈ i.cells → o < 65536 := by
  obtain ⟨p, i, -, hi, hd, hfit, rfl⟩ := (Schema.encode_eq_ok hs).1 h
  refine ⟨i, hi, rfl, fun o ho => ?_⟩
  have hlen : i.bytes.length ≤ 65535 := hd.size ▸ hfit
  exact Nat.lt_succ_of_le (Nat.le_trans (i.within_cells o ho) hlen)

/-- A node of the sample schema whose fields are given out of order, one number by its name. -/
def Value.sampleNode (id : Int64) (kids : List Value) : Value :=
  .record [("name", .text "leaf"), ("id", .int (.int id)),
    ("at", .record [("color", .text "blue"), ("x", .int (.i8 (-2)))]), ("scale", .f64 0x3FB999999999999A),
    ("data", .list [.int (.int 1), .int (.u16 255)]), ("kids", .list kids), ("extra", .variantRef "note" (.text "hi"))]

/-- A node that holds a node. -/
def Value.sampleTree : Value := sampleNode 7 [sampleNode 8 []]

/-- The bytes of the sample tree. The text of the outer node begins 13 bytes after its slot at 15. -/
def Value.sampleTreeBytes : Bytes :=
  [7, 254, 255, 255, 255, 255, 255, 255, 255, 44, 1, 205, 204, 204, 61, 13, 0, 2, 0, 14, 0, 1, 0, 12, 0, 1, 49, 0,
    108, 101, 97, 102, 0, 1, 255,
    8, 254, 255, 255, 255, 255, 255, 255, 255, 44, 1, 205, 204, 204, 61, 13, 0, 2, 0, 14, 0, 0, 0, 12, 0, 1, 9, 0,
    108, 101, 97, 102, 0, 1, 255, 2, 0, 104, 105, 0, 2, 0, 104, 105, 0]

theorem Schema.encode_sampleTree : Schema.sample.encode 5 Value.sampleTree = .ok Value.sampleTreeBytes := by
  decide +kernel

theorem Schema.encode_refines_image_sample :
    ∃ i, Value.sampleTree.image? Schema.sample 5 = some i ∧ Value.sampleTreeBytes = i.bytes ∧
      ∀ o, .offset o ∈ i.cells → o < 65536 :=
  Schema.encode_refines_image Schema.sample_laidOut Schema.encode_sampleTree

/-- A buffer takes a planned value if and only if it has room for the planned size. What is written depends on the value
alone, and nothing behind it changes. -/
theorem Plan.writeTo_within_size {s : Schema} (hs : s.LaidOut) {id : TypeId} {v : Value} {p : Plan}
    (h : v.plan s id = .ok p) :
    ∃ bytes : Bytes, bytes.length = p.size ∧ ∀ buf : Buffer,
      (p.size ≤ min buf.size Buffer.maxSize → ∃ out : Buffer, p.component.writeTo buf = .ok (out, p.size) ∧
        out.size = buf.size ∧ out.toList.take p.size = bytes ∧ ∀ k, p.size ≤ k → out[k]? = buf[k]?) ∧
      (min buf.size Buffer.maxSize < p.size → p.component.writeTo buf = .error .insufficientCapacity) := by
  obtain ⟨i, -, hd⟩ := v.plan_draws hs id p h
  refine ⟨i.bytes, hd.size.symm, fun buf => ⟨fun hfit => ?_, fun hshort => ?_⟩⟩
  · refine ⟨(i.bytes ++ buf.toList.drop i.bytes.length).toArray, ?_, ?_, ?_, fun k hk => ?_⟩
    · rw [hd.writes.writeTo, ← hd.size, if_pos hfit]
    · rw [hd.size] at hfit
      simp
      omega
    · rw [hd.size]
      exact List.take_left
    · rw [hd.size] at hk
      simp [List.getElem?_append_right hk, Nat.add_sub_cancel' hk]
  · rw [hd.writes.writeTo, ← hd.size, if_neg (Nat.not_le.2 hshort)]

theorem Plan.size_sampleTree : ∃ p, Value.sampleTree.plan Schema.sample 5 = .ok p ∧ p.size = 80 := by
  have h : (Value.sampleTree.plan Schema.sample 5).map Plan.size = .ok 80 := by decide +kernel
  cases hp : Value.sampleTree.plan Schema.sample 5 with
  | error e => simp [hp, Except.map] at h
  | ok p => exact ⟨p, rfl, by simpa [hp, Except.map] using h⟩

theorem Plan.writeTo_within_size_sample :
    ∃ p, Value.sampleTree.plan Schema.sample 5 = .ok p ∧
      p.component.writeTo (Array.replicate 79 9) = .error .insufficientCapacity ∧
      ∃ out, p.component.writeTo (Array.replicate 81 9) = .ok (out, 80) ∧ out[80]? = some 9 := by
  obtain ⟨p, hp, hsize⟩ := Plan.size_sampleTree
  obtain ⟨_, -, hbuf⟩ := Plan.writeTo_within_size Schema.sample_laidOut hp
  rw [hsize] at hbuf
  obtain ⟨out, hout, -, -, hrest⟩ := (hbuf (Array.replicate 81 9)).1 (by decide)
  exact ⟨p, hp, (hbuf (Array.replicate 79 9)).2 (by decide), out, hout, hrest 80 (Nat.le_refl _)⟩

end Flatwire
