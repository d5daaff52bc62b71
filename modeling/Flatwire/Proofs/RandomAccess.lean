import Flatwire.Proofs.Metering

/-! Random access to arbitrary bytes. A checked reader may be asked for any part and any number, in any order: what it
answers rests on bytes inside the buffer, a payload that it steps into lies behind its slot, and what it refuses it
refuses for a reason that is so. The bytes themselves are not assumed to encode anything. -/

namespace Flatwire

namespace Schema

variable {t : TypeDef}

/-- What random access relies on: types refer to types of the arena, and no list has itself for elements. -/
structure Navigable (s : Schema) : Prop where
  refs : ∀ id t, s.type? id = some t → ∀ ref ∈ t.refs, ref < s.types.size
  lists : WellFounded fun b a => s.Lists a b

variable {s : Schema} {id : TypeId}

theorem Lawful.navigable (hs : s.Lawful) : s.Navigable := ⟨hs.refs, hs.lists⟩

theorem Navigable.not_transGen (hs : s.Navigable) : ¬ Relation.TransGen s.Lists id id := by
  intro h
  have hback : Relation.TransGen (fun b a => s.Lists a b) id id := Relation.transGen_swap.2 h
  exact hs.lists.transGen.asymmetric _ _ hback hback

theorem Navigable.exists_type (hs : s.Navigable) (ht : s.type? id = some t) {ref : TypeId} (href : ref ∈ t.refs) :
    ∃ t', s.type? ref = some t' :=
  ⟨_, Array.getElem?_eq_getElem (hs.refs id t ht ref href)⟩

/-- The types on the way down to a list's elements are all different, so that the way is no longer than the arena. -/
theorem typeNameAux_eq_some (hs : s.Navigable) {fuel : Nat} {path : List TypeId} (ht : s.type? id = some t)
    (hnodup : (id :: path).Nodup) (hpath : ∀ a ∈ path, a < s.types.size ∧ Relation.TransGen s.Lists a id)
    (hfuel : s.types.size < path.length + fuel) : ∃ name, s.typeNameAux fuel id = some name := by
  induction fuel generalizing path id t with
  | zero =>
    have hsub : id :: path ⊆ List.range s.types.size := by
      intro a ha
      rcases List.mem_cons.1 ha with rfl | ha
      · exact List.mem_range.2 (type?_lt ht)
      · exact List.mem_range.2 (hpath a ha).1
    have hle := (hnodup.subperm hsub).length_le
    rw [List.length_cons, List.length_range] at hle
    omega
  | succ fuel ih =>
    cases t with
    | list elem =>
      obtain ⟨t', ht'⟩ := hs.exists_type ht (List.mem_singleton_self elem)
      have hstep : ∀ a ∈ id :: path, Relation.TransGen s.Lists a elem := by
        intro a ha
        rcases List.mem_cons.1 ha with rfl | ha
        · exact .single ht
        · exact .tail (hpath a ha).2 ht
      have hnew : elem ∉ id :: path := fun hmem => hs.not_transGen (hstep elem hmem)
      have hbelow : ∀ a ∈ id :: path, a < s.types.size ∧ Relation.TransGen s.Lists a elem := by
        intro a ha
        refine ⟨?_, hstep a ha⟩
        rcases List.mem_cons.1 ha with rfl | ha
        · exact type?_lt ht
        · exact (hpath a ha).1
      obtain ⟨name, hname⟩ := ih ht' (List.nodup_cons.2 ⟨hnew, hnodup⟩) hbelow (by rw [List.length_cons]; omega)
      simp [typeNameAux, ht, hname]
    | primitive k => simp [typeNameAux, ht]
    | string => simp [typeNameAux, ht]
    | enum e => simp [typeNameAux, ht]
    | sequence q => simp [typeNameAux, ht]
    | oneOf o => simp [typeNameAux, ht]

theorem Navigable.typeName?_eq (hs : s.Navigable) (ht : s.type? id = some t) :
    s.typeName? id = some (s.typeName id) := by
  have hnodup : [id].Nodup := List.nodup_singleton id
  obtain ⟨name, hname⟩ := typeNameAux_eq_some hs ht hnodup (by simp) (by simp : s.types.size < _ + (s.types.size + 1))
  rw [typeName, typeName?, hname]
  rfl

end Schema

/-- A request for a part of a value. -/
inductive Call where
  | field (name : Bytes)
  | index (i : Int)
  | variant
deriving DecidableEq, Repr

/-- A question about a value as it stands. -/
inductive Query where
  | length | tag | uint | int | float | bool | text
deriving DecidableEq, Repr

abbrev Query.Answer : Query → Type
  | length | tag | uint | float => Nat
  | int => Int
  | bool => Bool
  | text => Bytes

namespace TypeDef

/-- Whether values of the type have such parts. -/
def allows : TypeDef → Call → Bool
  | sequence _, .field _ | list _, .index _ | oneOf _, .variant => true
  | _, _ => false

/-- Whether values of the type can be asked this. -/
def answers : TypeDef → Query → Bool
  | list _, .length | oneOf _, .tag | enum _, .uint | string, .text => true
  | primitive k, .uint => !(k.isSigned || k.isFloat || k = .bool)
  | primitive k, .int => k.isSigned
  | primitive k, .float => k.isFloat
  | primitive k, .bool => k = .bool
  | _, _ => false

end TypeDef

namespace Reader

def call (r : Reader) : Call → Except ReadError Reader
  | .field name => r.field name
  | .index i => r.index i
  | .variant => do return (← r.variant).2

/-- One call after another, each on the reader that the one before it has given. -/
def calls (r : Reader) (cs : List Call) : Except ReadError Reader := cs.foldlM call r

def ask (r : Reader) : (q : Query) → Except ReadError q.Answer
  | .length => r.length
  | .tag => r.tag
  | .uint => r.uint
  | .int => r.int
  | .float => r.float
  | .bool => r.bool
  | .text => r.text

/-- What the failure says of the reader is so, where `suited` tells whether the request suits the type. Addresses that
are named have been checked, and types that are named can be written down. -/
def Explains (r : Reader) (suited : Prop) : ReadError → Prop
  | .outOfBounds n a size => suited ∧ size = r.buf.size ∧ r.buf.size < a + n
  | .listBeforeSlot a payload => suited ∧ a = r.addr ∧ payload < a + 4
  | .oneOfBeforeSlot a payload => suited ∧ a = r.addr ∧ payload < a + 3
  | .unterminated a => suited ∧ a ≤ r.buf.size ∧ ∀ k, a ≤ k → r.buf[k]? ≠ some 0
  | .mismatch name _ => ¬ suited ∧ r.schema.typeName? r.id = some name
  | .unknownField sequence name => suited ∧
      ∃ q, r.type? = some (.sequence q) ∧ q.name = sequence ∧ ∀ f ∈ q.fields, f.name ≠ name
  | .noElement i length => suited ∧ r.length = .ok length ∧ (i < 0 ∨ length ≤ i)
  | .unknownTag tag name => suited ∧ r.schema.typeName? r.id = some name ∧
      ∃ o, r.type? = some (.oneOf o) ∧ r.tag = .ok tag ∧ o.variants.length ≤ tag
  | .tooShort .. | .overlap .. | .outsideBuffer | .noType .. | .endless => False

/-- A result of which the property holds, or a failure that is explained. -/
def Sound {α : Type} (r : Reader) (suited : Prop) (P : α → Prop) : Except ReadError α → Prop
  | .ok a => suited ∧ P a
  | .error e => r.Explains suited e

/-- Where a call leads. A list that it steps into lies behind its slot and inside the buffer as a whole, and so does
the payload of a union. -/
def Leads (r : Reader) : Call → Reader → Prop
  | .field name, r' => ∃ q f, r.type? = some (.sequence q) ∧ f ∈ q.fields ∧ f.name = name ∧
      r' = r.moved f.type (r.addr + f.offset.toNat)
  | .index i, r' => ∃ (h : ListHeader) (k : Nat), r.type? = some (.list h.elem) ∧
      r.buf.listHeader? r.addr = some (h.length, (h.payload : Int)) ∧ i = k ∧ k < h.length ∧ r.addr + 4 ≤ h.payload ∧
      h.payload + h.length * r.schema.staticSize h.elem ≤ r.buf.size ∧ r' = r.element h k
  | .variant, r' => ∃ (o : OneOfType) (tag payload : Nat) (member : Variant), r.type? = some (.oneOf o) ∧
      r.buf.oneOfHeader? r.addr = some (tag, (payload : Int)) ∧ o.variants[tag]? = some member ∧
      r.addr + 3 ≤ payload ∧ payload + r.schema.staticSize member.type ≤ r.buf.size ∧
      r' = r.moved member.type payload

/-- The bytes that an answer rests on lie inside the buffer: those of the value in place, and the text that a string
refers to with the zero byte after it. -/
def Rests (r : Reader) : (q : Query) → q.Answer → Prop
  | .text, t => r.addr + 2 ≤ r.buf.size ∧
      ∃ start : Nat, r.buf.deref? r.addr = some (start : Int) ∧ 0 ∉ t ∧ r.buf.Holds start (t ++ [0])
  | _, _ => r.addr + r.schema.staticSize r.id ≤ r.buf.size

variable {r : Reader} {suited : Prop}

section Sound

variable {α β : Type} {P : α → Prop} {Q : β → Prop}

theorem Sound.bind {x : Except ReadError α} {f : α → Except ReadError β} (hx : r.Sound suited P x)
    (hf : ∀ a, x = .ok a → P a → r.Sound suited Q (f a)) : r.Sound suited Q (x >>= f) := by
  cases x with
  | error e => exact hx
  | ok a => exact hf a rfl hx.2

theorem Sound.map {x : Except ReadError α} {g : α → β} (hx : r.Sound suited P x) (hg : ∀ a, x = .ok a → P a → Q (g a)) :
    r.Sound suited Q (do return g (← x)) := by
  cases x with
  | error e => exact hx
  | ok a => exact ⟨hx.1, hg a rfl hx.2⟩

theorem sound_check (hc : r.checked = true) (hsuited : suited) (a n : Nat) :
    r.Sound suited (fun _ => a + n ≤ r.buf.size) (r.check a n) := by
  by_cases hin : a + n ≤ r.buf.size
  · rw [check_eq hin]
    exact ⟨hsuited, hin⟩
  · rcases check_cases hc a n with ⟨hin', -⟩ | herr
    · exact absurd hin' hin
    · rw [herr]
      exact ⟨hsuited, rfl, Nat.lt_of_not_le hin⟩

theorem sound_fetch (hsuited : suited) {x : Option α} {a : α} (hx : x = some a) (ha : P a) :
    r.Sound suited P (fetch x) := by
  rw [hx]
  exact ⟨hsuited, ha⟩

theorem sound_number (hc : r.checked = true) (hsuited : suited) {t : TypeDef} (ht : r.type? = some t) {n : Nat}
    (hn : t.staticSize = n) {x : Option α} (hx : r.addr + n ≤ r.buf.size → ∃ a, x = some a) :
    r.Sound suited (fun _ => r.addr + r.schema.staticSize r.id ≤ r.buf.size) (do r.check r.addr n; fetch x) := by
  refine (sound_check hc hsuited r.addr n).bind fun _ _ hroom => ?_
  obtain ⟨a, ha⟩ := hx hroom
  refine sound_fetch hsuited ha ?_
  rwa [Schema.staticSize_eq ht, hn]

end Sound

theorem exists_readNat? {n : Nat} (h : r.addr + n ≤ r.buf.size) : ∃ v, r.buf.readNat? r.addr n = some v := by
  obtain ⟨v, hv, hheld⟩ := Buffer.exists_holds h
  exact ⟨v, hheld.readNat? hv⟩

/-- A checked reader of some type of the schema, over the buffer. -/
structure Over (s : Schema) (buf : Buffer) (r : Reader) : Prop where
  schema : r.schema = s
  buf : r.buf = buf
  checked : r.checked = true
  known : r.id < s.types.size

section Over

variable {s : Schema} {buf : Buffer} {α : Type} {P : α → Prop} {t : TypeDef} {r' : Reader}

theorem Over.exists_type (hr : r.Over s buf) : ∃ t, r.type? = some t := by
  rw [type?, hr.schema]
  exact ⟨_, Array.getElem?_eq_getElem hr.known⟩

theorem Over.ref (hs : s.Navigable) (hr : r.Over s buf) (ht : r.type? = some t) {id : TypeId} (hid : id ∈ t.refs)
    (a : Nat) : (r.moved id a).Over s buf := by
  rw [type?, hr.schema] at ht
  exact ⟨hr.schema, hr.buf, hr.checked, hs.refs _ _ ht _ hid⟩

theorem Over.sound_mismatch (hs : s.Navigable) (hr : r.Over s buf) (hsuited : ¬ suited) (wanted : String) :
    r.Sound suited P (r.mismatch wanted) := by
  obtain ⟨t, ht⟩ := hr.exists_type
  rw [type?, hr.schema] at ht
  refine ⟨hsuited, ?_⟩
  rw [typeName, hr.schema]
  exact hs.typeName?_eq ht

/-! ### Lists -/

theorem exists_listHeader? {a : Nat} (h : a + 4 ≤ buf.size) :
    ∃ count payload : Nat, buf.listHeader? a = some (count, (payload : Int)) := by
  obtain ⟨count, hcount, hheld⟩ := Buffer.exists_holds (show a + 2 ≤ buf.size by omega)
  obtain ⟨payload, hslot⟩ := Buffer.exists_deref? (show a + 2 + 2 ≤ buf.size by omega)
  exact ⟨count, payload, Buffer.listHeader?_eq (hheld.readNat? hcount) hslot⟩

/-- A header stands in the buffer, and so does the payload that it tells of, behind the slot. -/
def Heads (r : Reader) (h : ListHeader) : Prop :=
  r.type? = some (.list h.elem) ∧ r.addr + 4 ≤ r.buf.size ∧
    r.buf.listHeader? r.addr = some (h.length, (h.payload : Int)) ∧
    (0 < h.length → r.addr + 4 ≤ h.payload ∧ h.payload + h.length * r.schema.staticSize h.elem ≤ r.buf.size)

theorem Over.sound_listHeader (hs : s.Navigable) (hr : r.Over s buf)
    (hsuited : suited ↔ ∃ elem, r.type? = some (.list elem)) : r.Sound suited r.Heads r.listHeader := by
  unfold listHeader
  split
  · rename_i elem ht
    have hyes : suited := hsuited.2 ⟨elem, ht⟩
    refine (sound_check hr.checked hyes _ _).bind fun _ _ hroom => ?_
    obtain ⟨count, payload, hhead⟩ := exists_listHeader? hroom
    simp only [hhead, fetch, ok_bind, Int.toNat_natCast, hr.checked, Bool.true_and, decide_eq_true_eq]
    split_ifs with hpos hbefore
    · exact (sound_check hr.checked hyes _ _).bind fun _ _ _ => ⟨hyes, rfl, hbefore⟩
    · refine (sound_check hr.checked hyes _ _).bind fun _ _ hin => ⟨hyes, ht, hroom, hhead, fun _ => ⟨?_, hin⟩⟩
      exact Nat.le_of_not_lt hbefore
    · exact ⟨hyes, ht, hroom, hhead, fun h => absurd h hpos⟩
  · rename_i hno
    exact hr.sound_mismatch hs (fun hyes => (hsuited.1 hyes).elim hno) _

theorem Over.sound_index (hs : s.Navigable) (hr : r.Over s buf)
    (hsuited : suited ↔ ∃ elem, r.type? = some (.list elem)) (i : Int) :
    r.Sound suited (r.Leads (.index i)) (r.index i) := by
  refine (hr.sound_listHeader hs hsuited).bind fun h hok hheads => ?_
  have hyes : suited := hsuited.2 ⟨_, hheads.1⟩
  split_ifs with hout
  · refine ⟨hyes, ?_, hout⟩
    rw [length, hok]
    rfl
  · obtain ⟨k, rfl⟩ := Int.eq_ofNat_of_zero_le (show 0 ≤ i by omega)
    obtain ⟨ht, -, hhead, hin⟩ := hheads
    have hk : k < h.length := by omega
    obtain ⟨hbehind, hroom⟩ := hin (by omega)
    exact ⟨hyes, h, k, ht, hhead, rfl, hk, hbehind, hroom, rfl⟩

/-! ### Unions -/

theorem exists_oneOfHeader? {a : Nat} (h : a + 3 ≤ buf.size) :
    ∃ tag payload : Nat, buf.oneOfHeader? a = some (tag, (payload : Int)) := by
  obtain ⟨tag, htag, hheld⟩ := Buffer.exists_holds (show a + 1 ≤ buf.size by omega)
  obtain ⟨payload, hslot⟩ := Buffer.exists_deref? (show a + 1 + 2 ≤ buf.size by omega)
  exact ⟨tag, payload, Buffer.oneOfHeader?_eq (hheld.readNat? htag) hslot⟩

theorem Over.sound_oneOfHeader (hs : s.Navigable) (hr : r.Over s buf)
    (hsuited : suited ↔ ∃ o, r.type? = some (.oneOf o)) :
    r.Sound suited (fun x => r.type? = some (.oneOf x.1) ∧ r.addr + 3 ≤ r.buf.size ∧
      r.buf.oneOfHeader? r.addr = some (x.2.1, (x.2.2 : Int))) r.oneOfHeader := by
  unfold oneOfHeader
  split
  · rename_i o ht
    have hyes : suited := hsuited.2 ⟨o, ht⟩
    refine (sound_check hr.checked hyes _ _).bind fun _ _ hroom => ?_
    obtain ⟨tag, payload, hhead⟩ := exists_oneOfHeader? hroom
    simp only [hhead, fetch, ok_bind, Int.toNat_natCast]
    exact ⟨hyes, ht, hroom, rfl⟩
  · rename_i hno
    exact hr.sound_mismatch hs (fun hyes => (hsuited.1 hyes).elim hno) _

theorem Over.sound_variant (hs : s.Navigable) (hr : r.Over s buf)
    (hsuited : suited ↔ ∃ o, r.type? = some (.oneOf o)) :
    r.Sound suited (fun x => r.Leads .variant x.2) r.variant := by
  refine (hr.sound_oneOfHeader hs hsuited).bind fun x hok hhead => ?_
  obtain ⟨o, tag, payload⟩ := x
  obtain ⟨ht, -, hhead⟩ := hhead
  have hyes : suited := hsuited.2 ⟨o, ht⟩
  dsimp only
  split
  · rename_i hnone
    have htype := ht
    rw [type?, hr.schema] at htype
    refine ⟨hyes, ?_, o, ht, ?_, List.getElem?_eq_none_iff.1 hnone⟩
    · rw [typeName, hr.schema]
      exact hs.typeName?_eq htype
    · rw [Reader.tag, hok]
      rfl
  · rename_i member hmember
    rw [if_pos hr.checked]
    split_ifs with hbefore
    · exact (sound_check hr.checked hyes _ _).bind fun _ _ _ => ⟨hyes, rfl, hbefore⟩
    · refine (sound_check hr.checked hyes _ _).bind fun _ _ hin => ?_
      exact ⟨hyes, o, tag, payload, member, ht, hhead, hmember, Nat.le_of_not_lt hbefore, hin, rfl⟩

/-! ### Sequences -/

theorem Over.sound_field (hs : s.Navigable) (hr : r.Over s buf)
    (hsuited : suited ↔ ∃ q, r.type? = some (.sequence q)) (name : Bytes) :
    r.Sound suited (r.Leads (.field name)) (r.field name) := by
  unfold field
  split
  · rename_i q ht
    have hyes : suited := hsuited.2 ⟨q, ht⟩
    split
    · rename_i f hf
      have hname : f.name = name := by simpa using List.find?_some hf
      exact ⟨hyes, q, f, ht, List.mem_of_find?_eq_some hf, hname, rfl⟩
    · rename_i hnone
      refine ⟨hyes, q, ht, rfl, fun f hf => ?_⟩
      simpa using List.find?_eq_none.1 hnone f hf
  · rename_i hno
    exact hr.sound_mismatch hs (fun hyes => (hsuited.1 hyes).elim hno) _

/-! ### Numbers and texts -/

theorem Over.sound_uint (hs : s.Navigable) (hr : r.Over s buf) (ht : r.type? = some t) :
    r.Sound (t.answers .uint) (r.Rests .uint) r.uint := by
  unfold uint
  split
  · rename_i e he
    cases ht.symm.trans he
    exact sound_number hr.checked rfl ht rfl exists_readNat?
  · rename_i k hk
    cases ht.symm.trans hk
    split_ifs with hkind
    · exact hr.sound_mismatch hs (by simp [TypeDef.answers, hkind]) _
    · exact sound_number hr.checked (by simpa [TypeDef.answers] using hkind) ht rfl exists_readNat?
  · rename_i henum hprim
    refine hr.sound_mismatch hs (fun h => ?_) _
    cases t with
    | enum e => exact henum e ht
    | primitive k => exact hprim k ht
    | string | list _ | sequence _ | oneOf _ => cases h

theorem Over.sound_int (hs : s.Navigable) (hr : r.Over s buf) (ht : r.type? = some t) :
    r.Sound (t.answers .int) (r.Rests .int) r.int := by
  unfold int
  split
  · rename_i k hk
    cases ht.symm.trans hk
    split_ifs with hkind
    · refine sound_number (n := k.size) hr.checked hkind ht rfl fun hroom => ?_
      obtain ⟨v, hv⟩ := exists_readNat? hroom
      exact ⟨_, by rw [Buffer.readInt?, hv]; rfl⟩
    · exact hr.sound_mismatch hs hkind _
  · rename_i hprim
    refine hr.sound_mismatch hs (fun h => ?_) _
    cases t with
    | primitive k => exact hprim k ht
    | enum _ | string | list _ | sequence _ | oneOf _ => cases h

theorem Over.sound_float (hs : s.Navigable) (hr : r.Over s buf) (ht : r.type? = some t) :
    r.Sound (t.answers .float) (r.Rests .float) r.float := by
  unfold float
  split
  · rename_i hk
    cases ht.symm.trans hk
    refine (sound_check hr.checked rfl _ _).bind fun _ _ hroom => ?_
    obtain ⟨v, hv⟩ := exists_readNat? hroom
    rw [hv]
    refine ⟨rfl, ?_⟩
    change r.addr + r.schema.staticSize r.id ≤ r.buf.size
    rwa [Schema.staticSize_eq ht]
  · rename_i hk
    cases ht.symm.trans hk
    exact sound_number hr.checked rfl ht rfl exists_readNat?
  · rename_i hsingle hdouble
    refine hr.sound_mismatch hs (fun h => ?_) _
    cases t with
    | primitive k =>
      cases k with
      | f32 => exact hsingle ht
      | f64 => exact hdouble ht
      | _ => cases h
    | enum _ | string | list _ | sequence _ | oneOf _ => cases h

theorem Over.sound_bool (hs : s.Navigable) (hr : r.Over s buf) (ht : r.type? = some t) :
    r.Sound (t.answers .bool) (r.Rests .bool) r.bool := by
  unfold bool
  split
  · rename_i hk
    cases ht.symm.trans hk
    refine sound_number (n := 1) hr.checked rfl ht rfl fun hroom => ?_
    obtain ⟨v, hv⟩ := exists_readNat? hroom
    exact ⟨_, by rw [Buffer.readBool?, hv]; rfl⟩
  · rename_i hbool
    refine hr.sound_mismatch hs (fun h => ?_) _
    cases t with
    | primitive k =>
      have hk : k = .bool := by simpa [TypeDef.answers] using h
      exact hbool (hk ▸ ht)
    | enum _ | string | list _ | sequence _ | oneOf _ => cases h

theorem Over.sound_text (hs : s.Navigable) (hr : r.Over s buf) (hsuited : suited ↔ r.type? = some .string) :
    r.Sound suited (r.Rests .text) r.text := by
  unfold text
  split
  · rename_i ht
    have hyes : suited := hsuited.2 ht
    rw [if_pos hr.checked]
    refine (sound_check hr.checked hyes _ _).bind fun _ _ hroom => ?_
    obtain ⟨start, hslot⟩ := Buffer.exists_deref? hroom
    simp only [hslot, fetch, ok_bind, Int.toNat_natCast]
    refine (sound_check hr.checked hyes _ _).bind fun _ _ hstart => ?_
    split
    · rename_i hnone
      refine ⟨hyes, hstart, fun k hk hzero => ?_⟩
      have hlt := (Array.getElem?_eq_some_iff.1 hzero).1
      exact Buffer.zeroFromAux_none hnone hk (by omega) hzero
    · rename_i stop hstop
      obtain ⟨t, hfree, rfl, hheld⟩ := Buffer.holds_of_zeroFromAux hstop
      have hslice := (Buffer.holds_append.1 hheld).1.slice?
      rw [Int.natCast_add, hslice]
      exact ⟨hyes, hroom, start, hslot, hfree, hheld⟩
  · rename_i hno
    exact hr.sound_mismatch hs (fun hyes => hno (hsuited.1 hyes)) _

/-! ### Single requests and chains of them -/

theorem Over.sound_call (hs : s.Navigable) (hr : r.Over s buf) (ht : r.type? = some t) (c : Call) :
    r.Sound (t.allows c) (r.Leads c) (r.call c) := by
  cases c with
  | field name =>
    refine hr.sound_field hs ?_ name
    rw [ht]
    cases t <;> simp [TypeDef.allows]
  | index i =>
    refine hr.sound_index hs ?_ i
    rw [ht]
    cases t <;> simp [TypeDef.allows]
  | variant =>
    refine (hr.sound_variant hs ?_).map fun _ _ hleads => hleads
    rw [ht]
    cases t <;> simp [TypeDef.allows]

theorem Over.sound_ask (hs : s.Navigable) (hr : r.Over s buf) (ht : r.type? = some t) (q : Query) :
    r.Sound (t.answers q) (r.Rests q) (r.ask q) := by
  cases q with
  | length =>
    refine (hr.sound_listHeader hs ?_).map fun h _ hheads => ?_
    · rw [ht]
      cases t <;> simp [TypeDef.answers]
    · change r.addr + r.schema.staticSize r.id ≤ r.buf.size
      rw [Schema.staticSize_eq hheads.1]
      exact hheads.2.1
  | tag =>
    refine (hr.sound_oneOfHeader hs ?_).map fun x _ hhead => ?_
    · rw [ht]
      cases t <;> simp [TypeDef.answers]
    · change r.addr + r.schema.staticSize r.id ≤ r.buf.size
      rw [Schema.staticSize_eq hhead.1]
      exact hhead.2.1
  | uint => exact hr.sound_uint hs ht
  | int => exact hr.sound_int hs ht
  | float => exact hr.sound_float hs ht
  | bool => exact hr.sound_bool hs ht
  | text =>
    refine hr.sound_text hs ?_
    rw [ht]
    cases t <;> simp [TypeDef.answers]

theorem Over.leads (hs : s.Navigable) (hr : r.Over s buf) {c : Call} (h : r.Leads c r') : r'.Over s buf := by
  cases c with
  | field name =>
    obtain ⟨q, f, ht, hf, -, rfl⟩ := h
    exact hr.ref hs ht (List.mem_map_of_mem hf) _
  | index i =>
    obtain ⟨h, k, ht, -, -, -, -, -, rfl⟩ := h
    exact hr.ref hs ht (List.mem_singleton_self _) _
  | variant =>
    obtain ⟨o, tag, payload, member, ht, -, hm, -, -, rfl⟩ := h
    exact hr.ref hs ht (List.mem_map_of_mem (List.mem_of_getElem? hm)) _

theorem Over.call (hs : s.Navigable) (hr : r.Over s buf) {c : Call} (h : r.call c = .ok r') : r'.Over s buf := by
  obtain ⟨t, ht⟩ := hr.exists_type
  have hsound := hr.sound_call hs ht c
  rw [h] at hsound
  exact hr.leads hs hsound.2

theorem Over.calls (hs : s.Navigable) {cs : List Call} (hr : r.Over s buf) (h : r.calls cs = .ok r') :
    r'.Over s buf := by
  induction cs generalizing r with
  | nil =>
    cases h
    exact hr
  | cons c cs ih =>
    obtain ⟨next, hnext, h⟩ := exists_of_bind h
    exact ih (hr.call hs hnext) h

end Over

/-- A chain that fails does so at one of its calls. -/
theorem calls_eq_error {cs : List Call} {e : ReadError} (h : r.calls cs = .error e) :
    ∃ before c after r', cs = before ++ c :: after ∧ r.calls before = .ok r' ∧ r'.call c = .error e := by
  induction cs generalizing r with
  | nil => cases h
  | cons c cs ih =>
    cases hc : r.call c with
    | error e' =>
      rw [calls, List.foldlM_cons, hc] at h
      cases h
      exact ⟨[], c, cs, r, rfl, rfl, hc⟩
    | ok next =>
      rw [calls, List.foldlM_cons, hc] at h
      obtain ⟨before, c', after, r', rfl, hbefore, hcall⟩ := ih h
      refine ⟨c :: before, c', after, r', rfl, ?_, hcall⟩
      rw [calls, List.foldlM_cons, hc]
      exact hbefore

end Reader

theorem over_of_ofBuffer {s : Schema} {id : TypeId} {buf : Buffer} {r : Reader}
    (hr : Reader.ofBuffer s id buf true = .ok r) : r.Over s buf := by
  obtain ⟨t, ht, -, rfl⟩ := Reader.ofBuffer_eq_ok.1 hr
  exact ⟨rfl, rfl, rfl, Schema.type?_lt ht⟩

/-- However a checked reader over any bytes is asked for parts of parts, it comes to a reader over the same bytes or
stops at a call that fails. Where it comes to one, every further request is answered from bytes inside the buffer, with
payloads behind their slots, or fails for a reason that is so. -/
theorem Reader.random_access_safe {s : Schema} (hs : s.Navigable) {id : TypeId} {buf : Buffer} {r : Reader}
    (hr : Reader.ofBuffer s id buf true = .ok r) (cs : List Call) :
    (∀ e, r.calls cs = .error e →
      ∃ before c after r', cs = before ++ c :: after ∧ r.calls before = .ok r' ∧ r'.call c = .error e) ∧
    ∀ r', r.calls cs = .ok r' → r'.schema = s ∧ r'.buf = buf ∧ ∃ t, r'.type? = some t ∧
      (∀ c, r'.Sound (t.allows c) (r'.Leads c) (r'.call c)) ∧ ∀ q, r'.Sound (t.answers q) (r'.Rests q) (r'.ask q) := by
  refine ⟨fun e he => Reader.calls_eq_error he, fun r' hr' => ?_⟩
  have hover : r'.Over s buf := (over_of_ofBuffer hr).calls hs hr'
  obtain ⟨t, ht⟩ := hover.exists_type
  exact ⟨hover.schema, hover.buf, t, ht, hover.sound_call hs ht, hover.sound_ask hs ht⟩

/-- Bytes that encode no node: the list of kids begins inside its own slot, and no variant has the tag. The color of the
point can be asked for all the same. -/
theorem Reader.random_access_safe_sample :
    let buf : Buffer := ⟨List.replicate 21 0 ++ [1, 0, 1, 0, 9, 0, 0] ++ List.replicate 28 0⟩
    ∃ r, Reader.ofBuffer Schema.sample 5 buf true = .ok r ∧
      (r.calls [.field "kids", .index 0]).map Reader.addr = .error (.listBeforeSlot 21 24) ∧
      (r.calls [.field "extra", .variant]).map Reader.addr = .error (.unknownTag 9 "oneof Node::extra") ∧
      ∃ r', r.calls [.field "at", .field "color"] = .ok r' ∧ r'.buf = buf ∧
        ∃ t, r'.type? = some t ∧ r'.Sound (t.answers .uint) (r'.Rests .uint) r'.uint ∧ r'.uint = .ok 0 := by
  intro buf
  have hr : Reader.ofBuffer Schema.sample 5 buf true = .ok ⟨Schema.sample, buf, #[], true, 5, 0⟩ := rfl
  have hcolor : Reader.calls ⟨Schema.sample, buf, #[], true, 5, 0⟩ [.field "at", .field "color"] =
      .ok ⟨Schema.sample, buf, #[], true, 3, 9⟩ := rfl
  have hsafe := Reader.random_access_safe Schema.sample_lawful.navigable hr [.field "at", .field "color"]
  obtain ⟨-, hbuf, t, ht, -, hask⟩ := hsafe.2 _ hcolor
  exact ⟨_, hr, by decide +kernel, by decide +kernel, _, hcolor, hbuf, t, ht, hask .uint, by decide +kernel⟩

end Flatwire
