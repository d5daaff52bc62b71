import Flatwire.Proofs.Relaxing
import Flatwire.Proofs.Safety

/-! What a walk pays for. It follows references to payloads, and pays for each of them out of its budget. Which payloads
these are does not depend on the budget: a walk that has too little follows the same ones, up to the first that it
cannot pay for. -/

namespace Flatwire

/-- The bytes behind a reference: the static sections of a list's elements, that of a union's variant, or a text with
its zero byte. -/
structure Payload where
  start : Nat
  size : Nat
deriving DecidableEq, Repr

def Payload.total (ps : List Payload) : Nat := (ps.map Payload.size).sum

/-- A payload that a walk follows, and what is left to pay for it. -/
structure Payment where
  payload : Payload
  budget : Int
deriving DecidableEq, Repr

/-- The budget is enough. -/
def Payment.paid (x : Payment) : Bool := (x.payload.size : Int) ≤ x.budget

/-! ### The record of a walk -/

/-- What is followed after a step, with what the step leaves: nothing after a failure. -/
def after (left : Except (Located ReadError) Int) (next : Int → List Payment) : List Payment :=
  match left with
  | .ok budget => next budget
  | .error _ => []

def fieldPayments (decode : Reader → Int → Decoded) (payments : Reader → Int → List Payment) (r : Reader) :
    List Field → Int → List Payment
  | [], _ => []
  | f :: fs, budget =>
    let part := r.moved f.type (r.addr + f.offset.toNat)
    payments part budget ++
      after ((decode part budget).map Prod.snd) fun left => fieldPayments decode payments r fs left

def itemPayments (decode : Reader → Int → Decoded) (payments : Reader → Int → List Payment) (r : Reader)
    (h : Reader.ListHeader) (i : Nat) : Nat → Int → List Payment
  | 0, _ => []
  | n + 1, budget =>
    payments (r.element h i) budget ++
      after ((decode (r.element h i) budget).map Prod.snd) fun left => itemPayments decode payments r h (i + 1) n left

/-- The payloads that the walk follows, in order. The last one may be more than it can pay for. -/
def payments : Nat → Reader → Int → List Payment
  | 0, _, _ => []
  | fuel + 1, r, budget =>
    match r.type? with
    | some .string =>
      match r.text, r.buf.deref? r.addr with
      | .ok t, some start => [⟨⟨start.toNat, t.length + 1⟩, budget⟩]
      | _, _ => []
    | some (.list elem) =>
      match r.listHeader with
      | .error _ => []
      | .ok h =>
        if r.schema.type? elem = some (.primitive .u8) then
          match r.bytes with
          | .ok items => [⟨⟨h.payload, items.length⟩, budget⟩]
          | .error _ => []
        else
          let size := h.length * r.schema.staticSize elem
          ⟨⟨h.payload, size⟩, budget⟩ ::
            after (charge r size budget) (itemPayments (decodeAux fuel) (payments fuel) r h 0 h.length)
    | some (.sequence q) => fieldPayments (decodeAux fuel) (payments fuel) r q.fields budget
    | some (.oneOf _) =>
      match r.variant with
      | .error _ => []
      | .ok (member, inner) =>
        let size := r.schema.staticSize member.type
        ⟨⟨inner.addr, size⟩, budget⟩ :: after (charge inner size budget) (payments fuel inner)
    | _ => []

/-- The payloads that decoding follows. -/
def Reader.payments (r : Reader) : List Payment :=
  Flatwire.payments r.depth r (if r.checked then r.buf.size else -1)

/-! ### Bills -/

/-- Payloads paid for one after the other, up to the first that is too large for what is left. -/
def bill : Int → List Payload → List Payment
  | _, [] => []
  | budget, p :: ps => ⟨p, budget⟩ :: if (p.size : Int) ≤ budget then bill (budget - p.size) ps else []

section Bills

variable {b : Int} {p : Payload} {ps qs : List Payload}

theorem Payload.total_cons (p : Payload) (ps : List Payload) : total (p :: ps) = p.size + total ps := by
  rw [total, List.map_cons, List.sum_cons, total]

theorem Payload.total_append (ps qs : List Payload) : total (ps ++ qs) = total ps + total qs := by
  rw [total, List.map_append, List.sum_append, total, total]

theorem bill_append_of_le (h : Payload.total ps ≤ b) :
    bill b (ps ++ qs) = bill b ps ++ bill (b - Payload.total ps) qs := by
  induction ps generalizing b with
  | nil => simp [bill, Payload.total]
  | cons p ps ih =>
    rw [Payload.total_cons, Nat.cast_add] at h
    rw [List.cons_append, bill, bill, if_pos (by omega), if_pos (by omega), ih (by omega), Payload.total_cons,
      Nat.cast_add, Int.sub_sub, List.cons_append]

theorem bill_append_of_lt (hb : 0 ≤ b) (h : b < Payload.total ps) : bill b (ps ++ qs) = bill b ps := by
  induction ps generalizing b with
  | nil => exact absurd h (Int.not_lt.2 hb)
  | cons p ps ih =>
    rw [Payload.total_cons, Nat.cast_add] at h
    rw [List.cons_append, bill, bill]
    split_ifs with hp
    · rw [ih (by omega) (by omega)]
    · rfl

theorem map_bill_of_le (h : Payload.total ps ≤ b) : (bill b ps).map Payment.payload = ps := by
  induction ps generalizing b with
  | nil => rfl
  | cons p ps ih =>
    rw [Payload.total_cons, Nat.cast_add] at h
    rw [bill, if_pos (by omega), List.map_cons, ih (by omega)]

theorem lt_total_bill (h : b < Payload.total ps) : b < Payload.total ((bill b ps).map Payment.payload) := by
  induction ps generalizing b with
  | nil => exact h
  | cons p ps ih =>
    rw [Payload.total_cons, Nat.cast_add] at h
    rw [bill, List.map_cons, Payload.total_cons]
    dsimp only
    split_ifs with hp
    · have := ih (b := b - p.size) (by omega)
      omega
    · omega

theorem bill_budget (hb : 0 ≤ b) {i : Nat} {x : Payment} (h : (bill b ps)[i]? = some x) :
    0 ≤ x.budget ∧ x.budget = b - Payload.total (((bill b ps).take i).map Payment.payload) := by
  induction ps generalizing b i with
  | nil => cases h
  | cons p ps ih =>
    rw [bill] at h ⊢
    cases i with
    | zero =>
      cases h
      exact ⟨hb, by simp [Payload.total]⟩
    | succ i =>
      rw [List.getElem?_cons_succ] at h
      rw [List.take_succ_cons, List.map_cons, Payload.total_cons]
      split_ifs at h ⊢ with hp
      · obtain ⟨hpos, heq⟩ := ih (by omega) h
        refine ⟨hpos, ?_⟩
        rw [heq]
        dsimp only
        omega
      · cases h

theorem total_paid_le (hb : 0 ≤ b) :
    (Payload.total (((bill b ps).filter Payment.paid).map Payment.payload) : Int) ≤ b := by
  induction ps generalizing b with
  | nil => exact hb
  | cons p ps ih =>
    rw [bill]
    by_cases hp : (p.size : Int) ≤ b
    · have := ih (b := b - p.size) (by omega)
      rw [if_pos hp, List.filter_cons_of_pos (by simpa [Payment.paid] using hp), List.map_cons, Payload.total_cons]
      dsimp only
      omega
    · rw [if_neg hp, List.filter_cons_of_neg (by simpa [Payment.paid] using hp)]
      exact hb

end Bills

/-! ### Walks that are metered -/

/-- The walk follows the payloads and comes to the result if the budget lasts, or has no limit. Otherwise it fails with
an overlap, and at nothing but that. -/
structure Meters {α : Type} (run : Int → Except (Located ReadError) (α × Int)) (log : Int → List Payment)
    (ps : List Payload) (out : Except (Located ReadError) α) : Prop where
  calm : ∀ e, out = .error e → e.cause.kind? ≠ some .overlap
  unlimited : ∀ b < 0, run b = out.map (·, b) ∧ (log b).map Payment.payload = ps
  lasts : ∀ b : Int, Payload.total ps ≤ b → run b = out.map (·, b - Payload.total ps)
  runsOut : ∀ b : Int, 0 ≤ b → b < Payload.total ps → ∃ e, run b = .error e ∧ e.cause.kind? = some .overlap
  billed : ∀ b : Int, 0 ≤ b → log b = bill b ps

def Metered {α : Type} (run : Int → Except (Located ReadError) (α × Int)) (log : Int → List Payment) : Prop :=
  ∃ ps out, Meters run log ps out

section Walks

variable {α β : Type} {run : Int → Except (Located ReadError) (α × Int)} {log log' : Int → List Payment}

theorem metered_result (out : Except (Located ReadError) α)
    (hout : ∀ e, out = .error e → e.cause.kind? ≠ some .overlap) : Metered (fun b => out.map (·, b)) fun _ => [] := by
  refine ⟨[], out, hout, fun b _ => ⟨rfl, rfl⟩, fun b _ => ?_, fun b hb hlt => ?_, fun b _ => rfl⟩
  · simp [Payload.total]
  · exact absurd hlt (Int.not_lt.2 hb)

theorem Metered.bind (h : Metered run log) (next : α → Int → Except (Located ReadError) (β × Int))
    (hnext : ∀ a, Metered (next a) log') :
    Metered (fun b => run b >>= fun x => next x.1 x.2) fun b => log b ++ after ((run b).map Prod.snd) log' := by
  obtain ⟨ps, out, h⟩ := h
  cases out with
  | error e =>
    -- what comes next is never reached
    refine ⟨ps, .error e, fun e' he' => ?_, fun b hb => ?_, fun b hb => ?_, fun b hb hlt => ?_, fun b hb => ?_⟩
    · cases he'
      exact h.calm e rfl
    · obtain ⟨hrun, hlog⟩ := h.unlimited b hb
      rw [hrun]
      exact ⟨rfl, by rw [← hlog]; exact congrArg _ (List.append_nil _)⟩
    · rw [h.lasts b hb]
      rfl
    · obtain ⟨e', he', hk⟩ := h.runsOut b hb hlt
      exact ⟨e', by rw [he']; rfl, hk⟩
    · obtain ⟨e', he'⟩ : ∃ e', run b = .error e' := by
        by_cases hps : b < Payload.total ps
        · obtain ⟨e', he', -⟩ := h.runsOut b hb hps
          exact ⟨e', he'⟩
        · exact ⟨e, h.lasts b (by omega)⟩
      rw [he', h.billed b hb]
      exact List.append_nil _
  | ok a =>
    obtain ⟨qs, out', h'⟩ := hnext a
    refine ⟨ps ++ qs, out', h'.calm, fun b hb => ?_, fun b hb => ?_, fun b hb hlt => ?_, fun b hb => ?_⟩
    · obtain ⟨hrun, hlog⟩ := h.unlimited b hb
      obtain ⟨hrun', hlog'⟩ := h'.unlimited b hb
      rw [hrun]
      exact ⟨hrun', by rw [List.map_append, hlog, ← hlog']; rfl⟩
    · rw [Payload.total_append, Nat.cast_add] at hb
      rw [h.lasts b (by omega), Payload.total_append, Nat.cast_add, ← Int.sub_sub]
      exact h'.lasts (b - Payload.total ps) (by omega)
    · by_cases hps : b < Payload.total ps
      · obtain ⟨e, he, hk⟩ := h.runsOut b hb hps
        exact ⟨e, by rw [he]; rfl, hk⟩
      · rw [Payload.total_append, Nat.cast_add] at hlt
        rw [h.lasts b (by omega)]
        exact h'.runsOut (b - Payload.total ps) (by omega) (by omega)
    · by_cases hps : b < Payload.total ps
      · obtain ⟨e, he, -⟩ := h.runsOut b hb hps
        rw [bill_append_of_lt hb hps, he, h.billed b hb]
        exact List.append_nil _
      · rw [bill_append_of_le (by omega), h.lasts b (by omega), h.billed b hb]
        exact congrArg _ (h'.billed (b - Payload.total ps) (by omega))

theorem append_after_nil (ps : List Payment) (x : Except (Located ReadError) Int) :
    ps ++ after x (fun _ => []) = ps := by
  cases x <;> exact List.append_nil ps

theorem Metered.map (h : Metered run log) (g : α → β) : Metered (fun b => run b >>= fun x => pure (g x.1, x.2)) log := by
  have hpure : ∀ a, Metered (fun b => (pure (g a, b) : Except (Located ReadError) (β × Int))) fun _ => [] :=
    fun a => metered_result (.ok (g a)) (by simp)
  simpa only [append_after_nil] using h.bind _ hpure

theorem Metered.within (h : Metered run log) (p : Place) : Metered (fun b => Flatwire.within p (run b)) log := by
  obtain ⟨ps, out, h⟩ := h
  have hmap : ∀ b : Int, Flatwire.within p (out.map (·, b)) = (Flatwire.within p out).map (·, b) := by
    intro b
    cases out <;> rfl
  refine ⟨ps, Flatwire.within p out, fun e he => ?_, fun b hb => ?_, fun b hb => ?_, fun b hb hlt => ?_, h.billed⟩
  · cases out with
    | ok a => cases he
    | error e' =>
      cases he
      exact h.calm e' rfl
  · rw [(h.unlimited b hb).1, hmap]
    exact ⟨rfl, (h.unlimited b hb).2⟩
  · rw [h.lasts b hb, hmap]
  · obtain ⟨e, he, hk⟩ := h.runsOut b hb hlt
    rw [he]
    exact ⟨_, rfl, hk⟩

theorem Metered.charge (h : Metered run log) (r : Reader) (start n : Nat) :
    Metered (fun b => Flatwire.charge r n b >>= run)
      fun b => ⟨⟨start, n⟩, b⟩ :: after (Flatwire.charge r n b) log := by
  obtain ⟨ps, out, h⟩ := h
  have htotal : (Payload.total (⟨start, n⟩ :: ps) : Int) = n + Payload.total ps := by
    rw [Payload.total_cons, Nat.cast_add]
  refine ⟨⟨start, n⟩ :: ps, out, h.calm, fun b hb => ?_, fun b hb => ?_, fun b hb hlt => ?_, fun b hb => ?_⟩
  · rw [Flatwire.charge, if_pos hb]
    exact ⟨(h.unlimited b hb).1, congrArg _ (h.unlimited b hb).2⟩
  · rw [Flatwire.charge, if_neg (by omega), if_neg (by omega), htotal, ← Int.sub_sub]
    exact h.lasts (b - n) (by omega)
  · rw [Flatwire.charge, if_neg (by omega)]
    split_ifs with hn
    · exact ⟨_, rfl, rfl⟩
    · exact h.runsOut (b - n) (by omega) (by omega)
  · rw [bill, Flatwire.charge, if_neg (by omega)]
    dsimp only
    split_ifs with hn hle hle
    · omega
    · rfl
    · exact congrArg _ (h.billed (b - n) (by omega))
    · omega

theorem metered_charged (r : Reader) (start n : Nat) (v : Value) :
    Metered (fun b => do return (v, ← Flatwire.charge r n b)) fun b => [⟨⟨start, n⟩, b⟩] := by
  have hdone : Metered (fun b => (pure (v, b) : Decoded)) fun _ => [] := metered_result (.ok v) (by simp)
  have hnil : ∀ b, after (Flatwire.charge r n b) (fun _ => []) = [] := fun b => append_after_nil [] _
  simpa only [hnil] using hdone.charge r start n

theorem Metered.part (h : Metered run log) (p : Place) (next : α → Int → Except (Located ReadError) (β × Int))
    (hnext : ∀ a, Metered (next a) log') :
    Metered (fun b => Flatwire.within p (run b) >>= fun x => next x.1 x.2)
      fun b => log b ++ after ((run b).map Prod.snd) log' := by
  have hlog : ∀ b, after ((Flatwire.within p (run b)).map Prod.snd) log' = after ((run b).map Prod.snd) log' := by
    intro b
    cases run b <;> rfl
  simpa only [hlog] using (h.within p).bind next hnext

variable {decode : Reader → Int → Decoded} {followed : Reader → Int → List Payment} {r : Reader}

theorem decodeFields_metered (hd : ∀ r, Metered (decode r) (followed r)) {q : SequenceType} {fs : List Field}
    {done : List (Bytes × Value)} :
    Metered (fun b => decodeFields decode r q fs b done) fun b => fieldPayments decode followed r fs b := by
  induction fs generalizing done with
  | nil => exact metered_result (.ok (Value.record done)) (by simp)
  | cons f fs ih =>
    have hstep : ∀ b, decodeFields decode r q (f :: fs) b done =
        within (.field q.name f.name) (decode (r.moved f.type (r.addr + f.offset.toNat)) b) >>=
          fun x => decodeFields decode r q fs x.2 (setField done f.name x.1) := by
      intro b
      rw [decodeFields]
      cases within (.field q.name f.name) (decode (r.moved f.type (r.addr + f.offset.toNat)) b) <;> rfl
    simp only [hstep]
    exact (hd (r.moved f.type (r.addr + f.offset.toNat))).part (.field q.name f.name)
      (fun v b => decodeFields decode r q fs b (setField done f.name v)) fun _ => ih

theorem decodeItems_metered (hd : ∀ r, Metered (decode r) (followed r)) {h : Reader.ListHeader} {i n : Nat}
    {done : List Value} :
    Metered (fun b => decodeItems decode r h i n b done) fun b => itemPayments decode followed r h i n b := by
  induction n generalizing i done with
  | zero => exact metered_result (.ok (Value.list done.reverse)) (by simp)
  | succ n ih =>
    have hstep : ∀ b, decodeItems decode r h i (n + 1) b done =
        within (.item i) (decode (r.element h i) b) >>= fun x => decodeItems decode r h (i + 1) n x.2 (x.1 :: done) := by
      intro b
      rw [decodeItems]
      cases within (.item i) (decode (r.element h i) b) <;> rfl
    simp only [hstep]
    exact (hd (r.element h i)).part (.item i) (fun v b => decodeItems decode r h (i + 1) n b (v :: done)) fun _ => ih

end Walks

/-! ### Failures of accessors -/

/-- The accessor does not fail with an overlap: only payments do. -/
def Calm {α : Type} (x : Except ReadError α) : Prop := ∀ e, x = .error e → e.kind? ≠ some .overlap

namespace Calm

variable {α β : Type} {r : Reader}

theorem ok (a : α) : Calm (.ok a : Except ReadError α) := by
  intro e he
  cases he

theorem bind {x : Except ReadError α} {f : α → Except ReadError β} (hx : Calm x) (hf : ∀ a, Calm (f a)) :
    Calm (x >>= f) := by
  cases x with
  | ok a => exact hf a
  | error e =>
    intro e' he'
    cases he'
    exact hx e rfl

theorem error {e : ReadError} (he : e.kind? ≠ some .overlap) : Calm (.error e : Except ReadError α) := by
  intro e' he'
  cases he'
  exact he

theorem check (r : Reader) (a n : Nat) : Calm (r.check a n) := by
  unfold Reader.check
  split_ifs
  · exact error (by simp [ReadError.kind?])
  · exact ok ()

theorem fetch (x : Option α) : Calm (Reader.fetch x) := by
  cases x with
  | some a => exact ok a
  | none => exact error (by decide)

theorem mismatch (r : Reader) (wanted : String) : Calm (r.mismatch wanted : Except ReadError α) :=
  error (by simp [ReadError.kind?])

theorem fetched (r : Reader) (a n : Nat) (x : Option α) : Calm (do r.check a n; Reader.fetch x) :=
  (check r a n).bind fun _ => fetch x

theorem listHeader (r : Reader) : Calm r.listHeader := by
  unfold Reader.listHeader
  split
  · refine (check r _ _).bind fun _ => (fetch _).bind fun x => ?_
    dsimp only
    split_ifs
    · exact (check r _ _).bind fun _ => error (by simp [ReadError.kind?])
    · exact (check r _ _).bind fun _ => ok _
    · exact ok _
  · exact mismatch r _

theorem bytes (r : Reader) : Calm r.bytes := by
  refine (listHeader r).bind fun h => ?_
  split_ifs
  · exact fetch _
  · exact mismatch r _

theorem variant (r : Reader) : Calm r.variant := by
  have hheader : Calm r.oneOfHeader := by
    unfold Reader.oneOfHeader
    split
    · exact (check r _ _).bind fun _ => (fetch _).bind fun _ => ok _
    · exact mismatch r _
  refine hheader.bind fun x => ?_
  dsimp only
  split
  · exact error (by simp [ReadError.kind?])
  · split_ifs
    · exact (check r _ _).bind fun _ => error (by simp [ReadError.kind?])
    · exact (check r _ _).bind fun _ => ok _
    · exact ok _

theorem text (r : Reader) : Calm r.text := by
  unfold Reader.text
  split
  · split_ifs
    · refine (check r _ _).bind fun _ => (fetch _).bind fun payload => (check r _ _).bind fun _ => ?_
      split
      · exact error (by simp [ReadError.kind?])
      · exact fetch _
    · exact fetch _
  · exact mismatch r _

theorem uint (r : Reader) : Calm r.uint := by
  unfold Reader.uint
  split
  · exact fetched r _ _ _
  · split_ifs
    · exact mismatch r _
    · exact fetched r _ _ _
  · exact mismatch r _

theorem int (r : Reader) : Calm r.int := by
  unfold Reader.int
  split
  · split_ifs
    · exact fetched r _ _ _
    · exact mismatch r _
  · exact mismatch r _

theorem float (r : Reader) : Calm r.float := by
  unfold Reader.float
  split
  · exact (check r _ _).bind fun _ => (fetch _).bind fun _ => ok _
  · exact fetched r _ _ _
  · exact mismatch r _

theorem bool (r : Reader) : Calm r.bool := by
  unfold Reader.bool
  split
  · exact fetched r _ _ _
  · exact mismatch r _

end Calm

theorem plain_metered {α : Type} (value : α → Value) {x : Except ReadError α} (hx : Calm x) :
    Metered (fun b => plain b value x) fun _ => [] := by
  cases x with
  | ok a => exact metered_result (.ok (value a)) (by simp)
  | error e =>
    refine metered_result (.error (.here e)) fun e' he' => ?_
    cases he'
    exact hx e rfl

theorem failed_metered {α : Type} {e : ReadError} (he : e.kind? ≠ some .overlap) :
    Metered (fun _ => (.error (.here e) : Except (Located ReadError) (α × Int))) fun _ => [] :=
  metered_result (.error (.here e)) fun e' he' => by
    cases he'
    exact he

theorem decodePrimitive_metered (r : Reader) (k : PrimitiveKind) :
    Metered (decodePrimitive r k) fun _ => [] := by
  unfold decodePrimitive
  split_ifs
  · exact plain_metered _ (.bool r)
  · exact plain_metered _ (.float r)
  · exact plain_metered _ (.int r)
  · exact plain_metered _ (.uint r)

/-! ### Where payloads lie -/

theorem Buffer.deref?_nat {buf : Buffer} {a : Nat} {p : Int} (h : buf.deref? a = some p) : ∃ start : Nat, p = start := by
  obtain ⟨_, hd, rfl⟩ := Option.map_eq_some_iff.1 h
  obtain ⟨d, -, hd⟩ := Option.bind_eq_some_iff.1 hd
  cases hd
  exact ⟨a + d, by omega⟩

namespace Reader

variable {r : Reader}

theorem text_payload {t : Bytes} (h : r.text = .ok t) :
    ∃ start : Nat, r.buf.deref? r.addr = some (start : Int) ∧
      (r.checked = true → start + (t.length + 1) ≤ r.buf.size) := by
  unfold text at h
  split at h
  · split_ifs at h with hc
    · obtain ⟨_, -, h⟩ := exists_of_bind h
      obtain ⟨p, hslot, h⟩ := exists_of_bind h
      obtain ⟨_, -, h⟩ := exists_of_bind h
      have hderef := fetch_eq_ok hslot
      obtain ⟨start, rfl⟩ := Buffer.deref?_nat hderef
      refine ⟨start, hderef, fun _ => ?_⟩
      split at h
      · cases h
      · rename_i stop hstop
        obtain ⟨hle, hlt⟩ := Buffer.zeroFromAux_some hstop
        have hslice := fetch_eq_ok h
        rw [Int.toNat_natCast] at hslice hle
        obtain ⟨n, rfl⟩ := Nat.exists_eq_add_of_le hle
        rw [Nat.cast_add] at hslice
        obtain ⟨-, hlen⟩ := Buffer.holds_of_slice? hslice
        omega
    · obtain ⟨p, hderef, -⟩ := Option.bind_eq_some_iff.1 (fetch_eq_ok h)
      obtain ⟨start, rfl⟩ := Buffer.deref?_nat hderef
      exact ⟨start, hderef, fun hc' => absurd hc' hc⟩
  · cases h

theorem bytes_payload {items : Bytes} (h : r.bytes = .ok items) :
    ∃ header, r.listHeader = .ok header ∧
      (r.checked = true → 0 < items.length → header.payload + items.length ≤ r.buf.size) := by
  obtain ⟨header, hheader, hu, hslice⟩ := bytes_eq_ok.1 h
  have hlen := (Buffer.holds_of_slice? hslice).2
  refine ⟨header, hheader, fun hc hpos => ?_⟩
  have hin := list_payload hc hheader (hlen ▸ hpos)
  rwa [show r.schema.staticSize header.elem = 1 from Schema.staticSize_eq hu, Nat.mul_one, ← hlen] at hin

theorem variant_payload {member : Variant} {inner : Reader} (hc : r.checked = true)
    (h : r.variant = .ok (member, inner)) :
    inner.addr + r.schema.staticSize member.type ≤ r.buf.size ∧ inner.buf = r.buf ∧ inner.checked = true := by
  obtain ⟨_, _, payload, -, -, rfl, hbody⟩ := variant_eq_ok.1 h
  exact ⟨le_of_check hc (hbody hc).1, rfl, hc⟩

end Reader

/-- Every walk is metered: its payloads and its result are those of the walk without a limit, if the budget lasts. -/
theorem decodeAux_metered (fuel : Nat) : ∀ r, Metered (decodeAux fuel r) (payments fuel r) := by
  induction fuel with
  | zero => exact fun r => failed_metered (by decide)
  | succ fuel ih =>
    intro r
    have hrun : decodeAux (fuel + 1) r = fun b => decodeAux (fuel + 1) r b := rfl
    have hlog : payments (fuel + 1) r = fun b => payments (fuel + 1) r b := rfl
    rw [hrun, hlog]
    simp only [decodeAux, payments]
    cases ht : r.type? with
    | none => exact failed_metered (by simp [ReadError.kind?])
    | some t =>
      cases t with
      | primitive k => exact decodePrimitive_metered r k
      | enum e => exact plain_metered _ (.uint r)
      | string =>
        cases htext : r.text with
        | error e => exact failed_metered (Calm.text r e htext)
        | ok t =>
          obtain ⟨start, hslot, -⟩ := Reader.text_payload htext
          simp only [hslot]
          exact metered_charged r _ (t.length + 1) (.text t)
      | list elem =>
        simp only [decodeList]
        split_ifs with hu
        · cases hbytes : r.bytes with
          | error e =>
            -- nothing is paid, be it the header that fails or what it points at
            have hnone : Metered (fun _ => (.error (.here e) : Decoded)) fun _ => [] :=
              failed_metered (Calm.bytes r e hbytes)
            cases r.listHeader <;> exact hnone
          | ok items =>
            obtain ⟨h, hheader, -⟩ := Reader.bytes_payload hbytes
            simp only [hheader]
            exact metered_charged r h.payload items.length (.bytes items)
        · cases hheader : r.listHeader with
          | error e => exact failed_metered (Calm.listHeader r e hheader)
          | ok h =>
            exact (decodeItems_metered ih).charge r h.payload (h.length * r.schema.staticSize elem)
      | sequence q => exact decodeFields_metered ih
      | oneOf o =>
        simp only [decodeVariant]
        cases hvariant : r.variant with
        | error e => exact failed_metered (Calm.variant r e hvariant)
        | ok x =>
          obtain ⟨member, inner⟩ := x
          exact (((ih inner).within (.variant member.name)).map _).charge inner inner.addr _

/-- A payload that is not empty ends inside the buffer. -/
def Payload.Lies (p : Payload) (buf : Buffer) : Prop := 0 < p.size → p.start + p.size ≤ buf.size

theorem payment_lies_after {x : Except (Located ReadError) Int} {next : Int → List Payment} {buf : Buffer}
    (h : ∀ b, ∀ p ∈ next b, p.payload.Lies buf) : ∀ p ∈ after x next, p.payload.Lies buf := by
  cases x with
  | ok b => exact h b
  | error e => exact fun p hp => nomatch hp

section Lies

variable {decode : Reader → Int → Decoded} {followed : Reader → Int → List Payment} {r : Reader}

theorem fieldPayments_lie
    (hd : ∀ r', r'.checked = true → r'.buf = r.buf → ∀ b, ∀ p ∈ followed r' b, p.payload.Lies r.buf)
    (hc : r.checked = true) {fs : List Field} (b : Int) :
    ∀ p ∈ fieldPayments decode followed r fs b, p.payload.Lies r.buf := by
  induction fs generalizing b with
  | nil => exact fun p hp => nomatch hp
  | cons f fs ih =>
    intro p hp
    rcases List.mem_append.1 hp with hp | hp
    · exact hd (r.moved f.type (r.addr + f.offset.toNat)) hc rfl b p hp
    · exact payment_lies_after ih p hp

theorem itemPayments_lie
    (hd : ∀ r', r'.checked = true → r'.buf = r.buf → ∀ b, ∀ p ∈ followed r' b, p.payload.Lies r.buf)
    (hc : r.checked = true) {h : Reader.ListHeader} {i n : Nat} (b : Int) :
    ∀ p ∈ itemPayments decode followed r h i n b, p.payload.Lies r.buf := by
  induction n generalizing i b with
  | zero => exact fun p hp => nomatch hp
  | succ n ih =>
    intro p hp
    rcases List.mem_append.1 hp with hp | hp
    · exact hd (r.element h i) hc rfl b p hp
    · exact payment_lies_after ih p hp

end Lies

theorem payments_lie (fuel : Nat) {buf : Buffer} :
    ∀ r : Reader, r.checked = true → r.buf = buf → ∀ b, ∀ p ∈ payments fuel r b, p.payload.Lies buf := by
  induction fuel with
  | zero => exact fun r _ _ b p hp => nomatch hp
  | succ fuel ih =>
    rintro r hc rfl b p hp
    rw [payments] at hp
    split at hp
    · split at hp
      · rename_i t start htext hslot
        obtain ⟨start', hslot', hin⟩ := Reader.text_payload htext
        cases hslot.symm.trans hslot'
        cases List.mem_singleton.1 hp
        exact fun _ => hin hc
      · cases hp
    · rename_i elem ht
      split at hp
      · cases hp
      · rename_i h hheader
        have helem : h.elem = elem := by
          have := (Reader.listHeader_eq_ok.1 hheader).1
          rw [ht] at this
          cases this
          rfl
        split_ifs at hp with hu
        · split at hp
          · rename_i items hbytes
            obtain ⟨h', hheader', hin⟩ := Reader.bytes_payload hbytes
            cases hheader.symm.trans hheader'
            cases List.mem_singleton.1 hp
            exact hin hc
          · cases hp
        · rcases List.mem_cons.1 hp with rfl | hp
          · intro hpos
            rw [← helem] at hpos ⊢
            exact Reader.list_payload hc hheader (Nat.pos_of_mul_pos_right hpos)
          · exact payment_lies_after (itemPayments_lie ih hc) p hp
    · exact fieldPayments_lie ih hc b p hp
    · split at hp
      · cases hp
      · rename_i member inner hvariant
        obtain ⟨hin, hbuf, hchecked⟩ := Reader.variant_payload hc hvariant
        rcases List.mem_cons.1 hp with rfl | hp
        · exact fun _ => hin
        · exact payment_lies_after (ih inner hchecked hbuf) p hp
    · cases hp

end Flatwire
