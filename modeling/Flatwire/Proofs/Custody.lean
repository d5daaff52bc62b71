import Mathlib.Data.List.Basic
import Flatwire.Plugin.Host

/-! What passes between the host and a guest in a call. The guest may do anything; still every buffer that it handed out
is given back once, the last one first and after all else, and a call succeeds exactly if every part of the exchange
did. -/

namespace Flatwire.Plugin

variable {request : Request}

/-! ### Contacts -/

/-- What the host does to a guest, and what the guest answers. -/
inductive Contact where
  /-- The guest hands out a buffer, refuses with zero, or traps. -/
  | allocate (size : Nat) (result : Option UInt32)
  | write (ptr : UInt32) (bytes : Bytes) (taken : Bool)
  /-- The guest returns a code or traps. -/
  | enter (request slot : UInt32) (result : Option UInt32)
  /-- A buffer is given back, whatever the guest makes of it. -/
  | deallocate (ptr : UInt32)
deriving DecidableEq, Repr

/-- The buffer that was handed out. -/
def Contact.granted? : Contact → Option UInt32
  | allocate _ (some ptr) => if ptr = 0 then none else some ptr
  | _ => none

/-- The event under which the host notes a call. -/
def Contact.event? : Contact → Option Event
  | allocate size result => some (.allocated size result)
  | write .. => none
  | enter _ _ result => some (.entered result)
  | deallocate ptr => some (.freed ptr)

def Event.isCall : Event → Bool
  | printed _ | logged _ => false
  | allocated .. | freed _ | entered _ => true

variable {σ : Type}

/-- The calls that the host has noted. -/
def Session.calls (s : Session σ) : List Event := s.events.filter Event.isCall

section Guest

variable (p : Plugin σ) (entry : Entry σ)

/-- What lies in the guest's memory. -/
def read? (ptr : UInt32) (size : Nat) (st : σ) : Option Bytes := p.memory.bind (·.read? ptr size st)

def write? (ptr : UInt32) (bytes : Bytes) (st : σ) : Option σ := p.memory.bind (·.write? ptr bytes st)

/-- The guest answers the contact as it says, and goes from one state to the other. -/
inductive Meets : σ → Contact → σ → Prop where
  | allocate {st size result st'} : (p.allocate (UInt32.ofNat size) st).result = result →
      (p.allocate (UInt32.ofNat size) st).state = st' → Meets st (.allocate size result) st'
  | write {st ptr bytes st'} : p.write? ptr bytes st = some st' → Meets st (.write ptr bytes true) st'
  | refuse {st ptr bytes} : p.write? ptr bytes st = none → Meets st (.write ptr bytes false) st
  | enter {st request slot result st'} : (entry request slot st).result = result →
      (entry request slot st).state = st' → Meets st (.enter request slot result) st'
  | deallocate {st ptr f} : p.deallocate = some f → Meets st (.deallocate ptr) (f ptr st).state

/-- Contacts one after the other. -/
inductive Trace : σ → List Contact → σ → Prop where
  | nil {st} : Trace st [] st
  | cons {st c st₁ cs st'} : Meets p entry st c st₁ → Trace st₁ cs st' → Trace st (c :: cs) st'

/-- The address that stands in a slot, unless it is zero or the slot lies outside the memory. -/
def addressAt? (slot : UInt32) (st : σ) : Option UInt32 :=
  ((p.read? slot 4 st).map fun bytes => UInt32.ofNat (Bytes.toNat bytes)).filter (· ≠ 0)

/-- The message at an address, as long as its header says and inside the memory. -/
def messageAt? (address : UInt32) (st : σ) : Option Bytes := do
  let header ← p.read? address headerSize st
  let size ← (messageLength header).toOption
  p.read? address size st

/-- The address of the response: the one in the slot, if the last contact was an entry that returned. -/
def answer? (work : List Contact) (st : σ) : Option UInt32 :=
  match work.getLast? with
  | some (.enter _ slot (some _)) => p.addressAt? slot st
  | _ => none

/-- What is to be given back after some work, if the guest takes it: the response, then the buffers that were handed
out, the last one first. -/
def dues (work : List Contact) (st : σ) : List UInt32 :=
  if p.deallocate.isSome then (p.answer? work st).toList ++ (work.filterMap Contact.granted?).reverse else []

/-- Between the two, work of some course is done, then exactly what is due is given back, and all calls are noted. -/
def Settles (course : List Contact → Prop) (s s' : Session σ) : Prop :=
  ∃ work st, course work ∧ Trace p entry s.state work st ∧
    Trace p entry st ((p.dues work st).map .deallocate) s'.state ∧
    s'.calls = s.calls ++ (work ++ (p.dues work st).map Contact.deallocate).filterMap Contact.event?

/-- The message can be sent, both buffers are handed out and written to, and the entry is called with them. -/
def Calls (message : Bytes) (st : σ) (slot : UInt32) (result : Option UInt32) (st' : σ) : Prop :=
  message.length ≤ maxMessage ∧ ∃ ptr, ptr ≠ 0 ∧ slot ≠ 0 ∧ Trace p entry st
    [.allocate message.length (some ptr), .write ptr message true, .allocate 4 (some slot),
      .write slot [0, 0, 0, 0] true, .enter ptr slot result] st'

/-- The slot leads to a message that can be read. -/
def Responds (slot : UInt32) (st : σ) (response : Response) : Prop :=
  ∃ address message, p.addressAt? slot st = some address ∧ p.messageAt? address st = some message ∧
    Response.decode message = .ok response

end Guest

/-! ### Courses -/

/-- A buffer is asked for, and something is done if there is one. -/
inductive Allocating (size : Nat) (next : UInt32 → List Contact → Prop) : List Contact → Prop where
  | fails {result} : (Contact.allocate size result).granted? = none → Allocating size next [.allocate size result]
  | goes {ptr work} : ptr ≠ 0 → next ptr work → Allocating size next (.allocate size (some ptr) :: work)

/-- Something is written, and something is done if it could be. -/
inductive Writing (ptr : UInt32) (bytes : Bytes) (next : List Contact → Prop) : List Contact → Prop where
  | fails : Writing ptr bytes next [.write ptr bytes false]
  | goes {work} : next work → Writing ptr bytes next (.write ptr bytes true :: work)

inductive Entering (request slot : UInt32) : List Contact → Prop where
  | done {result} : Entering request slot [.enter request slot result]

def Sending (message : Bytes) : List Contact → Prop :=
  Allocating message.length fun ptr => Writing ptr message <|
    Allocating 4 fun slot => Writing slot [0, 0, 0, 0] <| Entering ptr slot

/-- The course of a call with a message. The guest hears nothing of one that is too long. -/
inductive Calling (message : Bytes) : List Contact → Prop where
  | unsent : maxMessage < message.length → Calling message []
  | sent {work} : message.length ≤ maxMessage → Sending message work → Calling message work

variable {p : Plugin σ} {entry : Entry σ} {s s' s₁ : Session σ} {st st' st₁ : σ} {c : Contact}
  {cs ds work : List Contact} {ptr slot address : UInt32} {size : Nat} {bytes : Bytes} {response : Response}
  {course next : List Contact → Prop}

theorem Trace.append (h : Trace p entry st cs st₁) (h' : Trace p entry st₁ ds st') :
    Trace p entry st (cs ++ ds) st' := by
  induction h with
  | nil => exact h'
  | cons hc _ ih => exact .cons hc (ih h')

/-! ### Parts of a call -/

namespace Session

@[simp] theorem state_record (s : Session σ) (e : Event) : (s.record e).state = s.state := rfl

theorem calls_record (s : Session σ) (e : Event) : (s.record e).calls = s.calls ++ if e.isCall then [e] else [] := by
  simp [calls, record, List.filter_append, List.filter_singleton]

variable {α : Type} (s : Session σ) (f : σ → Reply σ α)

@[simp] theorem step_fst : (s.step f).1 = (f s.state).result := rfl

@[simp] theorem state_step : (s.step f).2.state = (f s.state).state := by
  unfold step
  dsimp only
  split_ifs <;> rfl

@[simp] theorem calls_step : (s.step f).2.calls = s.calls := by
  unfold step
  dsimp only
  split_ifs
  · rfl
  · rw [calls_record]
    exact List.append_nil _

end Session

@[simp] theorem state_log (level : LogLevel) (message : String) (fields : List (String × LogValue)) (s : Session σ) :
    (p.log level message fields s).state = s.state := rfl

@[simp] theorem calls_log (level : LogLevel) (message : String) (fields : List (String × LogValue)) (s : Session σ) :
    (p.log level message fields s).calls = s.calls := by
  rw [log, Session.calls_record]
  exact List.append_nil _

theorem free_spec (hptr : ptr ≠ 0) (s : Session σ) (entry : Entry σ) :
    let back := (if p.deallocate.isSome then [ptr] else []).map Contact.deallocate
    Trace p entry s.state back (p.free ptr s).state ∧
      (p.free ptr s).calls = s.calls ++ back.filterMap Contact.event? := by
  cases hf : p.deallocate with
  | none =>
    simp only [free, hf]
    exact ⟨.nil, (List.append_nil _).symm⟩
  | some f =>
    have hmeets : Meets p entry s.state (.deallocate ptr) (f ptr s.state).state := .deallocate hf
    have hfree : (p.free ptr s).state = (f ptr s.state).state ∧ (p.free ptr s).calls = s.calls ++ [.freed ptr] := by
      simp only [free, hf, if_neg hptr]
      split <;> simp [Session.calls_record, Event.isCall]
    exact ⟨hfree.1 ▸ .cons hmeets .nil, hfree.2⟩

theorem alloc_spec (p : Plugin σ) (size : Nat) (s : Session σ) (entry : Entry σ) :
    ∃ result s₁, Meets p entry s.state (.allocate size result) s₁.state ∧
      s₁.calls = s.calls ++ [.allocated size result] ∧
      ((∃ e, p.alloc size s = (.error e, s₁) ∧ (Contact.allocate size result).granted? = none) ∨
        ∃ ptr, p.alloc size s = (.ok ptr, s₁) ∧ result = some ptr ∧ ptr ≠ 0) := by
  obtain ⟨result, hr⟩ : ∃ result, (p.allocate (UInt32.ofNat size) s.state).result = result := ⟨_, rfl⟩
  refine ⟨result, (s.step (p.allocate (UInt32.ofNat size))).2.record (.allocated size result),
    .allocate hr (by simp), by simp [Session.calls_record, Event.isCall], ?_⟩
  cases result with
  | none => exact .inl ⟨.allocateTrap size, by simp [alloc, hr], rfl⟩
  | some ptr =>
    by_cases hzero : ptr = 0
    · exact .inl ⟨.outOfMemory size, by simp [alloc, hr, hzero], by simp [Contact.granted?, hzero]⟩
    · exact .inr ⟨ptr, by simp [alloc, hr, hzero], rfl, hzero⟩

theorem store_spec (p : Plugin σ) (ptr : UInt32) (bytes : Bytes) (e : HostError) (s : Session σ) (entry : Entry σ) :
    (∃ s₁, p.store ptr bytes e s = .ok s₁ ∧ Meets p entry s.state (.write ptr bytes true) s₁.state ∧
      s₁.calls = s.calls) ∨
    ∃ e', p.store ptr bytes e s = .error e' ∧ Meets p entry s.state (.write ptr bytes false) s.state := by
  cases hm : p.memory with
  | none => exact .inr ⟨.noMemory, by simp only [store, hm], .refuse (by simp [write?, hm])⟩
  | some m =>
    cases hw : m.write? ptr bytes s.state with
    | none => exact .inr ⟨e, by simp only [store, hm, hw], .refuse (by simp [write?, hm, hw])⟩
    | some st =>
      exact .inl ⟨{ s with state := st }, by simp only [store, hm, hw], .write (by simp [write?, hm, hw]), rfl⟩

/-! ### What is given back -/

theorem dues_cons (hc : ∀ request slot result, c ≠ .enter request slot result) (work : List Contact) (st : σ) :
    p.dues (c :: work) st = p.dues work st ++ if p.deallocate.isSome then c.granted?.toList else [] := by
  have hanswer : p.answer? (c :: work) st = p.answer? work st := by
    cases work with
    | nil =>
      cases c with
      | enter request slot result => exact absurd rfl (hc request slot result)
      | allocate | write | deallocate => rfl
    | cons => rfl
  unfold dues
  rw [hanswer]
  split
  · cases hg : c.granted? <;> simp [hg]
  · rfl

theorem Settles.cons (hmeets : Meets p entry s.state c s₁.state) (hcalls : s₁.calls = s.calls ++ c.event?.toList)
    (henter : ∀ request slot result, c ≠ .enter request slot result) (hgrant : c.granted? = none)
    (hcourse : ∀ work, next work → course (c :: work)) (h : p.Settles entry next s₁ s') :
    p.Settles entry course s s' := by
  obtain ⟨work, st, hwork, htrace, hback, hnoted⟩ := h
  have hdues : p.dues (c :: work) st = p.dues work st := by simp [dues_cons henter, hgrant]
  refine ⟨c :: work, st, hcourse work hwork, .cons hmeets htrace, hdues ▸ hback, ?_⟩
  rw [hnoted, hcalls, hdues]
  cases hc : c.event? <;> simp [hc]

theorem Settles.idle (hcourse : course []) (s : Session σ) : p.Settles entry course s s :=
  ⟨[], s.state, hcourse, .nil, by simpa [dues, answer?] using .nil, by simp [dues, answer?]⟩

theorem Settles.imp (h : p.Settles entry next s s') (hcourse : ∀ work, next work → course work) :
    p.Settles entry course s s' := by
  obtain ⟨work, st, hwork, hrest⟩ := h
  exact ⟨work, st, hcourse work hwork, hrest⟩

theorem Settles.single (hmeets : Meets p entry s.state c s'.state) (hcalls : s'.calls = s.calls ++ c.event?.toList)
    (henter : ∀ request slot result, c ≠ .enter request slot result) (hgrant : c.granted? = none)
    (hcourse : course [c]) : p.Settles entry course s s' := by
  have hidle : p.Settles entry (· = []) s' s' := .idle (by rfl) s'
  refine .cons hmeets hcalls henter hgrant ?_ hidle
  rintro work rfl
  exact hcourse

theorem Settles.buffer (hmeets : Meets p entry s.state (.allocate size (some ptr)) s₁.state) (hptr : ptr ≠ 0)
    (hcalls : s₁.calls = s.calls ++ [.allocated size (some ptr)])
    (hcourse : ∀ work, next work → course (.allocate size (some ptr) :: work)) (h : p.Settles entry next s₁ s') :
    p.Settles entry course s (p.free ptr s') := by
  obtain ⟨work, st, hwork, htrace, hback, hnoted⟩ := h
  obtain ⟨hlast, hfreed⟩ := free_spec (p := p) hptr s' entry
  have hdues : p.dues (.allocate size (some ptr) :: work) st =
      p.dues work st ++ if p.deallocate.isSome then [ptr] else [] := by
    rw [dues_cons (by simp)]
    simp [Contact.granted?, hptr]
  refine ⟨_ :: work, st, hcourse work hwork, .cons hmeets htrace, ?_, ?_⟩
  · rw [hdues, List.map_append]
    exact hback.append hlast
  · rw [hfreed, hnoted, hcalls, hdues]
    simp [Contact.event?]

theorem settles_withBuffer {α : Type} {next : UInt32 → List Contact → Prop}
    {use : UInt32 → Session σ → Except HostError α × Session σ}
    (h : ∀ ptr s, p.Settles entry (next ptr) s (use ptr s).2) (s : Session σ) :
    p.Settles entry (Allocating size next) s (p.withBuffer size use s).2 := by
  obtain ⟨result, s₁, hmeets, hcalls, ⟨e, halloc, hgrant⟩ | ⟨ptr, halloc, rfl, hptr⟩⟩ := alloc_spec p size s entry <;>
    rw [withBuffer, halloc]
  · exact .single hmeets hcalls (by simp) hgrant (.fails hgrant)
  · exact .buffer hmeets hptr hcalls (fun _ => .goes hptr) (h ptr s₁)

theorem settles_store {α : Type} {use : Session σ → Except HostError α × Session σ}
    (h : ∀ s, p.Settles entry next s (use s).2) (e : HostError) (s : Session σ) :
    p.Settles entry (Writing ptr bytes next) s
      (match p.store ptr bytes e s with
        | .error e => ((Except.error e, s) : Except HostError α × Session σ)
        | .ok s => use s).2 := by
  obtain ⟨s₁, hstore, hmeets, hcalls⟩ | ⟨e', hstore, hmeets⟩ := store_spec p ptr bytes e s entry <;> rw [hstore]
  · exact .cons hmeets (by simpa [Contact.event?] using hcalls) (by simp) rfl (fun _ => .goes) (h s₁)
  · exact .single hmeets (by simp [Contact.event?]) (by simp) rfl .fails

/-! ### Responses -/

theorem fetch_spec (p : Plugin σ) (ptr : UInt32) (size : Nat) (e : HostError) (s : Session σ) :
    (∃ bytes, p.read? ptr size s.state = some bytes ∧ p.fetch ptr size e s = .ok bytes) ∨
      p.read? ptr size s.state = none ∧ ∃ e', p.fetch ptr size e s = .error e' := by
  unfold fetch read?
  cases p.memory with
  | none => exact .inr ⟨rfl, _, rfl⟩
  | some m => cases hr : m.read? ptr size s.state <;> simp [hr]

theorem responseAt_ok : p.responseAt address s = .ok response ↔
    ∃ message, p.messageAt? address s.state = some message ∧ Response.decode message = .ok response := by
  unfold responseAt messageAt?
  obtain ⟨header, hread, hfetch⟩ | ⟨hread, e, hfetch⟩ := fetch_spec p address headerSize .noLength s
  · cases hlen : messageLength header with
    | error e => simp [hread, hfetch, hlen, Except.mapError, Except.toOption, bind, Except.bind]
    | ok size =>
      obtain ⟨message, hread', hfetch'⟩ | ⟨hread', e, hfetch'⟩ := fetch_spec p address size .noMessage s
      · cases hdecode : Response.decode message <;>
          simp [hread, hfetch, hlen, hread', hfetch', hdecode, Except.mapError, Except.toOption, bind, Except.bind]
      · simp [hread, hfetch, hlen, hread', hfetch', Except.mapError, Except.toOption, bind, Except.bind]
  · simp [hread, hfetch, bind, Except.bind]

theorem takeResponse_spec (p : Plugin σ) (slot : UInt32) (s : Session σ) :
    (∃ address, p.addressAt? slot s.state = some address ∧ address ≠ 0 ∧
      p.takeResponse slot s = (p.responseAt address s, p.free address s)) ∨
    p.addressAt? slot s.state = none ∧ ∃ e, p.takeResponse slot s = (.error e, s) := by
  unfold takeResponse addressAt?
  obtain ⟨bytes, hread, hfetch⟩ | ⟨hread, e, hfetch⟩ := fetch_spec p slot 4 .noAddress s <;> simp only [hread, hfetch]
  · by_cases hzero : UInt32.ofNat (Bytes.toNat bytes) = 0 <;> simp [hzero]
  · exact .inr ⟨rfl, e, rfl⟩

theorem takeResponse_ok : (p.takeResponse slot s).1 = .ok response ↔ p.Responds slot s.state response := by
  unfold Responds
  obtain ⟨address, haddr, -, htake⟩ | ⟨haddr, e, htake⟩ := takeResponse_spec p slot s <;> simp only [htake, haddr]
  · simp [responseAt_ok]
  · simp

/-! ### Calls -/

/-- The session right after an entry was called. -/
def entered (entry : Entry σ) (request slot : UInt32) (s : Session σ) : Session σ :=
  (s.step (entry request slot)).2.record (.entered (entry request slot s.state).result)

theorem enter_trap {request : UInt32} (h : (entry request slot s.state).result = none) :
    p.enter entry request slot s = (.error .trap, entered entry request slot s) := by
  simp [enter, entered, h]

/-- What an entry that returned leaves behind is the taken response; the log may have a line more. -/
theorem enter_returned {request code : UInt32} (h : (entry request slot s.state).result = some code) :
    let s₁ := entered entry request slot s
    (p.enter entry request slot s).2.state = (p.takeResponse slot s₁).2.state ∧
    (p.enter entry request slot s).2.calls = (p.takeResponse slot s₁).2.calls ∧
    (p.enter entry request slot s).1 =
      if code = 0 then (p.takeResponse slot s₁).1
      else .error (.failed code (match (p.takeResponse slot s₁).1 with
        | .ok response => sanitize response.error
        | .error _ => [])) := by
  simp only [enter, entered, Session.step_fst, h]
  generalize p.takeResponse slot _ = taken
  obtain ⟨result, s'⟩ := taken
  by_cases hcode : code = 0
  · simp [hcode]
  · cases result <;> simp [hcode]

theorem dues_enter (request slot : UInt32) (result : Option UInt32) (st : σ) :
    p.dues [.enter request slot result] st =
      if p.deallocate.isSome then (result.bind fun _ => p.addressAt? slot st).toList else [] := by
  have hgrant : [Contact.enter request slot result].filterMap Contact.granted? = [] := rfl
  cases result <;> simp [dues, answer?, hgrant]

/-- A run in which an entry is called settles: if the entry returned, the response that it left is given back. -/
theorem settles_enter (request slot : UInt32) (s : Session σ) :
    p.Settles entry (Entering request slot) s (p.enter entry request slot s).2 := by
  obtain ⟨result, hr⟩ : ∃ result, (entry request slot s.state).result = result := ⟨_, rfl⟩
  have htrace : Trace p entry s.state [.enter request slot result] (entered entry request slot s).state :=
    .cons (.enter hr (by simp [entered])) .nil
  have hcalls : (entered entry request slot s).calls = s.calls ++ [.entered result] := by
    simp [entered, Session.calls_record, Event.isCall, hr]
  refine ⟨[.enter request slot result], _, .done, htrace, ?_⟩
  rw [dues_enter]
  cases result with
  | none =>
    rw [enter_trap hr]
    exact ⟨by simpa using .nil, by simp [hcalls, Contact.event?]⟩
  | some code =>
    obtain ⟨hstate, hnoted, -⟩ := enter_returned (p := p) hr
    rw [hstate, hnoted, Option.bind_some]
    obtain ⟨address, haddr, hne, htake⟩ | ⟨haddr, e, htake⟩ :=
      takeResponse_spec p slot (entered entry request slot s) <;> rw [htake, haddr]
    · obtain ⟨hlast, hfreed⟩ := free_spec (p := p) hne (entered entry request slot s) entry
      exact ⟨hlast, by simp [hfreed, hcalls, Contact.event?]⟩
    · exact ⟨by simpa using .nil, by simp [hcalls, Contact.event?]⟩

theorem settles_send (message : Bytes) (s : Session σ) :
    p.Settles entry (Sending message) s (p.send entry message s).2 :=
  settles_withBuffer (fun ptr s => settles_store (fun s => settles_withBuffer (fun slot s =>
    settles_store (fun s => settles_enter ptr slot s) _ s) s) _ s) s

theorem settles_call (request : Request) (s : Session σ) :
    p.Settles entry (Calling request.encode) s (p.call entry request s).2 := by
  unfold call
  dsimp only
  split_ifs with hlarge
  · exact .idle (.unsent hlarge) s
  · exact (settles_send request.encode s).imp fun work => .sent (Nat.not_lt.1 hlarge)

/-- The steps up to the call of the entry, each of which succeeds. -/
def Prepares (p : Plugin σ) (message : Bytes) (s : Session σ) (ptr slot : UInt32) (s' : Session σ) : Prop :=
  message.length ≤ maxMessage ∧ ∃ s₁ s₂ s₃, p.alloc message.length s = (.ok ptr, s₁) ∧
    p.store ptr message (.requestOutOfRange ptr) s₁ = .ok s₂ ∧ p.alloc 4 s₂ = (.ok slot, s₃) ∧
    p.store slot [0, 0, 0, 0] (.slotOutOfRange slot) s₃ = .ok s'

theorem alloc_iff : (∃ s₁, p.alloc size s = (.ok ptr, s₁) ∧ s₁.state = st) ↔
    ptr ≠ 0 ∧ Meets p entry s.state (.allocate size (some ptr)) st := by
  constructor
  · rintro ⟨s₁, halloc, rfl⟩
    obtain ⟨result, s₂, hmeets, -, ⟨e, herror, -⟩ | ⟨ptr', hok, rfl, hptr⟩⟩ := alloc_spec p size s entry
    · cases halloc.symm.trans herror
    · cases halloc.symm.trans hok
      exact ⟨hptr, hmeets⟩
  · rintro ⟨hptr, ⟨hr, hst⟩⟩
    exact ⟨_, by simp [alloc, hr, hptr]; rfl, by simp [hst]⟩

theorem store_iff {e : HostError} : (∃ s₁, p.store ptr bytes e s = .ok s₁ ∧ s₁.state = st) ↔
    Meets p entry s.state (.write ptr bytes true) st := by
  constructor
  · rintro ⟨s₁, hstore, rfl⟩
    obtain ⟨s₂, hok, hmeets, -⟩ | ⟨e', herror, -⟩ := store_spec p ptr bytes e s entry
    · cases hstore.symm.trans hok
      exact hmeets
    · cases hstore.symm.trans herror
  · rintro ⟨⟩
    rename_i hw
    obtain ⟨m, hm, hw⟩ := Option.bind_eq_some_iff.mp hw
    exact ⟨{ s with state := st }, by simp only [store, hm, hw], rfl⟩

theorem calls_iff {message : Bytes} {result : Option UInt32} :
    p.Calls entry message s.state slot result st ↔
      ∃ ptr s₁, p.Prepares message s ptr slot s₁ ∧ (entry ptr slot s₁.state).result = result ∧
        (entered entry ptr slot s₁).state = st := by
  constructor
  · rintro ⟨hsize, ptr, hptr, hslot, htrace⟩
    rcases htrace with _ | ⟨hptr', _ | ⟨hwrite, _ | ⟨hslot', _ | ⟨hwrite', _ | ⟨henter, hend⟩⟩⟩⟩⟩
    cases hend
    cases henter with | enter hr hst
    obtain ⟨s₁, h₁, rfl⟩ := alloc_iff.mpr ⟨hptr, hptr'⟩
    obtain ⟨s₂, h₂, rfl⟩ := store_iff.mpr hwrite
    obtain ⟨s₃, h₃, rfl⟩ := alloc_iff.mpr ⟨hslot, hslot'⟩
    obtain ⟨s₄, h₄, rfl⟩ := store_iff.mpr hwrite'
    exact ⟨ptr, s₄, ⟨hsize, s₁, s₂, s₃, h₁, h₂, h₃, h₄⟩, hr, by simpa [entered] using hst⟩
  · rintro ⟨ptr, s₄, ⟨hsize, s₁, s₂, s₃, h₁, h₂, h₃, h₄⟩, hr, hst⟩
    obtain ⟨hptr, hptr'⟩ := alloc_iff.mp ⟨s₁, h₁, rfl⟩
    obtain ⟨hslot, hslot'⟩ := alloc_iff.mp ⟨s₃, h₃, rfl⟩
    exact ⟨hsize, ptr, hptr, hslot, .cons hptr' (.cons (store_iff.mp ⟨s₂, h₂, rfl⟩) (.cons hslot'
      (.cons (store_iff.mp ⟨s₄, h₄, rfl⟩) (.cons (.enter hr (by simpa [entered] using hst)) .nil))))⟩

theorem call_of_prepares (h : p.Prepares request.encode s ptr slot s₁) :
    (p.call entry request s).1 = (p.enter entry ptr slot s₁).1 := by
  obtain ⟨hsize, s₁, s₂, s₃, h₁, h₂, h₃, h₄⟩ := h
  have hzero : Bytes.ofNat 4 0 = [0, 0, 0, 0] := rfl
  rw [call, if_neg (Nat.not_lt.2 hsize)]
  simp only [send, withBuffer, hzero, h₁, h₂, h₃, h₄]

theorem prepares_of_call (h : (p.call entry request s).1 = .ok response) :
    ∃ ptr slot s₁, p.Prepares request.encode s ptr slot s₁ := by
  have hzero : Bytes.ofNat 4 0 = [0, 0, 0, 0] := rfl
  unfold call at h
  dsimp only at h
  split_ifs at h with hlarge
  simp only [send, withBuffer, hzero] at h
  rcases h₁ : p.alloc request.encode.length s with ⟨e | ptr, s₁⟩ <;> simp only [h₁] at h
  · cases h
  rcases h₂ : p.store ptr request.encode (.requestOutOfRange ptr) s₁ with e | s₂ <;> simp only [h₂] at h
  · cases h
  rcases h₃ : p.alloc 4 s₂ with ⟨e | slot, s₃⟩ <;> simp only [h₃] at h
  · cases h
  rcases h₄ : p.store slot [0, 0, 0, 0] (.slotOutOfRange slot) s₃ with e | s₄ <;> simp only [h₄] at h
  · cases h
  exact ⟨ptr, slot, s₄, Nat.not_lt.1 hlarge, s₁, s₂, s₃, h₁, h₂, h₃, h₄⟩

theorem call_failed {code : UInt32} (hcode : code ≠ 0) (h : p.Calls entry request.encode s.state slot (some code) st) :
    ∃ message, (p.call entry request s).1 = .error (.failed code message) ∧
      (∀ response, p.Responds slot st response → message = sanitize response.error) ∧
      ((∀ response, ¬ p.Responds slot st response) → message = []) := by
  obtain ⟨ptr, s₁, hprep, hr, rfl⟩ := calls_iff.mp h
  obtain ⟨-, -, henter⟩ := enter_returned (p := p) hr
  rw [call_of_prepares hprep, henter, if_neg hcode]
  refine ⟨_, rfl, fun response hresp => ?_, fun hnone => ?_⟩
  · rw [takeResponse_ok.mpr hresp]
  · cases htake : (p.takeResponse slot (entered entry ptr slot s₁)).1 with
    | error => rfl
    | ok response => exact absurd (takeResponse_ok.mp htake) (hnone response)

theorem call_ok : (p.call entry request s).1 = .ok response ↔
    ∃ slot st, p.Calls entry request.encode s.state slot (some 0) st ∧ p.Responds slot st response := by
  constructor
  · intro h
    obtain ⟨ptr, slot, s₁, hprep⟩ := prepares_of_call h
    rw [call_of_prepares hprep] at h
    cases hr : (entry ptr slot s₁.state).result with
    | none => simp [enter_trap hr] at h
    | some code =>
      rw [(enter_returned hr).2.2] at h
      by_cases hcode : code = 0
      · rw [if_pos hcode] at h
        exact ⟨slot, _, calls_iff.mpr ⟨ptr, s₁, hprep, hcode ▸ hr, rfl⟩, takeResponse_ok.mp h⟩
      · rw [if_neg hcode] at h
        cases h
  · rintro ⟨slot, st, hcalls, hresp⟩
    obtain ⟨ptr, s₁, hprep, hr, rfl⟩ := calls_iff.mp hcalls
    rw [call_of_prepares hprep, (enter_returned hr).2.2, if_pos rfl]
    exact takeResponse_ok.mpr hresp

/-- Whatever the guest does in a call, what it handed out is given back once and in order, the call succeeds exactly if
all parts of it do, and a code other than zero is told. A request that is too long is refused before anything is done. -/
theorem call_accounted (p : Plugin σ) (entry : Entry σ) (request : Request) (s : Session σ) :
    p.Settles entry (Calling request.encode) s (p.call entry request s).2 ∧
    (∀ response, (p.call entry request s).1 = .ok response ↔
      ∃ slot st, p.Calls entry request.encode s.state slot (some 0) st ∧ p.Responds slot st response) ∧
    (∀ slot code st, code ≠ 0 → p.Calls entry request.encode s.state slot (some code) st →
      ∃ message, (p.call entry request s).1 = .error (.failed code message) ∧
        (∀ response, p.Responds slot st response → message = sanitize response.error) ∧
        ((∀ response, ¬ p.Responds slot st response) → message = [])) ∧
    (maxMessage < request.encode.length →
      p.call entry request s = (.error (.requestTooLarge (request.encode.length - headerSize)), s)) :=
  ⟨settles_call request s, fun _ => call_ok, fun _ _ _ hcode h => call_failed hcode h, fun hlarge => if_pos hlarge⟩

/-- A guest that counts its calls, hands out every eighth address, fails with a message and traps when it is to take
something back. -/
def failing : Plugin Nat where
  name := "demo"
  path := "sbc-gen-demo.wasm"
  memory := some
    { read? := fun ptr size _ =>
        some (if ptr = 16 then Bytes.ofNat 4 24 else (Response.encode { error := "no room\n" }).take size)
      write? := fun _ _ count => some count }
  allocate := fun _ count => ⟨count + 1, [], some (8 * UInt32.ofNat (count + 1))⟩
  deallocate := some fun _ count => ⟨count + 1, [], none⟩
  reserved := fun _ _ count => ⟨count + 1, [], some 0⟩
  generate := fun _ _ count => ⟨count + 1, [], some 3⟩

theorem call_accounted_failing :
    failing.Calls failing.generate (Request.encode {}) 0 16 (some 3) 3 ∧
      failing.Responds 16 3 { error := "no room\n" } ∧
      (failing.call failing.generate {} ⟨0, [], none⟩).1 = .error (.failed 3 "no room") := by
  have hcalls : failing.Calls failing.generate (Request.encode {}) 0 16 (some 3) 3 :=
    ⟨by decide +kernel, 8, by decide, by decide, .cons (.allocate rfl rfl) (.cons (.write rfl) (.cons (.allocate rfl rfl)
      (.cons (.write rfl) (.cons (.enter rfl rfl) .nil))))⟩
  have hresp : failing.Responds 16 3 { error := "no room\n" } :=
    ⟨24, Response.encode { error := "no room\n" }, by decide +kernel, by decide +kernel, by decide +kernel⟩
  obtain ⟨message, hfailed, hmessage, -⟩ :=
    (call_accounted failing failing.generate {} ⟨0, [], none⟩).2.2.1 16 3 3 (by decide) hcalls
  refine ⟨hcalls, hresp, ?_⟩
  rw [hfailed, hmessage _ hresp]
  decide +kernel

example : (failing.call failing.generate {} ⟨0, [], none⟩).2.calls =
    [.allocated (Request.encode {}).length (some 8), .allocated 4 (some 16), .entered (some 3), .freed 24, .freed 16,
      .freed 8] := by decide +kernel

end Flatwire.Plugin
