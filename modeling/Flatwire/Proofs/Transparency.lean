import Flatwire.Plugin.Host
import Flatwire.Proofs.Buffers
import Flatwire.Proofs.Messages

/-! A plugin sees the schema that the host has. Over a memory that behaves, the host's request reaches the guest's
generator as it was, and the generator's response reaches the host; so the page that comes back is the page of the
schema itself. -/

namespace Flatwire

/-! ### Texts of messages -/

namespace Utf8

theorem valid_append {a b : Bytes} (ha : valid a = true) (hb : valid b = true) : valid (a ++ b) = true := by
  obtain ⟨cs, rfl⟩ := chars_of_valid ha
  obtain ⟨ds, rfl⟩ := chars_of_valid hb
  rw [← List.flatMap_append]
  exact valid_of_chars (cs ++ ds)

theorem valid_flatMap {α : Type} {xs : List α} {f : α → Bytes} (h : ∀ x ∈ xs, valid (f x) = true) :
    valid (xs.flatMap f) = true := by
  induction xs with
  | nil => rfl
  | cons x xs ih =>
    rw [List.flatMap_cons]
    exact valid_append (h x List.mem_cons_self) (ih fun y hy => h y (List.mem_cons_of_mem x hy))

theorem valid_join {sep : Bytes} {bs : List Bytes} (hsep : valid sep = true) (h : ∀ b ∈ bs, valid b = true) :
    valid (Bytes.join sep bs) = true := by
  fun_induction Bytes.join sep bs with
  | case1 => rfl
  | case2 b => exact h b List.mem_cons_self
  | case3 b bs _ ih =>
    have hfront := valid_append (h b List.mem_cons_self) hsep
    exact valid_append hfront (ih fun c hc => h c (List.mem_cons_of_mem b hc))

end Utf8

namespace Text

open Utf8 SchemaJson

theorem radix_ascii (n : Nat) : ∀ b ∈ Bytes.radix 16 n, b.toNat < 0x80 := by
  have hdigit : ∀ d, d < 16 → (Bytes.digit d).toNat < 0x80 := by
    have hall : ∀ d : Fin 16, (Bytes.digit d).toNat < 0x80 := by decide
    exact fun d hd => hall ⟨d, hd⟩
  induction n using Nat.strongRecOn with
  | ind n ih =>
    by_cases hn : n < 16
    · rw [Bytes.radix_of_lt hn]
      simpa using hdigit n hn
    · rw [Bytes.radix_of_le (by decide) (Nat.le_of_not_lt hn), List.forall_mem_append]
      refine ⟨ih (n / 16) (by omega), ?_⟩
      simpa using hdigit (n % 16) (by omega)

theorem valid_hexPad (n v : Nat) : valid (hexPad n v) = true := by
  refine valid_of_ascii fun b hb => ?_
  rcases List.mem_append.1 hb with hb | hb
  · rw [(List.mem_replicate.1 hb).2]
    decide
  · exact radix_ascii v b hb

theorem valid_quoteByte (b : UInt8) : valid (quoteByte b) = true := valid_append (valid_ofString _) (valid_hexPad _ _)

theorem valid_quoteChar (c : Char) : valid (quoteChar c) = true := by
  unfold quoteChar
  split_ifs
  · exact valid_ofString _
  · exact valid_ofString _
  · exact valid_ofString _
  · split
    case h_8 =>
      split_ifs
      · exact valid_quoteByte _
      · exact valid_append (valid_ofString _) (valid_hexPad _ _)
      · exact valid_append (valid_ofString _) (valid_hexPad _ _)
    all_goals exact valid_ofString _

theorem valid_quote (bs : Bytes) : valid (quote bs) = true := by
  refine valid_append (valid_append (valid_ofString _) (valid_flatMap fun u _ => ?_)) (valid_ofString _)
  cases u with
  | char c => exact valid_quoteChar c
  | bad b => exact valid_quoteByte b

theorem valid_quoteList (bss : List Bytes) : valid (quoteList bss) = true :=
  valid_append (valid_append (valid_ofString _) (valid_join (valid_ofString _) (List.forall_mem_map.2 fun bs _ =>
    valid_quote bs))) (valid_ofString _)

end Text

/-! ### The answers of the generator -/

namespace Docs

open Plugin SchemaJson

variable {r : Request} {s : Schema} {params : Params}

theorem readRequest_encode (h : r.Portable) (hlen : r.encode.length < 2 ^ 32) : readRequest r.encode = .ok r := by
  have hheader : Bytes.toNat (r.encode.take headerSize) = r.encode.length := header_frame hlen
  rw [readRequest, hheader, List.take_length, (h.exact hlen).read]
  rfl

/-- The page of a schema, as a file. -/
def pageFile (s : Schema) (params : Params) : ResponseFile := ⟨some [pageName params.fileName], some (page s)⟩

theorem generate_page (h : Request.Portable ⟨some s, params⟩) (hlen : (Request.encode ⟨some s, params⟩).length < 2 ^ 32)
    (hargs : params.args.getD [] = []) :
    generate (Request.encode ⟨some s, params⟩) = .ok { files := some [pageFile s params] } := by
  rw [generate, readRequest_encode h hlen]
  simp only [hargs]
  rfl

theorem generate_arguments (h : Request.Portable ⟨some s, params⟩)
    (hlen : (Request.encode ⟨some s, params⟩).length < 2 ^ 32) (hargs : params.args.getD [] ≠ []) :
    generate (Request.encode ⟨some s, params⟩) = .error (.arguments (params.args.getD [])) := by
  rw [generate, readRequest_encode h hlen]
  cases hlist : params.args.getD [] with
  | nil => exact absurd hlist hargs
  | cons a as => simp only [hlist]

theorem valid_pageName {fileName : Bytes} (h : Utf8.valid fileName = true) : Utf8.valid (pageName fileName) = true := by
  unfold pageName
  dsimp only
  split_ifs
  · exact Utf8.valid_append (valid_ofString _) (valid_ofString _)
  · exact Utf8.valid_append h (valid_ofString _)

theorem valid_pageResponse (h : params.Valid) : Response.Valid { files := some [pageFile s params] } where
  error := rfl
  paths := by
    intro files hfiles f hf ts hts t ht
    cases hfiles
    obtain rfl := List.mem_singleton.1 hf
    cases hts
    obtain rfl := List.mem_singleton.1 ht
    exact valid_pageName h.fileName
  reserved := by simp [ValidTexts]

theorem valid_argumentsText (args : List Bytes) : Utf8.valid (Failure.arguments args).text = true :=
  Utf8.valid_append (Utf8.valid_append (valid_ofString _) (valid_ofString _)) (Text.valid_quoteList args)

/-- The plugin that the host makes of the guest. -/
def plugin {σ : Type} (h : Heap σ) (path : Bytes) : Plugin σ where
  name := generatorName
  path := path
  memory := some h.memory
  allocate := runAllocate h
  deallocate := some (runDeallocate h)
  reserved := runEntry h reserved
  generate := runEntry h generate

theorem ofGuest_guestOn {σ : Type} (h : Heap σ) (path : Bytes) :
    Plugin.ofGuest generatorName path (guestOn h) = .ok (plugin h path) := by
  have hother : generateExport generatorName ≠ reservedExport generatorName := by decide
  simp only [Plugin.ofGuest, guestOn, if_true, if_neg hother]
  rfl

end Docs

/-! ### Calls over a memory that behaves -/

namespace Plugin

open Docs

theorem Session.step_of_silent {σ α : Type} {s : Session σ} {f : σ → Reply σ α} {st : σ} {x : Option α}
    (h : f s.state = ⟨st, [], x⟩) : s.step f = (x, { s with state := st }) := by
  simp only [Session.step, h]
  rfl

theorem messageLength_take (m : Bytes) : messageLength (m.take headerSize) = messageLength m := by
  by_cases hshort : m.length < headerSize
  · rw [List.take_of_length_le (Nat.le_of_lt hshort)]
  · have hlen : (m.take headerSize).length = headerSize := by
      rw [List.length_take]
      exact Nat.min_eq_left (Nat.le_of_not_lt hshort)
    simp only [messageLength, hlen, List.take_take, Nat.min_self, if_neg hshort, Nat.lt_irrefl, if_false]

section Calls

variable {σ α : Type} {h : Heap σ} (w : h.WellBehaved) {path : Bytes} {s : Session σ} {bs : List (UInt32 × Bytes)}
  {ns : List Nat} {n : Nat} {ptr slot addr : UInt32} {c d message : Bytes} {e : HostError} {r : Response}

theorem exists_alloc (path : Bytes) (hown : w.Owns bs (n :: ns) s.state) (hpos : 0 < n) (hmax : n ≤ maxBuffer) :
    ∃ ptr c s', (plugin h path).alloc n s = (.ok ptr, s') ∧ c.length = n ∧ w.Owns ((ptr, c) :: bs) ns s'.state := by
  obtain ⟨ptr, c, st, halloc, hlen, hown'⟩ := w.allocate hown hpos hmax
  have hptr : ptr ≠ 0 := (w.inside hown' List.mem_cons_self).1
  have hsize : (UInt32.ofNat n).toNat = n := UInt32.toNat_ofNat_of_lt' (Nat.lt_of_le_of_lt hmax (by decide))
  have hrun : (plugin h path).allocate (UInt32.ofNat n) s.state = ⟨st, [], some ptr⟩ := by
    change runAllocate h (UInt32.ofNat n) s.state = _
    rw [runAllocate, hsize, halloc]
  refine ⟨ptr, c, ({ s with state := st } : Session σ).record (.allocated n (some ptr)), ?_, hlen, hown'⟩
  simp only [alloc, Session.step_of_silent hrun, if_neg hptr]

theorem exists_store (path : Bytes) (e : HostError) (hown : w.Owns ((ptr, c) :: bs) ns s.state)
    (hd : d.length = c.length) :
    ∃ s', (plugin h path).store ptr d e s = .ok s' ∧ w.Owns ((ptr, d) :: bs) ns s'.state := by
  obtain ⟨hwrite, hown'⟩ := w.write hown hd
  refine ⟨{ s with state := h.write ptr d s.state }, ?_, hown'⟩
  simp only [store, plugin, hwrite]

theorem fetch_eq (hown : w.Owns bs ns s.state) (hmem : (ptr, c) ∈ bs) (hn : n ≤ c.length) :
    (plugin h path).fetch ptr n e s = .ok (c.take n) := by
  simp only [fetch, plugin, (w.read hown hmem hn).2]

theorem withBuffer_fst {p : Plugin σ} {s' : Session σ} {use : UInt32 → Session σ → Except HostError α × Session σ}
    (halloc : p.alloc n s = (.ok ptr, s')) : (p.withBuffer n use s).1 = (use ptr s').1 := by
  rw [withBuffer, halloc]

theorem responseAt_eq (hown : w.Owns bs ns s.state) (hmem : (ptr, message) ∈ bs)
    (hexact : Exact Response.decode message r) : (plugin h path).responseAt ptr s = .ok r := by
  have hlong : headerSize ≤ message.length := by
    by_contra hshort
    have hlength := hexact.length
    rw [messageLength, if_pos (Nat.lt_of_not_le hshort)] at hlength
    cases hlength
  rw [responseAt, fetch_eq w hown hmem hlong, ok_bind, messageLength_take, hexact.length]
  simp only [Except.mapError, ok_bind, fetch_eq w hown hmem (Nat.le_refl _), List.take_length, hexact.read]

theorem takeResponse_fst (hown : w.Owns bs ns s.state) (hslot : (slot, Bytes.ofNat 4 addr.toNat) ∈ bs)
    (hmem : (addr, message) ∈ bs) (hexact : Exact Response.decode message r) :
    ((plugin h path).takeResponse slot s).1 = .ok r := by
  have haddr : UInt32.ofNat (Bytes.toNat (Bytes.ofNat 4 addr.toNat)) = addr := by
    rw [Bytes.toNat_ofNat, Nat.mod_eq_of_lt addr.toNat_lt, UInt32.ofNat_toNat]
  have hread : (plugin h path).fetch slot 4 .noAddress s = .ok (Bytes.ofNat 4 addr.toNat) := by
    rw [fetch_eq w hown hslot (by simp), List.take_of_length_le (by simp)]
  simp only [takeResponse, hread, haddr, if_neg (w.inside hown hmem).1]
  exact responseAt_eq w hown hmem hexact

variable {request : Request} {answer : Bytes → Except Failure Response} {code : UInt32}

theorem exists_runEntry {st : σ} (hown : w.Owns [(slot, c), (ptr, request.encode)] [message.length] st)
    (hc : c.length = 4) (hsmall : request.encode.length < 2 ^ 32)
    (hreply : reply (answer request.encode) = (code, message)) (hne : message ≠ []) :
    ∃ addr st', runEntry h answer ptr slot st = ⟨st', [], some code⟩ ∧
      w.Owns [(slot, Bytes.ofNat 4 addr.toNat), (addr, message), (ptr, request.encode)] [] st' := by
  have hlong : headerSize ≤ request.encode.length := headerSize_le_frame _
  have hheader : Bytes.toNat (h.read ptr headerSize st) = request.encode.length := by
    rw [(w.read hown (by simp) hlong).1]
    exact header_frame hsmall
  have hread : h.read ptr (max request.encode.length headerSize) st = request.encode := by
    rw [Nat.max_eq_left hlong, (w.read hown (by simp) (Nat.le_refl _)).1, List.take_length]
  obtain ⟨addr, st₁, hkeep, hown₁⟩ := w.keep hown hne
  have hslot : (Bytes.ofNat 4 addr.toNat).length = c.length := by rw [Bytes.length_ofNat, hc]
  refine ⟨addr, h.write slot (Bytes.ofNat 4 addr.toNat) st₁, ?_, (w.write (w.perm hown₁ (.swap _ _ _)) hslot).2⟩
  simp only [runEntry, hheader, hread, hreply, hkeep]

/-- What the host makes of a code and a response. -/
def outcome (code : UInt32) (r : Response) : Except HostError Response :=
  if code = 0 then .ok r else .error (.failed code (sanitize r.error))

theorem enter_fst (hown : w.Owns [(slot, c), (ptr, request.encode)] [message.length] s.state) (hc : c.length = 4)
    (hsmall : request.encode.length < 2 ^ 32) (hreply : reply (answer request.encode) = (code, message))
    (hne : message ≠ []) (hexact : message.length < 2 ^ 32 → Exact Response.decode message r) :
    ((plugin h path).enter (runEntry h answer) ptr slot s).1 = outcome code r := by
  obtain ⟨addr, st, hrun, hown'⟩ := exists_runEntry w hown hc hsmall hreply hne
  have hmem : (addr, message) ∈ [(slot, Bytes.ofNat 4 addr.toNat), (addr, message), (ptr, request.encode)] := by simp
  have hlen : message.length < 2 ^ 32 := by
    obtain ⟨haddr, hend⟩ := w.inside hown' hmem
    have hpos : addr.toNat ≠ 0 := fun hzero => haddr (UInt32.toNat_inj.1 hzero)
    simp only [memorySize] at hend
    omega
  have htaken : ((plugin h path).takeResponse slot
      (({ s with state := st } : Session σ).record (.entered (some code)))).1 = .ok r :=
    takeResponse_fst w hown' List.mem_cons_self hmem (hexact hlen)
  simp only [enter, Session.step_of_silent hrun]
  generalize (plugin h path).takeResponse slot _ = taken at htaken
  obtain ⟨result, s'⟩ := taken
  cases htaken
  unfold outcome
  split_ifs <;> rfl

theorem call_fst (hown : w.Owns [] [request.encode.length, 4, message.length] s.state)
    (hsize : request.encode.length ≤ maxBuffer) (hreply : reply (answer request.encode) = (code, message))
    (hne : message ≠ []) (hexact : message.length < 2 ^ 32 → Exact Response.decode message r) :
    ((plugin h path).call (runEntry h answer) request s).1 = outcome code r := by
  have hpos : 0 < request.encode.length := Nat.lt_of_lt_of_le (by decide) (headerSize_le_frame _)
  obtain ⟨ptr, c, s₁, halloc, hc, hown₁⟩ := exists_alloc w path hown hpos hsize
  obtain ⟨s₂, hstore, hown₂⟩ := exists_store w path (.requestOutOfRange ptr) hown₁ hc.symm
  obtain ⟨slot, z, s₃, halloc', hz, hown₃⟩ := exists_alloc w path hown₂ (by decide) (by decide)
  have hzero : (Bytes.ofNat 4 0).length = z.length := by rw [Bytes.length_ofNat, hz]
  obtain ⟨s₄, hstore', hown₄⟩ := exists_store w path (.slotOutOfRange slot) hown₃ hzero
  rw [call, if_neg (Nat.not_lt.2 (Nat.le_trans hsize (by decide))), send, withBuffer_fst halloc]
  simp only [hstore]
  rw [withBuffer_fst halloc']
  simp only [hstore']
  exact enter_fst w hown₄ (Bytes.length_ofNat _ _) (Nat.lt_of_le_of_lt hsize (by decide)) hreply hne hexact

end Calls

theorem generateFiles_fst {σ : Type} {p : Plugin σ} {schema : Option Schema} {params : Params} {s : Session σ}
    (hkept : s.kept = none) : (p.generateFiles schema params s).1 =
      (p.call p.generate ⟨schema, params⟩ s).1.map fun response => response.files.getD [] := by
  simp only [generateFiles, hkept]
  generalize p.call p.generate ⟨schema, params⟩ s = called
  obtain ⟨result, s'⟩ := called
  cases result <;> rfl

end Plugin

/-! ### The page -/

namespace Docs

open Plugin

/-- The sizes of the buffers that a run needs: for the request, for an address, and for the response. -/
def needs (r : Request) : List Nat := [r.encode.length, 4, (reply (generate r.encode)).2.length]

theorem encode_ne_nil (r : Response) : r.encode ≠ [] :=
  List.ne_nil_of_length_pos (Nat.lt_of_lt_of_le (by decide) (headerSize_le_frame _))

/-- Whatever memory and allocator the plugin runs on, as long as they behave and have room, the host gets the page of
the schema as if it had made it itself, and an error if there are arguments. -/
theorem plugin_transparent {σ : Type} {h : Heap σ} (w : h.WellBehaved) (path : Bytes) (session : Session σ) {s : Schema}
    {params : Params} (hs : IsCompiled s) (hparams : params.Valid) (hkept : session.kept = none)
    (hsize : (Request.encode ⟨some s, params⟩).length ≤ maxBuffer)
    (hroom : w.Owns [] (needs ⟨some s, params⟩) session.state) :
    ∃ p, Plugin.ofGuest generatorName path (guestOn h) = .ok p ∧
      (p.generateFiles (some s) params session).1 =
        if params.args.getD [] = [] then .ok [⟨some [pageName params.fileName], some (page s)⟩]
        else .error (.failed 1 (sanitize (Failure.arguments (params.args.getD [])).text)) := by
  refine ⟨plugin h path, ofGuest_guestOn h path, ?_⟩
  have hportable : Request.Portable ⟨some s, params⟩ := ⟨fun s' hs' => by cases hs'; exact hs.portable, hparams⟩
  have hsmall : (Request.encode ⟨some s, params⟩).length < 2 ^ 32 := Nat.lt_of_le_of_lt hsize (by decide)
  have hcall : ∀ {code : UInt32} {r : Response}, r.Valid →
      reply (generate (Request.encode ⟨some s, params⟩)) = (code, r.encode) →
      ((plugin h path).call (runEntry h generate) ⟨some s, params⟩ session).1 = Plugin.outcome code r.pruned := by
    intro code r hr hreply
    rw [needs, hreply] at hroom
    exact Plugin.call_fst w hroom hsize hreply (encode_ne_nil r) hr.exact
  rw [Plugin.generateFiles_fst hkept]
  change (((plugin h path).call (runEntry h generate) ⟨some s, params⟩ session).1.map fun response =>
    response.files.getD []) = _
  split_ifs with hargs
  · have hreply : reply (generate (Request.encode ⟨some s, params⟩)) =
        (0, Response.encode { files := some [pageFile s params] }) := by
      rw [generate_page hportable hsmall hargs]
      rfl
    rw [hcall (valid_pageResponse hparams) hreply]
    rfl
  · have hreply : reply (generate (Request.encode ⟨some s, params⟩)) =
        (1, Response.encode { error := (Failure.arguments (params.args.getD [])).text }) := by
      rw [generate_arguments hportable hsmall hargs]
      rfl
    rw [hcall ⟨valid_argumentsText _, by simp, by simp [ValidTexts]⟩ hreply]
    rfl

theorem owns_start {r : Request} (h : 1024 + (needs r).sum ≤ memorySize) : heap_wellBehaved.Owns [] (needs r) {} :=
  ⟨by decide, h, .nil, by simp⟩

theorem plugin_transparent_sample :
    let src := Bytes.ofString "enum E\x7bx=300;\x7dsequence A\x7be:[E];u:oneof\x7ba:A;\x7d;\x7d"
    let plain : Params := ⟨"a", "out", none⟩
    let odd : Params := ⟨[], [], some ["-x", "é"]⟩
    ∃ tree s p, SchemaTree.parse src = .ok tree ∧ (compile tree "é").schema = some s ∧
      Plugin.ofGuest generatorName "docs.wasm" guest = .ok p ∧
      (p.generateFiles (some s) plain ⟨{}, [], none⟩).1 = .ok [⟨some ["a.md"], some (page s)⟩] ∧
      ∃ message, (p.generateFiles (some s) odd ⟨{}, [], none⟩).1 = .error (.failed 1 message) := by
  intro src plain odd
  have hplain : plain.Valid := ⟨by decide +kernel, by decide +kernel, by simp [ValidTexts, plain]⟩
  have hodd : odd.Valid := ⟨by decide +kernel, by decide +kernel, by unfold ValidTexts; decide +kernel⟩
  have hname : Utf8.valid "é" = true := by decide +kernel
  obtain ⟨tree, htree, hsome⟩ : ∃ tree, SchemaTree.parse src = .ok tree ∧
      (compile tree "é").schema.any (fun s => [plain, odd].all fun params =>
        (Request.encode ⟨some s, params⟩).length ≤ maxBuffer &&
          1024 + (needs ⟨some s, params⟩).sum ≤ memorySize) = true :=
    SchemaTree.exists_parse (by decide +kernel)
  obtain ⟨s, hs, hfits⟩ := (Option.any_eq_true _ _).1 hsome
  simp only [List.all_cons, List.all_nil, Bool.and_true, Bool.and_eq_true, decide_eq_true_eq] at hfits
  obtain ⟨⟨hsize, hneeds⟩, hsize', hneeds'⟩ := hfits
  have hcompiled : IsCompiled s := ⟨src, true, tree, _, htree, hs, hname⟩
  obtain ⟨p, hp, hpage⟩ := plugin_transparent heap_wellBehaved "docs.wasm" ⟨{}, [], none⟩ hcompiled hplain rfl
    hsize (owns_start hneeds)
  obtain ⟨p', hp', herror⟩ := plugin_transparent heap_wellBehaved "docs.wasm" ⟨{}, [], none⟩ hcompiled hodd rfl
    hsize' (owns_start hneeds')
  cases hp.symm.trans hp'
  exact ⟨tree, s, p, htree, hs, hp, hpage, _, herror⟩

end Docs

end Flatwire
