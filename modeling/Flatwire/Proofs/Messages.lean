import Flatwire.Plugin.Message
import Flatwire.Proofs.Portability
import Flatwire.Proofs.Rendering

/-! Messages are read back as they were written, and their header tells exactly where they end: neither a part of a
message nor a message with something behind it can be read. -/

namespace Flatwire

/-! ### File contents -/

namespace Base64

theorem value?_digit {v : Nat} (h : v < 64) : value? (digit v) = some v := by
  have hall : ∀ v : Fin 64, value? (digit v) = some v.val := by decide
  exact hall ⟨v, h⟩

theorem digit_spec {v : Nat} (h : v < 64) :
    digit v ≠ pad ∧ digit v ≠ 0x0A ∧ digit v ≠ 0x0D ∧ (digit v).toNat < 0x80 := by
  have hall : ∀ v : Fin 64, digit v ≠ pad ∧ digit v ≠ 0x0A ∧ digit v ≠ 0x0D ∧ (digit v).toNat < 0x80 := by decide
  exact hall ⟨v, h⟩

theorem decodeGroups_encode (bs : Bytes) : decodeGroups (encode bs) = some bs := by
  fun_induction encode bs with
  | case1 => rfl
  | case2 a =>
    have ha := a.toNat_lt
    rw [pad, decodeGroups, value?_digit (by omega), value?_digit (by omega)]
    simp only [Option.bind_eq_bind, Option.bind_some, Option.pure_def, Option.some.injEq, List.cons.injEq, and_true]
    exact Utf8.ofNat_eq_byte (by omega)
  | case3 a b =>
    have ha := a.toNat_lt
    have hb := b.toNat_lt
    rw [pad, decodeGroups, value?_digit (by omega), value?_digit (by omega), value?_digit (by omega)]
    · simp only [Option.bind_eq_bind, Option.bind_some, Option.pure_def, Option.some.injEq, List.cons.injEq, and_true]
      exact ⟨Utf8.ofNat_eq_byte (by omega), Utf8.ofNat_eq_byte (by omega)⟩
    · exact fun h => (digit_spec (by omega)).1 h
  | case4 a b c r ih =>
    have ha := a.toNat_lt
    have hb := b.toNat_lt
    have hc := c.toNat_lt
    have hpad : digit (c.toNat % 64) ≠ pad := (digit_spec (by omega)).1
    rw [decodeGroups, value?_digit (by omega), value?_digit (by omega), value?_digit (by omega),
      value?_digit (by omega), ih]
    · simp only [Option.bind_eq_bind, Option.bind_some, Option.pure_def, Option.some.injEq, List.cons.injEq, and_true]
      exact ⟨Utf8.ofNat_eq_byte (by omega), Utf8.ofNat_eq_byte (by omega), Utf8.ofNat_eq_byte (by omega)⟩
    · exact fun _ h _ => hpad h
    · exact fun h _ => hpad h

theorem encode_spec (bs : Bytes) : ∀ c ∈ encode bs, c ≠ 0x0A ∧ c ≠ 0x0D ∧ c.toNat < 0x80 := by
  have hdigit : ∀ v, v < 64 → digit v ≠ 0x0A ∧ digit v ≠ 0x0D ∧ (digit v).toNat < 0x80 := fun v hv => (digit_spec hv).2
  have hpad : pad ≠ 0x0A ∧ pad ≠ 0x0D ∧ pad.toNat < 0x80 := by decide
  fun_induction encode bs with
  | case1 => simp
  | case2 a =>
    have ha := a.toNat_lt
    simp only [List.forall_mem_cons]
    exact ⟨hdigit _ (by omega), hdigit _ (by omega), hpad, hpad, by simp⟩
  | case3 a b =>
    have ha := a.toNat_lt
    have hb := b.toNat_lt
    simp only [List.forall_mem_cons]
    exact ⟨hdigit _ (by omega), hdigit _ (by omega), hdigit _ (by omega), hpad, by simp⟩
  | case4 a b c r ih =>
    have ha := a.toNat_lt
    have hb := b.toNat_lt
    have hc := c.toNat_lt
    simp only [List.forall_mem_cons]
    exact ⟨hdigit _ (by omega), hdigit _ (by omega), hdigit _ (by omega), hdigit _ (by omega), ih⟩

theorem decode?_encode (bs : Bytes) : decode? (encode bs) = some bs := by
  have hkeep : (encode bs).filter (fun c => c != 0x0A && c != 0x0D) = encode bs := by
    refine List.filter_eq_self.2 fun c hc => ?_
    obtain ⟨hlf, hcr, -⟩ := encode_spec bs c hc
    simp [hlf, hcr]
  rw [decode?, hkeep, decodeGroups_encode]

theorem valid_encode (bs : Bytes) : Utf8.valid (encode bs) = true :=
  Utf8.valid_of_ascii fun c hc => (encode_spec bs c hc).2.2

end Base64

theorem Schema.Portable.ofJson_toJson {s : Schema} (h : s.Portable) : Schema.ofJson s.toJson = .ok s := by
  have hread := h.parseJson_printJson
  rw [Schema.parseJson, Schema.printJson, Json.parse?_print h.plain (by decide)] at hread
  exact hread

namespace Plugin

open Json SchemaJson

variable {d : Nat} {r : Request}

/-! ### Framing -/

section Framing

variable {body message : Bytes}

theorem length_frame (body : Bytes) : (frame body).length = headerSize + body.length := by
  rw [frame, List.length_append, Bytes.length_ofNat]

theorem headerSize_le_frame (body : Bytes) : headerSize ≤ (frame body).length := by
  rw [length_frame]
  exact Nat.le_add_right _ _

theorem header_frame (h : (frame body).length < 2 ^ 32) :
    Bytes.toNat ((frame body).take headerSize) = (frame body).length := by
  have htake : (frame body).take headerSize = Bytes.ofNat headerSize (headerSize + body.length) := by
    rw [frame, List.take_left' (Bytes.length_ofNat _ _)]
  rw [length_frame] at h ⊢
  rw [htake, Bytes.toNat_ofNat]
  exact Nat.mod_eq_of_lt h

theorem messageLength_eq (hlong : headerSize ≤ message.length)
    (hheader : message.take headerSize = (frame body).take headerSize) (h : (frame body).length < 2 ^ 32) :
    messageLength message = .ok (frame body).length := by
  unfold messageLength
  rw [if_neg (Nat.not_lt_of_le hlong), hheader, header_frame h]
  exact if_neg (Nat.not_lt_of_le (headerSize_le_frame body))

theorem messageLength_frame (h : (frame body).length < 2 ^ 32) : messageLength (frame body) = .ok (frame body).length :=
  messageLength_eq (headerSize_le_frame body) rfl h

theorem unframe_frame (h : (frame body).length < 2 ^ 32) : unframe (frame body) = .ok body := by
  have hdrop : (frame body).drop headerSize = body := by rw [frame, List.drop_left' (Bytes.length_ofNat _ _)]
  rw [unframe, messageLength_frame h]
  dsimp only
  rw [if_pos rfl, hdrop]

theorem exists_unframe_eq_error (h : (frame body).length < 2 ^ 32)
    (hends : message <+: frame body ∨ frame body <+: message) (hne : message ≠ frame body) :
    ∃ e, unframe message = .error e := by
  have hlength : message.length ≠ (frame body).length := by
    intro heq
    rcases hends with hle | hle
    · exact hne (hle.eq_of_length heq)
    · exact hne (hle.eq_of_length heq.symm).symm
  unfold unframe
  by_cases hshort : message.length < headerSize
  · exact ⟨.truncated, by rw [messageLength, if_pos hshort]⟩
  · have hheader : message.take headerSize = (frame body).take headerSize := by
      rcases hends with ⟨rest, hrest⟩ | ⟨rest, rfl⟩
      · rw [← hrest, List.take_append_of_le_length (Nat.le_of_not_lt hshort)]
      · rw [List.take_append_of_le_length (headerSize_le_frame body)]
    rw [messageLength_eq (Nat.le_of_not_lt hshort) hheader h]
    exact ⟨.wrongLength _ _, if_neg hlength.symm⟩

end Framing

/-! ### Texts that can be sent -/

def ValidTexts (texts : Option (List Bytes)) : Prop := ∀ ts ∈ texts, ∀ t ∈ ts, Utf8.valid t = true

structure Params.Valid (p : Params) : Prop where
  fileName : Utf8.valid p.fileName = true
  destDir : Utf8.valid p.destDir = true
  args : ValidTexts p.args

structure Response.Valid (r : Response) : Prop where
  error : Utf8.valid r.error = true
  paths : ∀ files ∈ r.files, ∀ f ∈ files, ValidTexts f.path
  reserved : ValidTexts r.reserved

/-- The schema of a request can be written, and so can the parameters. -/
structure Request.Portable (r : Request) : Prop where
  schema : ∀ s ∈ r.schema, s.Portable
  params : r.params.Valid

/-! ### Documents -/

theorem plain_texts {ts : List Bytes} (h : ∀ t ∈ ts, Utf8.valid t = true) : Plain (d + 1) (texts ts) :=
  plain_map fun t ht => .str (h t ht)

theorem plain_optionalTexts {o : Option (List Bytes)} (h : ValidTexts o) : Plain (d + 1) (optionalTexts o) := by
  cases o with
  | none => exact .null
  | some ts => exact plain_texts (h ts rfl)

theorem Params.Valid.plain {p : Params} (h : p.Valid) : Plain (d + 2) p.toJson :=
  (((members_member _ (.str h.fileName)).append (members_member _ (.str h.destDir))).append
    (members_member _ (plain_optionalTexts h.args))).plain

theorem Request.Portable.plain (h : r.Portable) : Plain 6 r.toJson := by
  refine Members.plain (Members.append ?_ (members_member _ h.params.plain))
  cases hs : r.schema with
  | none => simp [Members]
  | some s => exact members_member _ (h.schema s hs).plain

theorem plain_contentJson (o : Option Bytes) : Plain d (contentJson o) := by
  cases o with
  | none => exact .null
  | some bs => exact .str (Base64.valid_encode bs)

theorem Response.Valid.plain {r : Response} (h : r.Valid) : Plain 4 r.toJson := by
  refine Members.plain (((members_unless _ (.str h.error)).append (members_unless _ ?_)).append (members_unless _ ?_))
  · refine plain_map fun f hf => ?_
    have hpath : ValidTexts f.path := by
      cases hfiles : r.files with
      | none => simp [hfiles] at hf
      | some files => exact h.paths files hfiles f (by simpa [hfiles] using hf)
    exact ((members_member _ (plain_optionalTexts hpath)).append (members_member _ (plain_contentJson _))).plain
  · cases hreserved : r.reserved with
    | none => exact plain_texts (by simp)
    | some ts => exact plain_texts (h.reserved ts hreserved)

theorem readTexts_optionalTexts (o : Option (List Bytes)) : readTexts {} (optionalTexts o) = .ok ⟨o, []⟩ := by
  cases o with
  | none => rfl
  | some ts =>
    have hread : readList [] readText {} (.arr (ts.map .str)) = .ok ⟨some (ts.map id), []⟩ :=
      readList_map fun _ _ => rfl
    rw [List.map_id] at hread
    exact hread

theorem readParams_toJson (p : Params) : readParams {} p.toJson = .ok ⟨p.fileName, p.destDir, ⟨p.args, []⟩⟩ := by
  rw [readParams, Params.toJson, readRecord, List.append_assoc, ← List.append_nil (member "args" _)]
  refine Eq.trans (readMembers_member rfl rfl) ?_
  refine Eq.trans (readMembers_member rfl rfl) ?_
  refine Eq.trans (readMembers_member rfl (readTexts_optionalTexts p.args)) ?_
  rfl

section Slots

variable {α ε : Type} {slots : List (Slot α ε)} {key : String} {old new : α} {j : Json} {ms : List (Bytes × Json)}

theorem readMembers_read {slot : Slot α ε}
    (hfind : (slots.find? fun slot => foldKey slot.key = foldKey key) = some slot) (hread : slot.read old j = .ok new) :
    readMembers slots old (member key j ++ ms) = readMembers slots new ms := by
  rw [member, List.singleton_append, readMembers, hfind]
  simp only [hread]

theorem readMembers_skip (hfind : (slots.find? fun slot => foldKey slot.key = foldKey key) = none) :
    readMembers slots old (member key j ++ ms) = readMembers slots old ms := by
  rw [member, List.singleton_append, readMembers, hfind]

end Slots

theorem Request.Portable.ofJson_toJson (h : r.Portable) : Request.ofJson r.toJson = .ok r := by
  obtain ⟨schema, params⟩ := r
  have hparams := readParams_toJson params
  rw [Request.toJson, ← List.append_nil (member "params" _)]
  cases schema with
  | none =>
    have hnone : readMembers [schemaSlot] none ([] ++ (member "params" params.toJson ++ [])) = .ok none := by
      rw [List.nil_append, readMembers_skip rfl]
      rfl
    have hread : readMembers [paramsSlot] {} ([] ++ (member "params" params.toJson ++ [])) =
        .ok ⟨params.fileName, params.destDir, ⟨params.args, []⟩⟩ := by
      rw [List.nil_append, readMembers_read rfl hparams]
      rfl
    simp only [Request.ofJson, hnone, hread]
    rfl
  | some s =>
    have hs : schemaSlot.read none s.toJson = .ok (some s) :=
      congrArg (Except.map some) (h.schema s rfl).ofJson_toJson
    have hsome : readMembers [schemaSlot] none (member "schema" s.toJson ++ (member "params" params.toJson ++ [])) =
        .ok (some s) := by
      rw [readMembers_read rfl hs, readMembers_skip rfl]
      rfl
    have hread : readMembers [paramsSlot] {} (member "schema" s.toJson ++ (member "params" params.toJson ++ [])) =
        .ok ⟨params.fileName, params.destDir, ⟨params.args, []⟩⟩ := by
      rw [readMembers_skip rfl, readMembers_read rfl hparams]
      rfl
    simp only [Request.ofJson, hsome, hread]
    rfl

theorem readContent_contentJson (o : Option Bytes) : readContent {} (contentJson o) = .ok ⟨o, []⟩ := by
  cases o with
  | none => rfl
  | some bs =>
    rw [contentJson, readContent, Base64.decode?_encode]

/-- What the document of a file is read as. -/
def ResponseFile.raw (f : ResponseFile) : RawFile := ⟨⟨f.path, []⟩, ⟨f.content, []⟩⟩

theorem readFile_toJson (f : ResponseFile) : readFile {} f.toJson = .ok f.raw := by
  rw [readFile, ResponseFile.toJson, readRecord, ← List.append_nil (member "content" _)]
  refine Eq.trans (readMembers_member rfl (readTexts_optionalTexts f.path)) ?_
  refine Eq.trans (readMembers_member rfl (readContent_contentJson f.content)) ?_
  rfl

/-- The response as it is read: an empty list of files or of reserved names is not written, and reads as none. -/
def Response.pruned (r : Response) : Response :=
  { r with files := r.files.filter (!·.isEmpty), reserved := r.reserved.filter (!·.isEmpty) }

theorem itemsOf_given {α : Type} (o : Option (List α)) : (itemsOf (o.getD [])).given = o.filter (!·.isEmpty) := by
  cases o with
  | none => rfl
  | some xs => cases xs <;> rfl

theorem readFiles_toJson {files : List ResponseFile} (h : files.isEmpty = false) :
    readList {} readFile {} (.arr (files.map ResponseFile.toJson)) = .ok (itemsOf (files.map ResponseFile.raw)) := by
  rw [readList_map fun f _ => readFile_toJson f, itemsOf, List.isEmpty_map, h]
  rfl

theorem readResponse_toJson (r : Response) : readResponse {} r.toJson =
    .ok ⟨r.error, itemsOf ((r.files.getD []).map ResponseFile.raw), itemsOf (r.reserved.getD [])⟩ := by
  rw [readResponse, Response.toJson, readRecord, List.append_assoc, ← List.append_nil (memberUnless _ "reserved" _)]
  refine Eq.trans (readMembers_unless rfl (fun _ => rfl) fun hempty => ?_) ?_
  · rw [List.isEmpty_iff.1 hempty]
  refine Eq.trans (readMembers_unless rfl readFiles_toJson fun hempty => ?_) ?_
  · rw [itemsOf_of_empty (by rwa [List.isEmpty_map])]
  refine Eq.trans (readMembers_unless rfl (readList_of_nonempty fun _ _ => rfl) fun hempty => ?_) ?_
  · rw [itemsOf_of_empty hempty]
  · rfl

theorem Response.ofJson_toJson (r : Response) : Response.ofJson r.toJson = .ok r.pruned := by
  have hback : ∀ files : List ResponseFile, (files.map ResponseFile.raw).map RawFile.toFile = files := by
    intro files
    rw [List.map_map]
    exact List.map_id files
  have hfiles : (itemsOf ((r.files.getD []).map ResponseFile.raw)).given.map (·.map RawFile.toFile) =
      r.files.filter (!·.isEmpty) := by
    cases r.files with
    | none => rfl
    | some files =>
      cases files with
      | nil => rfl
      | cons f files => exact congrArg some (hback (f :: files))
  have hresponse : (⟨r.error, itemsOf ((r.files.getD []).map ResponseFile.raw), itemsOf (r.reserved.getD [])⟩ :
      RawResponse).toResponse = r.pruned := by
    rw [RawResponse.toResponse, Response.pruned, hfiles, itemsOf_given]
  rw [Response.ofJson, readResponse_toJson]
  exact congrArg Except.ok hresponse

/-! ### Whole messages -/

/-- A message is read as the given value, by its header it is as long as it is, and nothing that begins it or that it
begins can be read. -/
structure Exact {α : Type} (decode : Bytes → Except MessageError α) (message : Bytes) (x : α) : Prop where
  length : messageLength message = .ok message.length
  read : decode message = .ok x
  shorter : ∀ m, m <+: message → m ≠ message → ∃ e, decode m = .error e
  longer : ∀ m, message <+: m → m ≠ message → ∃ e, decode m = .error e

theorem exact_frame {α : Type} {decode : Bytes → Except MessageError α} {j : Json} {x : α} (hplain : Plain d j)
    (hd : d ≤ maxDepth) (hlen : (frame j.print).length < 2 ^ 32) (hok : ∀ m, unframeJson m = .ok j → decode m = .ok x)
    (herror : ∀ m e, unframeJson m = .error e → decode m = .error e) : Exact decode (frame j.print) x := by
  have hother : ∀ m, m <+: frame j.print ∨ frame j.print <+: m → m ≠ frame j.print → ∃ e, decode m = .error e := by
    intro m hends hne
    obtain ⟨e, he⟩ := exists_unframe_eq_error hlen hends hne
    exact ⟨e, herror m e (by rw [unframeJson, he])⟩
  refine ⟨messageLength_frame hlen, hok _ ?_, fun m h => hother m (.inl h), fun m h => hother m (.inr h)⟩
  rw [unframeJson, unframe_frame hlen]
  dsimp only
  rw [parse?_print hplain hd]

theorem Request.Portable.exact (h : r.Portable) (hlen : r.encode.length < 2 ^ 32) :
    Exact Request.decode r.encode r := by
  refine exact_frame h.plain (by decide) hlen (fun m hm => ?_) fun m e hm => by rw [Request.decode, hm]
  rw [Request.decode, hm]
  dsimp only
  rw [h.ofJson_toJson]
  rfl

theorem Response.Valid.exact {r : Response} (h : r.Valid) (hlen : r.encode.length < 2 ^ 32) :
    Exact Response.decode r.encode r.pruned := by
  refine exact_frame h.plain (by decide) hlen (fun m hm => ?_) fun m e hm => by rw [Response.decode, hm]
  rw [Response.decode, hm]
  dsimp only
  rw [Response.ofJson_toJson]
  rfl

/-- The schema is compiled from a source under a valid name. -/
def IsCompiled (s : Schema) : Prop :=
  ∃ src keep tree name, SchemaTree.parse src keep = .ok tree ∧ (compile tree name).schema = some s ∧
    Utf8.valid name = true

theorem IsCompiled.portable {s : Schema} (h : IsCompiled s) : s.Portable := by
  obtain ⟨src, keep, tree, name, hparse, hschema, hname⟩ := h
  exact Compile.portable_of_compile hparse hschema hname

/-- Requests, without a schema or with one that was compiled, and responses are read back as they were, up to lists
that are missing or empty; their headers tell where they end. -/
theorem messages_round_trip :
    (∀ r : Request, (∀ s ∈ r.schema, IsCompiled s) → r.params.Valid → r.encode.length < 2 ^ 32 →
      Exact Request.decode r.encode r) ∧
    ∀ r : Response, r.Valid → r.encode.length < 2 ^ 32 → Exact Response.decode r.encode r.pruned :=
  ⟨fun _ hschema hparams hlen => Request.Portable.exact ⟨fun s hs => (hschema s hs).portable, hparams⟩ hlen,
    fun _ hvalid hlen => hvalid.exact hlen⟩

/-- File contents that are no text, a file without a path, and an empty list of reserved names. -/
theorem messages_round_trip_sample :
    let src := Bytes.ofString "enum E\x7bx=300;\x7dsequence A\x7be:[E];u:oneof\x7ba:A;\x7d;\x7d"
    let params : Params := ⟨"a.sb", [], some ["é", "<&>"]⟩
    let files : List ResponseFile := [⟨some ["docs", "é.md"], some [0xFF, 0x00, 0x22, 0x80]⟩, ⟨none, some []⟩]
    let response : Response := ⟨"no\n", some files, some []⟩
    (∃ tree s, SchemaTree.parse src = .ok tree ∧ (compile tree "<é>").schema = some s ∧
      Exact Request.decode (Request.encode ⟨some s, params⟩) ⟨some s, params⟩) ∧
    Exact Response.decode response.encode { response with reserved := none } := by
  intro src params files response
  refine ⟨?_, messages_round_trip.2 response ⟨by decide +kernel, ?_, ?_⟩ (by decide +kernel)⟩
  · have hname : Utf8.valid "<é>" = true := by decide +kernel
    have hparams : params.Valid := ⟨by decide +kernel, by decide +kernel, by unfold ValidTexts; decide +kernel⟩
    obtain ⟨tree, htree, hsome⟩ : ∃ tree, SchemaTree.parse src = .ok tree ∧
        (compile tree "<é>").schema.any (fun s => (Request.encode ⟨some s, params⟩).length < 2 ^ 32) = true :=
      SchemaTree.exists_parse (by decide +kernel)
    obtain ⟨s, hs, hlen⟩ := (Option.any_eq_true _ _).1 hsome
    have hcompiled : ∀ s' ∈ some s, IsCompiled s' := by
      intro s' hs'
      cases hs'
      exact ⟨src, true, tree, _, htree, hs, hname⟩
    exact ⟨tree, s, htree, hs, messages_round_trip.1 ⟨some s, params⟩ hcompiled hparams (of_decide_eq_true hlen)⟩
  · unfold ValidTexts
    decide +kernel
  · unfold ValidTexts
    decide +kernel

end Plugin

end Flatwire
