import Mathlib.Data.List.Basic
import Flatwire.Proofs.Utf8
import Flatwire.Libraries
import Flatwire.Text.Case

/-! Plain text. A text of ASCII characters has one byte for each; what is assumed of other libraries is assumed of such
texts only. -/

namespace Flatwire

/-- The bytes of characters. -/
def Bytes.ofChars (cs : List Char) : Bytes := Bytes.ofString (String.ofList cs)

/-- The characters that bytes are read as. -/
def Bytes.chars (bs : Bytes) : List Char := (Utf8.units bs).map Utf8.Unit.toChar

namespace Utf8

variable {bs : Bytes}

theorem ofChars_eq (cs : List Char) : Bytes.ofChars cs = cs.flatMap String.utf8EncodeChar := by
  rw [Bytes.ofChars, ofString_eq, String.toList_ofList]

theorem ofChars_append (cs ds : List Char) : Bytes.ofChars (cs ++ ds) = Bytes.ofChars cs ++ Bytes.ofChars ds := by
  rw [ofChars_eq, ofChars_eq, ofChars_eq, List.flatMap_append]

theorem chars_ofChars (cs : List Char) : (Bytes.ofChars cs).chars = cs := by
  rw [Bytes.chars, ofChars_eq]
  induction cs with
  | nil => rfl
  | cons c cs ih => rw [List.flatMap_cons, units_utf8EncodeChar, List.map_cons, ih, Unit.toChar]

theorem ofChars_ascii {cs : List Char} (h : ∀ c ∈ cs, c.toNat < 0x80) :
    Bytes.ofChars cs = cs.map fun c => UInt8.ofNat c.toNat := by
  rw [ofChars_eq]
  induction cs with
  | nil => rfl
  | cons c cs ih =>
    obtain ⟨hc, hcs⟩ := List.forall_mem_cons.1 h
    have hone : String.utf8EncodeChar c = [UInt8.ofNat c.toNat] := by
      rw [← c.ofNat_toNat, utf8EncodeChar_ofNat (by omega), if_pos (by omega), toNat_ofNat (by omega)]
    rw [List.flatMap_cons, hone, ih hcs, List.map_cons, List.singleton_append]

theorem ofChars_lt {cs : List Char} (h : ∀ c ∈ cs, c.toNat < 0x80) : ∀ b ∈ Bytes.ofChars cs, b < 0x80 := by
  rw [ofChars_ascii h]
  refine List.forall_mem_map.2 fun c hc => ?_
  have hc := h c hc
  rw [UInt8.lt_iff_toNat_lt, byte_toNat (by omega)]
  exact hc

theorem toNat_char {b : UInt8} (h : b < 0x80) : (Char.ofNat b.toNat).toNat = b.toNat := by
  have hb : b.toNat < 0x80 := h
  exact toNat_ofNat (by omega)

theorem map_lt (h : ∀ b ∈ bs, b < 0x80) : ∀ c ∈ bs.map fun b => Char.ofNat b.toNat, c.toNat < 0x80 := by
  refine List.forall_mem_map.2 fun b hb => ?_
  rw [toNat_char (h b hb)]
  exact h b hb

theorem ofChars_map (h : ∀ b ∈ bs, b < 0x80) : Bytes.ofChars (bs.map fun b => Char.ofNat b.toNat) = bs := by
  rw [ofChars_ascii (map_lt h), List.map_map]
  refine (List.map_congr_left fun b hb => ?_).trans (List.map_id bs)
  rw [Function.comp_apply, toNat_char (h b hb), UInt8.ofNat_toNat, id]

theorem chars_ascii (h : ∀ b ∈ bs, b < 0x80) : bs.chars = bs.map fun b => Char.ofNat b.toNat := by
  rw [← chars_ofChars (bs.map _), ofChars_map h]

theorem chars_lt (h : ∀ b ∈ bs, b < 0x80) : ∀ c ∈ bs.chars, c.toNat < 0x80 :=
  chars_ascii h ▸ map_lt h

theorem ofChars_chars (h : ∀ b ∈ bs, b < 0x80) : Bytes.ofChars bs.chars = bs := by
  rw [chars_ascii h, ofChars_map h]

theorem chars_append (hb : ∀ b ∈ bs, b < 0x80) {cs : Bytes} (hc : ∀ b ∈ cs, b < 0x80) :
    (bs ++ cs).chars = bs.chars ++ cs.chars := by
  rw [← ofChars_chars hb, ← ofChars_chars hc, ← ofChars_append, chars_ofChars, chars_ofChars, chars_ofChars]

end Utf8

namespace Text

variable {c : Char} {cs : List Char}

@[elab_as_elim]
theorem forall_ascii {P : Char → Prop} (hc : c.toNat < 0x80) (h : ∀ n < 0x80, P (Char.ofNat n)) : P c :=
  c.ofNat_toNat ▸ h c.toNat hc

theorem toNat_toLower (h : c.toNat < 0x80) : c.toLower.toNat < 0x80 := by
  refine forall_ascii h ?_
  decide +kernel

theorem lowerChar_ascii (h : c.toNat < 0x80) : lowerChar c = c.toLower := by
  rw [lowerChar, isAscii, if_pos (decide_eq_true h)]

end Text

/-! ### Libraries on plain text -/

namespace Libraries

section Plain

variable [Libraries]

/-- Nothing in an ASCII text is composed. -/
def ComposesPlain : Prop := ∀ bs : Bytes, (∀ b ∈ bs, b < 0x80) → compose bs = bs

/-- In an ASCII text the capitals are lowered, and all else is kept. -/
def LowersPlain : Prop := ∀ cs : List Char, (∀ c ∈ cs, c.toNat < 0x80) → lower cs = cs.map Char.toLower

end Plain

/-- Flags with their values in front of the other arguments. -/
def leadingFlags : List Bytes → FlagValues
  | (0x2D :: 0x2D :: name) :: value :: rest =>
    let v := leadingFlags rest
    { v with values := (name, value) :: v.values }
  | args => ⟨[], args⟩

/-- Libraries that do what is needed for plain texts: no letter has a mark, nothing is coloured, and each flag has its
value behind it. -/
@[reducible] def plain : Libraries where
  compose bs := bs
  lower := List.map Char.toLower
  title
    | [] => []
    | b :: bs => (if 97 ≤ b && b ≤ 122 then b - 32 else b) :: bs
  paint _ _ text := text
  readFlags _ args := .ok (leadingFlags args)
  dispatch _ argv := .run (leadingFlags argv)
  readConfig _ := .ok {}
  logLine _ := []

end Libraries

end Flatwire
