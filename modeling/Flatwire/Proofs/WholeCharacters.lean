import Mathlib.Data.List.TakeWhile
import Flatwire.Proofs.Utf8
import Flatwire.Token.Scan

/-! Texts cut between characters. Every text begins with whole characters, as many as there are before the first byte
that begins none; in a valid text the cuts are the places where no continuation byte stands. A source that is not UTF-8
is refused behind the whole characters in front of it, or already at a replacement character among them. -/

namespace Flatwire

namespace Utf8

/-! ### Characters in front -/

section Front

variable {bs rest back : Bytes} {cs ds : List Char}

theorem units_append (cs : List Char) (rest : Bytes) :
    units (cs.flatMap String.utf8EncodeChar ++ rest) = cs.map .char ++ units rest := by
  induction cs with
  | nil => rfl
  | cons c cs ih =>
    rw [List.flatMap_cons, List.append_assoc, units_utf8EncodeChar, ih]
    rfl

theorem count_append (cs : List Char) (rest : Bytes) :
    count (cs.flatMap String.utf8EncodeChar ++ rest) = cs.length + count rest := by
  unfold count
  rw [units_append, List.length_append, List.length_map]

theorem count_chars (cs : List Char) : count (cs.flatMap String.utf8EncodeChar) = cs.length := by
  have h := count_append cs []
  rwa [List.append_nil] at h

theorem valid_chars_append (cs : List Char) (rest : Bytes) :
    valid (cs.flatMap String.utf8EncodeChar ++ rest) = valid rest := by
  have hall : (cs.map Unit.char).all Unit.isChar = true := by
    rw [List.all_map]
    exact List.all_eq_true.2 fun _ _ => rfl
  unfold valid
  rw [units_append, List.all_append, hall, Bool.true_and]

theorem exists_chars_back (h : cs.flatMap String.utf8EncodeChar = ds.flatMap String.utf8EncodeChar ++ back) :
    ∃ es, cs = ds ++ es ∧ back = es.flatMap String.utf8EncodeChar := by
  have hback : valid back = true := by
    rw [← valid_chars_append ds, ← h]
    exact valid_of_chars cs
  obtain ⟨es, rfl⟩ := chars_of_valid hback
  refine ⟨es, ?_, rfl⟩
  have hunits := congrArg units h
  rw [← List.flatMap_append, ← List.append_nil ((ds ++ es).flatMap _), units_append,
    ← List.append_nil (cs.flatMap _), units_append] at hunits
  exact (List.map_inj_right fun _ _ => Unit.char.inj).1 (List.append_cancel_right hunits)

theorem exists_front (bs : Bytes) : ∃ (cs : List Char) (rest : Bytes),
    bs = cs.flatMap String.utf8EncodeChar ++ rest ∧ first? rest = none := by
  induction hn : bs.length using Nat.strongRecOn generalizing bs with
  | ind n ih =>
    rcases hfirst : first? bs with _ | ⟨c, w⟩
    · exact ⟨[], bs, rfl, hfirst⟩
    · have hbytes := utf8EncodeChar_of_first? hfirst
      have hlen := congrArg List.length hbytes
      rw [List.length_append, String.length_utf8EncodeChar] at hlen
      have hpos := c.utf8Size_pos
      obtain ⟨cs, rest, hrest, hnone⟩ := ih (bs.drop w).length (by omega) (bs.drop w) rfl
      refine ⟨c :: cs, rest, ?_, hnone⟩
      rw [List.flatMap_cons, List.append_assoc, ← hrest]
      exact hbytes

theorem length_takeWhile_eq (c : Char) (cs : List Char) :
    ((cs.takeWhile (· != c)).flatMap String.utf8EncodeChar).length = (cs.flatMap String.utf8EncodeChar).length ↔
      c ∉ cs := by
  induction cs with
  | nil => exact iff_of_true rfl List.not_mem_nil
  | cons d cs ih =>
    by_cases hd : d = c
    · have hpos := d.utf8Size_pos
      rw [hd, List.takeWhile_cons_of_neg (by simp), List.flatMap_nil, List.flatMap_cons, List.length_append,
        String.length_utf8EncodeChar, ← hd]
      refine iff_of_false ?_ (not_not.2 List.mem_cons_self)
      rw [List.length_nil]
      omega
    · rw [List.takeWhile_cons_of_pos (by simpa using hd), List.flatMap_cons, List.flatMap_cons, List.length_append,
        List.length_append, Nat.add_left_cancel_iff, ih, List.mem_cons, not_or]
      exact (and_iff_right (Ne.symm hd)).symm

/-- The bytes of the whole characters in front: none of the longer fronts is valid. -/
def WholeFront (bs : Bytes) (n : Nat) : Prop :=
  n ≤ bs.length ∧ valid (bs.take n) = true ∧ ∀ m, n < m → m ≤ bs.length → valid (bs.take m) = false

theorem wholeFront_chars (h : first? rest = none) : WholeFront (cs.flatMap String.utf8EncodeChar ++ rest)
    (cs.flatMap String.utf8EncodeChar).length := by
  refine ⟨by simp, by rw [List.take_left]; exact valid_of_chars cs, fun m hm hle => ?_⟩
  obtain ⟨k, rfl⟩ := Nat.exists_eq_add_of_lt hm
  rw [Nat.add_assoc, List.take_length_add_append, valid_chars_append, Bool.eq_false_iff]
  intro hvalid
  obtain ⟨es, hes⟩ := chars_of_valid hvalid
  rcases rest with _ | ⟨b, rest⟩
  · rw [List.append_nil] at hle
    omega
  rcases es with _ | ⟨e, es⟩
  · cases hes
  -- the first character of the longer front would begin the rest
  have hbegin := first?_utf8EncodeChar e (es.flatMap String.utf8EncodeChar ++ (b :: rest).drop (k + 1))
  rw [← List.append_assoc, ← List.flatMap_cons, ← hes, List.take_append_drop, h] at hbegin
  cases hbegin

end Front

/-! ### Cuts -/

/-- A place where no character is cut: no continuation byte stands there. -/
def Boundary (bs : Bytes) (n : Nat) : Prop := bs[n]?.any isContinuation = false

instance (bs : Bytes) (n : Nat) : Decidable (Boundary bs n) := inferInstanceAs (Decidable (_ = _))

theorem boundary_append (bs : Bytes) {rest : Bytes} (h : rest.head?.any isContinuation = false) :
    Boundary (bs ++ rest) bs.length := by
  unfold Boundary
  rwa [List.getElem?_append_right (Nat.le_refl _), Nat.sub_self, ← List.head?_eq_getElem?]

theorem isContinuation_tail (c : Char) : ∀ b ∈ (String.utf8EncodeChar c).tail, isContinuation b = true := by
  have hc : c = Char.ofNat c.toNat := (Char.ofNat_toNat c).symm
  rw [hc, utf8EncodeChar_ofNat (toNat_valid c)]
  split_ifs <;> simp only [List.tail_cons, List.not_mem_nil, List.forall_mem_cons, isContinuation_ofNat, true_and,
    false_imp_iff, implies_true]

theorem Boundary.valid_take {bs : Bytes} {n : Nat} (hbs : valid bs = true) (h : Boundary bs n) :
    valid (bs.take n) = true := by
  obtain ⟨cs, rfl⟩ := chars_of_valid hbs
  clear hbs
  induction cs generalizing n with
  | nil => rw [List.flatMap_nil, List.take_nil]; rfl
  | cons c cs ih =>
    rw [List.flatMap_cons] at h ⊢
    rcases Nat.lt_or_ge n (String.utf8EncodeChar c).length with hin | hout
    · rcases n with _ | n
      · rfl
      · -- behind the first byte of a character stand continuation bytes
        have hbyte : (String.utf8EncodeChar c)[n + 1] ∈ (String.utf8EncodeChar c).tail := by
          rw [← List.getElem_tail (by rw [List.length_tail]; omega)]
          exact List.getElem_mem _
        unfold Boundary at h
        rw [List.getElem?_append_left hin, List.getElem?_eq_getElem hin, Option.any_some,
          isContinuation_tail c _ hbyte] at h
        cases h
    · obtain ⟨k, rfl⟩ := Nat.exists_eq_add_of_le hout
      have hk : Boundary (cs.flatMap String.utf8EncodeChar) k := by
        unfold Boundary at h ⊢
        rwa [List.getElem?_append_right (Nat.le_add_right _ _), Nat.add_sub_cancel_left] at h
      rw [List.take_length_add_append]
      have hchar := valid_chars_append [c] ((cs.flatMap String.utf8EncodeChar).take k)
      rw [List.flatMap_singleton] at hchar
      rw [hchar]
      exact ih hk

theorem Boundary.exists_between {bs : Bytes} {a b : Nat} (ha : Boundary bs a) (hb : Boundary bs b)
    (hbs : valid bs = true) (hab : a ≤ b) :
    ∃ cs : List Char, bs.take b = bs.take a ++ cs.flatMap String.utf8EncodeChar := by
  have hsplit : bs.take b = bs.take a ++ (bs.take b).drop a := by
    have hall := List.take_append_drop a (bs.take b)
    rwa [List.take_take, Nat.min_eq_left hab, eq_comm] at hall
  obtain ⟨front, hfront⟩ := chars_of_valid (ha.valid_take hbs)
  obtain ⟨both, hboth⟩ := chars_of_valid (hb.valid_take hbs)
  rw [hfront, hboth] at hsplit
  obtain ⟨cs, rfl, -⟩ := exists_chars_back hsplit
  exact ⟨cs, by rw [hboth, hfront, List.flatMap_append]⟩

end Utf8

namespace TokenStream

open Utf8

theorem foldl_utf8Size (cs : List Char) (n : Nat) : (cs.map Unit.char).foldl (fun n u => n + u.toChar.utf8Size) n =
    n + (cs.flatMap String.utf8EncodeChar).length := by
  induction cs generalizing n with
  | nil => rfl
  | cons c cs ih =>
    rw [List.map_cons, List.foldl_cons, ih, List.flatMap_cons, List.length_append, String.length_utf8EncodeChar,
      Nat.add_assoc]
    rfl

/-- What is passed over in a text: the characters in front up to a replacement character. -/
theorem soundLen_append {rest : Bytes} (cs : List Char) (h : first? rest = none) :
    soundLen (cs.flatMap String.utf8EncodeChar ++ rest) =
      ((cs.takeWhile (· != '�')).flatMap String.utf8EncodeChar).length := by
  -- the test of the loop, told by its values
  obtain ⟨p, hchar, hbad, hlen⟩ : ∃ p : Utf8.Unit → Bool, (∀ c, p (.char c) = (c != '�')) ∧ (∀ b, p (.bad b) = false) ∧
      ∀ bs, soundLen bs = ((units bs).takeWhile p).foldl (fun n u => n + u.toChar.utf8Size) 0 :=
    ⟨_, fun _ => rfl, fun _ => rfl, fun _ => rfl⟩
  have hrest : (units rest).takeWhile p = [] := by
    rcases rest with _ | ⟨b, rest⟩
    · rfl
    · rw [units_bad h, List.takeWhile_cons, hbad]
      rfl
  have hfront : (cs.map Unit.char ++ units rest).takeWhile p = (cs.takeWhile (· != '�')).map Unit.char := by
    have hcomp : p ∘ Unit.char = (· != '�') := funext hchar
    rw [List.takeWhile_append, hrest, List.append_nil, List.takeWhile_map, hcomp]
    split_ifs with hall
    · rw [List.length_map, List.length_map] at hall
      rw [(List.takeWhile_prefix _).eq_of_length hall]
    · rfl
  rw [hlen, units_append, hfront, foldl_utf8Size, Nat.zero_add]

variable {src : Bytes}

/-- A source that is not UTF-8 is refused at the first replacement character among the whole characters in front, and at
the first byte that begins no character if there is none. -/
theorem ofSource_invalid (hlen : src.length ≤ maxSourceLen) (hinvalid : valid src = false) :
    ∃ (n : Nat) (cs : List Char) (e : SyntaxError), WholeFront src n ∧ n < src.length ∧
      src.take n = cs.flatMap String.utf8EncodeChar ∧ ofSource src = .error e ∧ e.code = 1001 ∧ e.span.len = 1 ∧
      e.span.start = ((cs.takeWhile (· != '�')).flatMap String.utf8EncodeChar).length ∧
      (e.span.start = n ↔ '�' ∉ cs) := by
  obtain ⟨cs, rest, rfl, hrest⟩ := exists_front src
  have hsource : ofSource (cs.flatMap String.utf8EncodeChar ++ rest) =
      .error ⟨.invalidUtf8, ⟨((cs.takeWhile (· != '�')).flatMap String.utf8EncodeChar).length, 1⟩⟩ := by
    unfold ofSource
    rw [if_neg (Nat.not_lt.2 hlen), hinvalid, soundLen_append cs hrest]
    rfl
  refine ⟨_, cs, _, wholeFront_chars hrest, ?_, List.take_left, hsource, rfl, rfl, rfl, ?_⟩
  · rcases rest with _ | ⟨b, rest⟩
    · rw [List.append_nil, valid_of_chars] at hinvalid
      cases hinvalid
    · simp
  · exact length_takeWhile_eq '�' cs

/-- A no-break space, a replacement character and an unfinished character: the place is behind the blank. -/
theorem ofSource_invalid_sample :
    let src : Bytes := [0xC2, 0xA0, 0xEF, 0xBF, 0xBD, 0x61, 0xE2, 0x82]
    src.length ≤ maxSourceLen ∧ valid src = false ∧ ofSource src = .error ⟨.invalidUtf8, ⟨2, 1⟩⟩ ∧
      ∃ (n : Nat) (cs : List Char) (e : SyntaxError), WholeFront src n ∧ n < src.length ∧
        src.take n = cs.flatMap String.utf8EncodeChar ∧ ofSource src = .error e ∧ e.code = 1001 ∧ e.span.len = 1 ∧
        e.span.start = ((cs.takeWhile (· != '�')).flatMap String.utf8EncodeChar).length ∧
        (e.span.start = n ↔ '�' ∉ cs) := by
  intro src
  have hlen : src.length ≤ maxSourceLen := by decide
  have hinvalid : valid src = false := by decide +kernel
  exact ⟨hlen, hinvalid, by decide +kernel, ofSource_invalid hlen hinvalid⟩

/-- A replacement character is a whole character, and yet the source is refused there and not at the bad byte behind. -/
theorem ofSource_replacement_in_front :
    let src : Bytes := [0xEF, 0xBF, 0xBD, 0xFF]
    src.length ≤ maxSourceLen ∧ valid src = false ∧ WholeFront src 3 ∧
      ofSource src = .error ⟨.invalidUtf8, ⟨0, 1⟩⟩ := by
  intro src
  refine ⟨by decide, by decide +kernel, ⟨by decide, by decide +kernel, fun m hm hle => ?_⟩, by decide +kernel⟩
  obtain rfl : m = 4 := Nat.le_antisymm hle hm
  decide +kernel

end TokenStream

end Flatwire
