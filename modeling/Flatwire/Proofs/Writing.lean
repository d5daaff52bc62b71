import Mathlib.Data.List.Forall2
import Flatwire.Proofs.Image
import Flatwire.Proofs.Memory
import Flatwire.Wire.Component

/-! What each kind of component writes. Given room for its static section, a component draws its image, static section
at the place reserved for it and payloads at the cursor, or says that the buffer is too small. The invariant that makes
this compose is that the static section ends at or before the cursor: later payloads never reach back into it. -/

namespace Flatwire

theorem reserve_eq (size cursor n : Nat) :
    reserve size cursor n =
      if cursor + n ≤ size then .ok ((cursor + n : Nat) : Int) else .error .insufficientCapacity := by
  unfold reserve
  split_ifs with h1 h2 h2
  · omega
  · rfl
  · rfl
  · omega

namespace Image

/-- The buffer with the static section at `dest` and the payloads from `cursor` on. -/
def placed (i : Image) (buf : Buffer) (dest cursor : Nat) : Buffer :=
  (buf.overwrite dest (Cell.render (i.static (cursor - dest)))).overwrite cursor (Cell.render i.dynamic)

/-- The outcome of drawing the image: the buffer and the cursor after the payloads, if they fit. -/
def drawn (i : Image) (buf : Buffer) (dest cursor : Nat) : Except WriteError (Buffer × Int) :=
  if cursor + i.payloads ≤ buf.size then .ok (i.placed buf dest cursor, ((cursor + i.payloads : Nat) : Int))
  else .error .insufficientCapacity

@[simp] theorem size_placed (i : Image) (buf : Buffer) (dest cursor : Nat) :
    (i.placed buf dest cursor).size = buf.size := by
  rw [placed, Buffer.size_overwrite, Buffer.size_overwrite]

theorem drawn_empty {buf : Buffer} {cursor : Nat} (dest : Nat) (hc : cursor ≤ buf.size) :
    empty.drawn buf dest cursor = .ok (buf, cursor) := if_pos hc

theorem placed_append (a b : Image) (buf : Buffer) (dest cursor : Nat) (h : dest + a.size + b.size ≤ cursor) :
    (a.append b).placed buf dest cursor =
      b.placed (a.placed buf dest cursor) (dest + a.size) (cursor + a.payloads) := by
  have hd : cursor - dest + a.payloads - a.size = cursor + a.payloads - (dest + a.size) := by omega
  have ha := a.length_static (cursor - dest)
  have hb := b.length_static (cursor + a.payloads - (dest + a.size))
  unfold placed
  -- on the right the payloads of `a` come before the static section of `b`
  rw [Buffer.overwrite_comm _ (dest + a.size) cursor _ _ (by rw [hb]; omega), append, Cell.render_append,
    Cell.render_append, Buffer.overwrite_append, Buffer.overwrite_append, ha, hd]
  rfl

theorem drawn_append (a b : Image) (buf : Buffer) (dest cursor : Nat) (h : dest + a.size + b.size ≤ cursor) :
    (a.append b).drawn buf dest cursor =
      if cursor + a.payloads ≤ buf.size then
        b.drawn (a.placed buf dest cursor) (dest + a.size) (cursor + a.payloads)
      else .error .insufficientCapacity := by
  unfold drawn
  rw [payloads_append, size_placed, placed_append _ _ _ _ _ h, Nat.add_assoc]
  split_ifs with h1 h2 h2
  · rfl
  · omega
  · rfl
  · rfl

/-- The buffer with a number at `dest` and behind it a slot that refers to `cursor`. -/
def headed (width value : Nat) (buf : Buffer) (dest cursor : Nat) : Buffer :=
  (buf.overwrite dest (Bytes.ofNat width value)).overwrite (dest + width) (Bytes.ofNat 2 (cursor - (dest + width)))

@[simp] theorem size_headed (width value : Nat) (buf : Buffer) (dest cursor : Nat) :
    (headed width value buf dest cursor).size = buf.size := by
  rw [headed, Buffer.size_overwrite, Buffer.size_overwrite]

theorem placed_tagged (width value : Nat) (payload : List Cell) (hw : Cell.Within (Cell.render payload).length payload)
    (buf : Buffer) (dest cursor : Nat) :
    (tagged width value payload hw).placed buf dest cursor =
      (headed width value buf dest cursor).overwrite cursor (Cell.render payload) := by
  have hs : Cell.render [.number width value, .offset (cursor - dest - width)] =
      Bytes.ofNat width value ++ Bytes.ofNat 2 (cursor - (dest + width)) := by
    rw [Nat.sub_sub]
    simp [Cell.bytes]
  rw [placed, tagged, hs, Buffer.overwrite_append, Bytes.length_ofNat]
  rfl

theorem drawn_tagged_cells (width value : Nat) (i : Image) (buf : Buffer) (dest cursor : Nat) :
    (tagged width value i.cells i.within_cells).drawn buf dest cursor =
      if cursor + i.size ≤ buf.size then i.drawn (headed width value buf dest cursor) cursor (cursor + i.size)
      else .error .insufficientCapacity := by
  have hl : (tagged width value i.cells i.within_cells).payloads = i.size + i.payloads := i.length_bytes
  have hp : i.placed (headed width value buf dest cursor) cursor (cursor + i.size) =
      (headed width value buf dest cursor).overwrite cursor (Cell.render i.cells) := by
    rw [placed, Nat.add_sub_cancel_left, cells, Cell.render_append, Buffer.overwrite_append, i.length_static]
  unfold drawn
  rw [hl, placed_tagged, hp, size_headed, Nat.add_assoc]
  split_ifs with h1 h2 h2
  · rfl
  · omega
  · rfl
  · rfl

end Image

namespace Component

open Image

/-- Wherever there is room for its static section, the component draws the image. -/
structure Writes (c : Component) (i : Image) : Prop where
  staticSize : c.staticSize = i.size
  write : ∀ (buf : Buffer) (dest cursor : Nat), dest + i.size ≤ cursor → cursor ≤ buf.size →
    c.write buf dest cursor = i.drawn buf dest cursor

theorem writes_scalar (width v : Nat) : Writes (.scalar width v) (.number width v) := by
  refine ⟨rfl, fun buf dest cursor hd hc => ?_⟩
  have hw : dest + width ≤ cursor := hd
  have hp : buf.putNat? dest width v = some (buf.overwrite dest (Bytes.ofNat width v)) :=
    Buffer.put?_eq _ _ _ (by rw [Bytes.length_ofNat]; omega)
  have hr : Cell.render [.number width v] = Bytes.ofNat width v := List.append_nil _
  rw [Component.write, hp, drawn, if_pos (by exact hc), placed, Image.number, hr]
  rfl

theorem writes_text (t : Bytes) : Writes (.text t) (.text t) := by
  refine ⟨rfl, fun buf dest cursor hd hc => ?_⟩
  have hw : dest + 2 ≤ cursor := hd
  have hr : Cell.render [.raw (t ++ [0])] = t ++ [0] := List.append_nil _
  have hl : (Image.text t).payloads = t.length + 1 := by rw [payloads, Image.text, hr, List.length_append]; rfl
  have ho := Buffer.putOffset?_eq buf dest cursor (by omega) (by omega)
  rw [Component.write, reserve_eq, drawn, hl, ho]
  split_ifs with h
  · have hp := Buffer.put?_eq (buf.overwrite dest (Bytes.ofNat 2 (cursor - dest))) cursor (t ++ [0])
      (by rw [Buffer.size_overwrite, List.length_append]; exact h)
    simp only [ok_bind, inBuffer, hp]
    rw [placed, Image.text, hr]
    rfl
  · rfl

theorem inBuffer_headed (width value : Nat) (buf : Buffer) (dest cursor : Nat) (slot : Int)
    (hs : slot = (dest + width : Nat)) (hd : dest + (width + 2) ≤ cursor) (hc : cursor ≤ buf.size) :
    inBuffer (buf.putNat? dest width value) = .ok (buf.overwrite dest (Bytes.ofNat width value)) ∧
      inBuffer ((buf.overwrite dest (Bytes.ofNat width value)).putOffset? slot cursor) =
        .ok (headed width value buf dest cursor) := by
  have hn : buf.putNat? dest width value = some (buf.overwrite dest (Bytes.ofNat width value)) :=
    Buffer.put?_eq _ _ _ (by rw [Bytes.length_ofNat]; omega)
  have ho := Buffer.putOffset?_eq (buf.overwrite dest (Bytes.ofNat width value)) (dest + width) cursor
    (by rw [Buffer.size_overwrite]; omega) (by omega)
  rw [hn, hs, ho]
  exact ⟨rfl, rfl⟩

theorem writes_oneOf {c : Component} {i : Image} (h : Writes c i) (tag : UInt8) :
    Writes (.oneOf tag (some c)) (.oneOf tag i) := by
  refine ⟨rfl, fun buf dest cursor hd hc => ?_⟩
  obtain ⟨hn, ho⟩ := inBuffer_headed 1 tag.toNat buf dest cursor (dest + 1) rfl hd hc
  rw [Component.write, Image.oneOf, drawn_tagged_cells, reserve_eq, h.staticSize, hn]
  split_ifs with hs
  · simp only [ok_bind, ho]
    exact h.write _ cursor (cursor + i.size) (Nat.le_refl _) (by rw [size_headed]; exact hs)
  · rfl

theorem writeItems_eq (size : Nat) {cs : List Component} {is : List Image} (h : List.Forall₂ Writes cs is)
    (hsize : ∀ i ∈ is, i.size = size) (buf : Buffer) (dest cursor : Nat) (hd : dest + (concat is).size ≤ cursor)
    (hc : cursor ≤ buf.size) : writeItems size cs buf dest cursor = (concat is).drawn buf dest cursor := by
  induction h generalizing buf dest cursor with
  | nil => rw [writeItems, concat, drawn_empty dest hc]
  | @cons c i cs is hci _ ih =>
    obtain rfl : i.size = size := hsize i (by simp)
    have hd' : dest + i.size + (concat is).size ≤ cursor := by rw [Nat.add_assoc]; exact hd
    rw [writeItems, hci.write _ _ _ (by omega) hc, concat, drawn_append _ _ _ _ _ hd', drawn]
    split_ifs with hp
    · exact ih (fun j hj => hsize j (by simp [hj])) (i.placed buf dest cursor) (dest + i.size) (cursor + i.payloads)
        (by omega) (by rw [size_placed]; exact hp)
    · rfl

theorem write_list_nil (buf : Buffer) (dest cursor : Int) :
    (Component.list []).write buf dest cursor =
      (do
        let buf ← inBuffer (buf.putNat? dest 2 0)
        return (← inBuffer (buf.putOffset? (dest + 2) cursor), cursor)) := by
  rw [Component.write]
  rfl

theorem write_list_cons (c : Component) (cs : List Component) (hl : cs.length + 1 ≤ maxListLength) (buf : Buffer)
    (dest cursor : Int) :
    (Component.list (c :: cs)).write buf dest cursor =
      (do
        let buf ← inBuffer (buf.putNat? dest 2 (cs.length + 1))
        let stop ← reserve buf.size cursor (c.staticSize * (cs.length + 1))
        let buf ← inBuffer (buf.putOffset? (dest + 2) cursor)
        writeItems c.staticSize (c :: cs) buf cursor stop) := by
  rw [Component.write, if_neg (by exact Nat.not_lt.2 hl)]
  refine bind_congr fun headed => bind_congr fun stop => bind_congr fun linked => ?_
  rw [writeItems]
  cases c.write linked cursor stop <;> rfl

theorem writes_list (size : Nat) {cs : List Component} {is : List Image} (h : List.Forall₂ Writes cs is)
    (hsize : ∀ i ∈ is, i.size = size) (hl : cs.length ≤ maxListLength) : Writes (.list cs) (.list is) := by
  refine ⟨rfl, fun buf dest cursor hd hc => ?_⟩
  obtain ⟨hn, ho⟩ := inBuffer_headed 2 cs.length buf dest cursor (dest + 2) rfl hd hc
  have hlen : is.length = cs.length := h.length_eq.symm
  have hcat : (concat is).size = size * cs.length := by rw [size_concat size is hsize, hlen]
  rw [Image.list, hlen, drawn_tagged_cells, hcat]
  cases h with
  | nil =>
    rw [List.length_nil] at hn ho
    rw [write_list_nil, hn, ok_bind, ho, ok_bind, List.length_nil, Nat.mul_zero, Nat.add_zero, if_pos hc, concat,
      drawn_empty _ (by rw [size_headed]; exact hc)]
    rfl
  | @cons c i cs is hci htail =>
    obtain rfl : i.size = size := hsize i (by simp)
    rw [List.length_cons] at hn ho hl hcat
    rw [write_list_cons c cs hl, hn, ok_bind, Buffer.size_overwrite, hci.staticSize, reserve_eq, List.length_cons]
    split_ifs with hs
    · rw [ok_bind, ho, ok_bind]
      exact writeItems_eq i.size (List.Forall₂.cons hci htail) hsize _ cursor (cursor + i.size * (cs.length + 1))
        (Nat.add_le_add_left (Nat.le_of_eq hcat) cursor) (by rw [size_headed]; exact hs)
    · rfl

theorem writes_bytes (items : Bytes) (hl : items.length ≤ maxListLength) : Writes (.bytes items) (ofBytes items) := by
  refine ⟨rfl, fun buf dest cursor hd hc => ?_⟩
  obtain ⟨hn, ho⟩ := inBuffer_headed 2 items.length buf dest cursor (dest + 2) rfl hd hc
  rw [Component.write, if_neg (by exact Nat.not_lt.2 hl), reserve_eq, drawn, payloads_ofBytes]
  split_ifs with hs
  · have hput := Buffer.put?_eq (headed 2 items.length buf dest cursor) cursor items (by rw [size_headed]; exact hs)
    simp only [ok_bind, hn, ho, hput]
    rw [ofBytes, Image.list, placed_tagged, render_numbers, List.length_map]
    rfl
  · rfl

/-- The fields lie side by side from offset `start` on, and each draws its image. -/
inductive WritesFields : Nat → List (UInt16 × Component) → List Image → Prop
  | nil (start : Nat) : WritesFields start [] []
  | cons {start : Nat} {offset : UInt16} {c : Component} {i : Image} {fs : List (UInt16 × Component)} {is : List Image}
      (ho : offset.toNat = start) (hc : Writes c i) (hf : WritesFields (start + i.size) fs is) :
      WritesFields start ((offset, c) :: fs) (i :: is)

theorem writeFields_eq {start : Nat} {fs : List (UInt16 × Component)} {is : List Image} (h : WritesFields start fs is)
    (buf : Buffer) (dest cursor : Nat) (hd : dest + start + (concat is).size ≤ cursor) (hc : cursor ≤ buf.size) :
    writeFields fs buf dest cursor = (concat is).drawn buf (dest + start) cursor := by
  induction h generalizing buf cursor with
  | nil => rw [writeFields, concat, drawn_empty _ hc]
  | @cons start offset c i fs is ho hci _ ih =>
    have hd' : dest + start + i.size + (concat is).size ≤ cursor := by rw [Nat.add_assoc _ i.size]; exact hd
    have hw := hci.write buf (dest + start) cursor (by omega) hc
    rw [writeFields, ho, ← Int.natCast_add, hw, concat, drawn_append _ _ _ _ _ hd', drawn]
    split_ifs with hp
    · have hrest := ih (i.placed buf (dest + start) cursor) (cursor + i.payloads) (by omega)
        (by rw [size_placed]; exact hp)
      rw [← Nat.add_assoc] at hrest
      exact hrest
    · rfl

theorem writes_record {size : UInt16} {fs : List (UInt16 × Component)} {is : List Image} (h : WritesFields 0 fs is)
    (hsize : size.toNat = (concat is).size) : Writes (.record size fs) (concat is) := by
  refine ⟨hsize, fun buf dest cursor hd hc => ?_⟩
  rw [Component.write, writeFields_eq h buf dest cursor hd hc]
  rfl

/-- At the start of a buffer: the whole image, and behind it what stood there. -/
theorem Writes.writeTo {c : Component} {i : Image} (h : Writes c i) (buf : Buffer) :
    c.writeTo buf =
      if i.bytes.length ≤ min buf.size Buffer.maxSize then
        .ok ((i.bytes ++ buf.toList.drop i.bytes.length).toArray, i.bytes.length)
      else .error .insufficientCapacity := by
  have hroom : (buf.extract 0 Buffer.maxSize).size = min buf.size Buffer.maxSize := by
    rw [Array.size_extract, Nat.min_comm, Nat.sub_zero]
  have hl := i.length_bytes
  rw [writeTo_eq, h.staticSize]
  by_cases hs : (buf.extract 0 Buffer.maxSize).size < i.size
  · rw [if_pos hs, if_neg (by omega)]
  · have hw : c.write (buf.extract 0 Buffer.maxSize) 0 i.size = i.drawn (buf.extract 0 Buffer.maxSize) 0 i.size :=
      h.write _ 0 i.size (by omega) (by omega)
    have hp : i.placed (buf.extract 0 Buffer.maxSize) 0 i.size =
        Buffer.overwrite (buf.extract 0 Buffer.maxSize) 0 i.bytes := by
      rw [placed, bytes_eq, Buffer.overwrite_append, i.length_static, Nat.zero_add, Nat.sub_zero]
    rw [if_neg hs, hw, drawn, hp]
    split_ifs with hf hfit hfit
    · simp only [Int.toNat_natCast, Buffer.overwrite_room buf i.bytes hfit, hl]
    · omega
    · omega
    · rfl

end Component

end Flatwire
