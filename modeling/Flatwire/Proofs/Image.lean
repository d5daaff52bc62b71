import Flatwire.Bytes

/-! The wire format, said without a buffer. The image of a component is its static section, which depends only on the
distance to the payloads, and the payloads themselves, which depend on no address at all. Components side by side share
one run of payloads, and a slot keeps a whole run of cells elsewhere. -/

namespace Flatwire

/-- A piece of an encoded value. -/
inductive Cell where
  /-- A little-endian number in the given count of bytes. -/
  | number (width value : Nat)
  | raw (bytes : Bytes)
  /-- The distance from the first byte of this cell to the first byte of a payload. -/
  | offset (distance : Nat)
deriving DecidableEq, Repr

namespace Cell

def bytes : Cell → Bytes
  | number width value => Bytes.ofNat width value
  | raw bs => bs
  | offset distance => Bytes.ofNat 2 distance

/-- The bytes of cells that stand one after another. -/
def render (cells : List Cell) : Bytes := cells.flatMap bytes

@[simp] theorem render_nil : render [] = [] := rfl

@[simp] theorem render_cons (c : Cell) (cells : List Cell) : render (c :: cells) = c.bytes ++ render cells := rfl

@[simp] theorem render_append (xs ys : List Cell) : render (xs ++ ys) = render xs ++ render ys := List.flatMap_append

/-- Every offset among the cells is at most `n`. -/
def Within (n : Nat) (cells : List Cell) : Prop := ∀ o, .offset o ∈ cells → o ≤ n

theorem Within.mono {m n : Nat} {cells : List Cell} (h : Within m cells) (hmn : m ≤ n) : Within n cells :=
  fun o ho => Nat.le_trans (h o ho) hmn

theorem Within.append {n : Nat} {xs ys : List Cell} (hx : Within n xs) (hy : Within n ys) : Within n (xs ++ ys) := by
  intro o ho
  rcases List.mem_append.1 ho with h | h
  · exact hx o h
  · exact hy o h

theorem within_number (n width value : Nat) : Within n [.number width value] := by
  intro o ho
  simp at ho

theorem within_offset (n : Nat) : Within n [.offset n] := by
  intro o ho
  simp only [List.mem_singleton, offset.injEq] at ho
  exact Nat.le_of_eq ho

end Cell

structure Image where
  /-- The bytes of the static section. -/
  size : Nat
  /-- The static section when the payloads begin the given distance after its first byte. -/
  static : Nat → List Cell
  dynamic : List Cell
  length_static : ∀ d, (Cell.render (static d)).length = size
  within_static : ∀ d, size ≤ d → Cell.Within (d + (Cell.render dynamic).length) (static d)
  within_dynamic : Cell.Within (Cell.render dynamic).length dynamic

namespace Image

/-- The bytes of all payloads. -/
def payloads (i : Image) : Nat := (Cell.render i.dynamic).length

/-- The static section and right after it the payloads. -/
def cells (i : Image) : List Cell := i.static i.size ++ i.dynamic

def bytes (i : Image) : Bytes := Cell.render i.cells

theorem bytes_eq (i : Image) : i.bytes = Cell.render (i.static i.size) ++ Cell.render i.dynamic :=
  Cell.render_append _ _

theorem length_bytes (i : Image) : i.bytes.length = i.size + i.payloads := by
  rw [bytes_eq, List.length_append, i.length_static]
  rfl

theorem within_cells (i : Image) : Cell.Within (Cell.render i.cells).length i.cells := by
  rw [← bytes, length_bytes]
  exact (i.within_static i.size (Nat.le_refl _)).append (i.within_dynamic.mono (Nat.le_add_left _ _))

def empty : Image where
  size := 0
  static _ := []
  dynamic := []
  length_static _ := rfl
  within_static _ _ _ h := by simp at h
  within_dynamic _ h := by simp at h

/-- Two components side by side. The payloads of the second follow those of the first. -/
def append (a b : Image) : Image where
  size := a.size + b.size
  static d := a.static d ++ b.static (d + a.payloads - a.size)
  dynamic := a.dynamic ++ b.dynamic
  length_static d := by rw [Cell.render_append, List.length_append, a.length_static, b.length_static]
  within_static d hd := by
    have ha := a.within_static d (by omega)
    have hb := b.within_static (d + a.payloads - a.size) (by omega)
    rw [Cell.render_append, List.length_append]
    refine (ha.mono (by omega)).append (hb.mono ?_)
    rw [payloads]
    omega
  within_dynamic := by
    rw [Cell.render_append, List.length_append]
    exact (a.within_dynamic.mono (by omega)).append (b.within_dynamic.mono (by omega))

@[simp] theorem payloads_append (a b : Image) : (a.append b).payloads = a.payloads + b.payloads := by
  rw [payloads, append, Cell.render_append, List.length_append]
  rfl

/-- Components one after another. -/
def concat : List Image → Image
  | [] => empty
  | i :: is => i.append (concat is)

def number (width value : Nat) : Image where
  size := width
  static _ := [.number width value]
  dynamic := []
  length_static _ := by simp [Cell.bytes]
  within_static _ _ := Cell.within_number _ _ _
  within_dynamic _ h := by simp at h

/-- A slot that refers to a payload of its own, behind a number that tells what the payload is. -/
def tagged (width value : Nat) (payload : List Cell) (h : Cell.Within (Cell.render payload).length payload) :
    Image where
  size := width + 2
  static d := [.number width value, .offset (d - width)]
  dynamic := payload
  length_static d := by simp [Cell.bytes]
  within_static d _ :=
    Cell.Within.append (Cell.within_number _ _ _) ((Cell.within_offset (d - width)).mono (by omega))
  within_dynamic := h

/-- A text is a bare slot; its bytes and a zero byte are the payload. -/
def text (t : Bytes) : Image where
  size := 2
  static d := [.offset d]
  dynamic := [.raw (t ++ [0])]
  length_static d := by simp [Cell.bytes]
  within_static d _ := (Cell.within_offset d).mono (by omega)
  within_dynamic _ h := by simp at h

/-- A list is its count and a slot; the payload is the elements side by side. -/
def list (items : List Image) : Image := tagged 2 items.length (concat items).cells (concat items).within_cells

/-- A union is its tag and a slot; the payload is the selected value. -/
def oneOf (tag : UInt8) (value : Image) : Image := tagged 1 tag.toNat value.cells value.within_cells

/-- A list of bytes, each a number of its own. -/
def ofBytes (items : Bytes) : Image := list (items.map fun b => number 1 b.toNat)

theorem size_concat (size : Nat) (is : List Image) (h : ∀ i ∈ is, i.size = size) :
    (concat is).size = size * is.length := by
  induction is with
  | nil => rfl
  | cons i is ih =>
    have hi := h i (by simp)
    have hc : (concat (i :: is)).size = i.size + (concat is).size := rfl
    rw [hc, ih (fun j hj => h j (by simp [hj])), hi, List.length_cons, Nat.mul_succ, Nat.add_comm]

theorem concat_numbers (items : Bytes) :
    (concat (items.map fun b => number 1 b.toNat)).dynamic = [] ∧
      ∀ d, Cell.render ((concat (items.map fun b => number 1 b.toNat)).static d) = items := by
  induction items with
  | nil => exact ⟨rfl, fun _ => rfl⟩
  | cons b items ih =>
    refine ⟨ih.1, fun d => ?_⟩
    have hb : Bytes.ofNat 1 b.toNat = [b] := by rw [Bytes.ofNat, Bytes.ofNat, UInt8.ofNat_toNat]
    rw [List.map_cons, concat, append, Cell.render_append, ih.2]
    simp [number, Cell.bytes, hb]

theorem render_numbers (items : Bytes) : Cell.render (concat (items.map fun b => number 1 b.toNat)).cells = items := by
  obtain ⟨hd, hs⟩ := concat_numbers items
  rw [cells, hd, List.append_nil, hs]

theorem payloads_ofBytes (items : Bytes) : (ofBytes items).payloads = items.length :=
  congrArg List.length (render_numbers items)

end Image

end Flatwire
