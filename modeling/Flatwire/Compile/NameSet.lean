import Flatwire.Bytes

/-! Sets of names in which a name is found in as many steps as it has bytes. -/

namespace Flatwire

/-- The names that go on with each byte, and whether there is a name that ends here. -/
inductive NameSet where
  | node (ends : Bool) (branches : List (UInt8 × NameSet))

namespace NameSet

def empty : NameSet := node false []

def contains : NameSet → Bytes → Bool
  | node ends _, [] => ends
  | node _ branches, b :: name =>
    match branches.lookup b with
    | some next => next.contains name
    | none => false

def putBranch (b : UInt8) (next : NameSet) : List (UInt8 × NameSet) → List (UInt8 × NameSet)
  | [] => [(b, next)]
  | (c, other) :: rest => if b = c then (b, next) :: rest else (c, other) :: putBranch b next rest

def insert : NameSet → Bytes → NameSet
  | node _ branches, [] => node true branches
  | node ends branches, b :: name => node ends (putBranch b (((branches.lookup b).getD empty).insert name) branches)

theorem contains_empty (name : Bytes) : empty.contains name = false := by
  cases name <;> rfl

theorem lookup_putBranch (b c : UInt8) (next : NameSet) (branches : List (UInt8 × NameSet)) :
    (putBranch b next branches).lookup c = if c = b then some next else branches.lookup c := by
  fun_induction putBranch b next branches with
  | case1 | case2 => by_cases h : c = b <;> simp [List.lookup_cons, h, beq_false_of_ne]
  | case3 d other rest hd ih =>
    by_cases h : c = d
    · simp [h, Ne.symm hd]
    · simp [List.lookup_cons, beq_false_of_ne h, ih]

theorem contains_insert (set : NameSet) (name other : Bytes) :
    (set.insert name).contains other = (other = name || set.contains other) := by
  induction name generalizing set other with
  | nil =>
    obtain ⟨ends, branches⟩ := set
    cases other <;> simp [insert, contains]
  | cons b name ih =>
    obtain ⟨ends, branches⟩ := set
    cases other with
    | nil => simp [insert, contains]
    | cons c other =>
      rw [insert, contains, contains, lookup_putBranch]
      by_cases h : c = b
      · subst h
        cases hl : branches.lookup c <;> simp [ih, contains_empty]
      · simp [h]

end NameSet

end Flatwire
