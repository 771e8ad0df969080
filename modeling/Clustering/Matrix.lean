import Clustering.Memory

/-!
# Matrices

Dense matrices whose values are stored row after row.  A matrix states its shape and holds its
values apart: `Matrix.Full` says that the values are as many as the shape asks for.  Only full
matrices are data; the others are shapes, which can be checked but have nothing in them to compute
with.

`Matrix.rowList` gives the rows as lists and `Matrix.ofRows` builds a matrix from such a list.
-/

namespace Clustering

/-- A shape, with values in row order. -/
structure Matrix (α : Type) where
  rows : Nat
  cols : Nat
  values : List α
deriving DecidableEq

namespace Matrix

variable {α : Type}

/-- The stored values are those that the shape asks for. -/
def Full (m : Matrix α) : Prop := m.values.length = m.rows * m.cols

instance (m : Matrix α) : Decidable m.Full := inferInstanceAs (Decidable (_ = _))

/-- The matrix without rows and columns. -/
def empty : Matrix α := ⟨0, 0, []⟩

/-- Whether the shape leaves no room for values. -/
def isVoid (m : Matrix α) : Bool := m.rows = 0 || m.cols = 0

/-- The number of values that the shape asks for, as a word. -/
def shapeSize (m : Matrix α) : Nat := sizeWord (m.rows * m.cols)

/-! ### Rows -/

/-- Cuts `n` rows of `cols` values off a list. -/
def cut (cols : Nat) : (n : Nat) → List α → List (List α)
  | 0, _ => []
  | n + 1, vs => vs.take cols :: cut cols n (vs.drop cols)

/-- The rows in order. -/
def rowList (m : Matrix α) : List (List α) := cut m.cols m.rows m.values

/-- The row with a given index. -/
def row (m : Matrix α) (i : Nat) : List α := (m.values.drop (i * m.cols)).take m.cols

/-- The values from the start of a row on, to the end of the matrix. -/
def rowOnwards (m : Matrix α) (i : Nat) : List α := m.values.drop (i * m.cols)

/-- The matrix with the given rows, each of `cols` values. -/
def ofRows (cols : Nat) (rows : List (List α)) : Matrix α := ⟨rows.length, cols, rows.flatten⟩

/-- The rows with the given indices, in the order of the indices. -/
def pick (m : Matrix α) (indices : List Nat) : Matrix α :=
  let stored := m.values.toArray
  ofRows m.cols (indices.map fun i => (stored.extract (i * m.cols) (i * m.cols + m.cols)).toList)

theorem pick_eq (m : Matrix α) (indices : List Nat) :
    m.pick indices = ofRows m.cols (indices.map m.row) := by
  have h : ∀ i, (m.values.toArray.extract (i * m.cols) (i * m.cols + m.cols)).toList = m.row i := by
    simp [row, List.extract_eq_take_drop]
  simp only [pick, h]

@[simp] theorem length_cut (cols n : Nat) (vs : List α) : (cut cols n vs).length = n := by
  induction n generalizing vs with
  | zero => rfl
  | succ n ih => simp [cut, ih]

@[simp] theorem length_rowList (m : Matrix α) : m.rowList.length = m.rows := length_cut ..

theorem cut_flatten {cols : Nat} {rows : List (List α)} (h : ∀ r ∈ rows, r.length = cols) :
    cut cols rows.length rows.flatten = rows := by
  induction rows with
  | nil => rfl
  | cons r rows ih =>
    have hr : r.length = cols := h r List.mem_cons_self
    subst hr
    simp [cut, ih fun s hs => h s (List.mem_cons_of_mem _ hs)]

/-- A matrix built from rows of the right length has those rows. -/
theorem rowList_ofRows {cols : Nat} {rows : List (List α)} (h : ∀ r ∈ rows, r.length = cols) :
    (ofRows cols rows).rowList = rows := cut_flatten h

/-! ### Places

A matrix may state more rows than any storage holds.  Where a value is stored is then still decided
by its row and column, because distances in storage are counted in bytes and wrap as words. -/

section Places

variable [Scalar α]

/-- How many stored values precede the one in row `i` and column `j`. -/
def place (m : Matrix α) (i j : Nat) : Nat :=
  sizeWord ((i * m.cols + j) * Scalar.bytes α) / Scalar.bytes α

/-- The entry in row `i` and column `j`. -/
def get? (m : Matrix α) (i j : Nat) : Option α := m.values[m.place i j]?

/-- The matrix with the entry in row `i` and column `j` replaced. -/
def set (m : Matrix α) (i j : Nat) (v : α) : Matrix α :=
  { m with values := m.values.set (m.place i j) v }

/-- The rows from `offset` on, `count` of them. -/
def slice (m : Matrix α) (offset count : Nat) : Matrix α :=
  ⟨count, m.cols, (m.values.drop (m.place offset 0)).take (sizeWord (count * m.cols))⟩

/-- Short of the wrap, values are stored row after row. -/
theorem place_eq {m : Matrix α} {i j : Nat} (hb : 0 < Scalar.bytes α)
    (h : (i * m.cols + j) * Scalar.bytes α < 0x1_0000_0000_0000_0000) :
    m.place i j = i * m.cols + j := by
  rw [place, sizeWord, Nat.mod_eq_of_lt h, Nat.mul_div_cancel _ hb]

/-- Short of the wrap, a slice of one row holds that row. -/
theorem values_slice_one {m : Matrix α} {i : Nat} (hb : 0 < Scalar.bytes α)
    (hc : m.cols < 0x1_0000_0000_0000_0000)
    (h : i * m.cols * Scalar.bytes α < 0x1_0000_0000_0000_0000) :
    (m.slice i 1).values = m.row i := by
  rw [slice, row, place_eq hb h, Nat.one_mul, sizeWord, Nat.mod_eq_of_lt hc, Nat.add_zero]

/-- An entry that is stored reads back as it was set. -/
theorem get?_set {m : Matrix α} {i j : Nat} (h : m.place i j < m.values.length) (v : α) :
    (m.set i j v).get? i j = some v := by
  simp only [get?, set, place] at *
  simp [h]

end Places

/-! ### Storage -/

section Storage

variable [Scalar α] [Memory]

/-- A matrix of zeros.  Storage is asked for by the number of values as a word. -/
def zeros? (rows cols : Nat) : Except Failure (Matrix α) := do
  Memory.storage (Scalar.bytes α) (sizeWord (rows * cols))
  return ⟨rows, cols, List.replicate (sizeWord (rows * cols)) 0⟩

/-- A copy of a matrix in storage of its own.  Storage is asked for by the distance of the ends of
the values. -/
def copy? (m : Matrix α) : Except Failure (Matrix α) := do
  Memory.storage (Scalar.bytes α) (spanWord (Scalar.bytes α) m.shapeSize)
  return m

/-- The rows with the given indices, in storage of their own. -/
def pick? (m : Matrix α) (indices : List Nat) : Except Failure (Matrix α) := do
  Memory.storageOr (.candidateSet indices.length) (Scalar.bytes α)
    (sizeWord (indices.length * m.cols))
  return m.pick indices

end Storage

end Matrix

end Clustering
