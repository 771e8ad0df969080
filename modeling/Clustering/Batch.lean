/-!
# Batches

Consecutive pieces of a range of rows.  `Batch.cover total size` cuts the range `[0, total)` into
pieces of `size` rows, the last one possibly shorter, and `Batch.deal` hands a list out to them in
one pass: by `Batch.deal_cover` each batch gets the part of the list that lies in it.
-/

namespace Clustering

/-- The rows from `offset` up to `offset + size`. -/
structure Batch where
  offset : Nat
  size : Nat
deriving DecidableEq

namespace Batch

/-- The pieces of at most `size` rows that make up `total` rows, in order. -/
def cover (total size : Nat) : List Batch :=
  (List.range ((total + size - 1) / size)).map fun i =>
    ⟨i * size, min size (total - i * size)⟩

section Lists

variable {β : Type}

/-- The part of a list that lies in the batch. -/
def slice (b : Batch) (xs : List β) : List β := (xs.drop b.offset).take b.size

/-- Hands a list out to consecutive batches, the first of which starts with the list. -/
def deal : List Batch → List β → List (List β)
  | [], _ => []
  | b :: bs, xs => xs.take b.size :: deal bs (xs.drop b.size)

@[simp] theorem length_deal (bs : List Batch) (xs : List β) : (deal bs xs).length = bs.length := by
  induction bs generalizing xs with
  | nil => rfl
  | cons b bs ih => simp [deal, ih]

theorem deal_pieces {total size : Nat} (xs : List β) (count i : Nat)
    (h : (i + count) * size < total + size) :
    deal ((List.range' i count).map fun i => ⟨i * size, min size (total - i * size)⟩)
        (xs.drop (i * size)) =
      (List.range' i count).map fun i => slice ⟨i * size, min size (total - i * size)⟩ xs := by
  induction count generalizing i with
  | zero => rfl
  | succ count ih =>
    rw [List.range'_succ, List.map_cons, List.map_cons, deal]
    congr 1
    cases count with
    | zero => rfl
    | succ count =>
      have hi : (i + 1) * size + size ≤ (i + (count + 1 + 1)) * size := by
        rw [← Nat.succ_mul]
        exact Nat.mul_le_mul_right _ (by omega)
      have hs : min size (total - i * size) = size := by
        rw [Nat.succ_mul] at hi
        omega
      rw [hs, List.drop_drop, ← Nat.succ_mul]
      exact ih (i + 1) (by rwa [Nat.add_right_comm, Nat.add_assoc])

/-- Each batch of a range gets the part of the list that lies in it. -/
theorem deal_cover (total size : Nat) (xs : List β) :
    deal (cover total size) xs = (cover total size).map (·.slice xs) := by
  by_cases hs : size = 0
  · simp [cover, hs, deal]
  · have h : (0 + (total + size - 1) / size) * size < total + size := by
      rw [Nat.zero_add]
      have := Nat.div_mul_le_self (total + size - 1) size
      omega
    simpa [cover, List.range_eq_range', Function.comp_def] using deal_pieces xs _ 0 h

end Lists

end Batch

end Clustering
