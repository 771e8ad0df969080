import Clustering.Matrix
import Mathlib.Data.List.GetD

/-!
# Rows and coordinates

A vector of known length is read by coordinates (`eq_map_range_getD`), a matrix by rows: row `i` is
`Matrix.row i` and stands at index `i` of `Matrix.rowList`.  In a full matrix every row is as wide
as the matrix says, and the rows are all there is to know of it (`Matrix.ext_of_row`).
-/

namespace Clustering

/-! ### Coordinates -/

section Coordinates

variable {β γ δ : Type}

theorem eq_map_range_getD {n : ℕ} {vs : List β} (h : vs.length = n) (d : β) :
    vs = (List.range n).map fun i => vs.getD i d := by
  subst h
  refine List.ext_getElem (by simp) fun i hi _ => ?_
  simp [hi]

theorem zipWith_eq_map_range {n : ℕ} {us : List β} {vs : List γ} (f : β → γ → δ)
    (hu : us.length = n) (hv : vs.length = n) (a : β) (b : γ) :
    List.zipWith f us vs = (List.range n).map fun i => f (us.getD i a) (vs.getD i b) := by
  refine List.ext_getElem (by simp [hu, hv]) fun i hi _ => ?_
  rw [List.length_zipWith] at hi
  simp [show i < us.length by omega, show i < vs.length by omega]

theorem getD_map_range {n i : ℕ} (f : ℕ → β) (d : β) (hi : i < n) :
    ((List.range n).map f).getD i d = f i := by
  simp [hi]

/-- A list all of whose entries are known. -/
theorem eq_map_range_of_getElem? {n : ℕ} {vs : List β} {f : ℕ → β} (hlen : vs.length = n)
    (h : ∀ i < n, vs[i]? = some (f i)) : vs = (List.range n).map f := by
  refine List.ext_getElem? fun i => ?_
  rw [List.getElem?_map]
  rcases Nat.lt_or_ge i n with hi | hi
  · rw [h i hi, List.getElem?_range hi, Option.map_some]
  · rw [List.getElem?_eq_none (by omega), List.getElem?_eq_none (by rwa [List.length_range]),
      Option.map_none]

/-- Vectors of one length agree if their coordinates do. -/
theorem ext_of_getD {n : ℕ} {us vs : List β} (hu : us.length = n) (hv : vs.length = n) (d : β)
    (h : ∀ i < n, us.getD i d = vs.getD i d) : us = vs := by
  rw [eq_map_range_getD hu d, eq_map_range_getD hv d]
  exact List.map_congr_left fun i hi => h i (List.mem_range.mp hi)

end Coordinates

/-! ### Rows of a matrix -/

namespace Matrix

variable {α : Type}

theorem getElem?_cut (cols : ℕ) : ∀ (n i : ℕ) (vs : List α), i < n →
    (cut cols n vs)[i]? = some ((vs.drop (i * cols)).take cols)
  | n + 1, 0, vs, _ => by simp [cut]
  | n + 1, i + 1, vs, hi => by
    have hdrop : cols + i * cols = (i + 1) * cols := by rw [Nat.add_mul, Nat.one_mul, Nat.add_comm]
    rw [cut, List.getElem?_cons_succ, getElem?_cut cols n i _ (by omega), List.drop_drop, hdrop]

theorem getElem?_rowList (m : Matrix α) {i : ℕ} (hi : i < m.rows) :
    m.rowList[i]? = some (m.row i) :=
  getElem?_cut m.cols m.rows i m.values hi

theorem getD_rowList (m : Matrix α) {i : ℕ} (hi : i < m.rows) :
    m.rowList.getD i [] = m.row i := by
  rw [List.getD_eq_getElem?_getD, m.getElem?_rowList hi, Option.getD_some]

theorem rowList_eq_map (m : Matrix α) : m.rowList = (List.range m.rows).map m.row := by
  rw [eq_map_range_getD m.length_rowList []]
  exact List.map_congr_left fun i hi => m.getD_rowList (List.mem_range.mp hi)

theorem mem_rowList {m : Matrix α} {v : List α} : v ∈ m.rowList ↔ ∃ i < m.rows, m.row i = v := by
  simp [rowList_eq_map]

theorem full_ofRows {cols : ℕ} {rows : List (List α)} (h : ∀ v ∈ rows, v.length = cols) :
    (ofRows cols rows).Full := by
  show rows.flatten.length = rows.length * cols
  rw [List.length_flatten, List.map_congr_left h, List.map_const', List.sum_replicate_nat]

theorem length_row {m : Matrix α} (hm : m.Full) {i : ℕ} (hi : i < m.rows) :
    (m.row i).length = m.cols := by
  have hle : (i + 1) * m.cols ≤ m.rows * m.cols := Nat.mul_le_mul_right _ hi
  rw [Nat.add_mul, Nat.one_mul] at hle
  rw [row, List.length_take, List.length_drop, hm]
  omega

theorem length_of_mem_rowList {m : Matrix α} (hm : m.Full) :
    ∀ v ∈ m.rowList, v.length = m.cols := by
  intro v hv
  obtain ⟨i, hi, rfl⟩ := mem_rowList.mp hv
  exact length_row hm hi

theorem flatten_cut {cols : ℕ} : ∀ (n : ℕ) (vs : List α), vs.length = n * cols →
    (cut cols n vs).flatten = vs
  | 0, vs, h => by
    rw [Nat.zero_mul] at h
    rw [List.eq_nil_of_length_eq_zero h]
    rfl
  | n + 1, vs, h => by
    have hdrop : (vs.drop cols).length = n * cols := by
      rw [List.length_drop, h, Nat.add_mul, Nat.one_mul, Nat.add_sub_cancel]
    rw [cut, List.flatten_cons, flatten_cut n _ hdrop, List.take_append_drop]

theorem cut_append (cols : ℕ) : ∀ (a b : ℕ) {xs : List α} (ys : List α), xs.length = a * cols →
    cut cols (a + b) (xs ++ ys) = cut cols a xs ++ cut cols b ys
  | 0, b, xs, ys, h => by
    rw [Nat.zero_mul] at h
    rw [List.eq_nil_of_length_eq_zero h, Nat.zero_add]
    rfl
  | a + 1, b, xs, ys, h => by
    have hle : cols ≤ xs.length := by
      rw [h]
      exact Nat.le_mul_of_pos_left cols (Nat.succ_pos a)
    have hdrop : (xs.drop cols).length = a * cols := by
      rw [List.length_drop, h, Nat.succ_mul, Nat.add_sub_cancel]
    rw [Nat.succ_add, cut, cut, List.take_append_of_le_length hle,
      List.drop_append_of_le_length hle, cut_append cols a b ys hdrop, List.cons_append]

/-- A full matrix is put together from its rows. -/
theorem ofRows_rowList {m : Matrix α} (hm : m.Full) : ofRows m.cols m.rowList = m := by
  rw [ofRows, length_rowList, rowList, flatten_cut m.rows m.values hm]

theorem row_ofRows {cols : ℕ} {rows : List (List α)} (h : ∀ v ∈ rows, v.length = cols) {i : ℕ}
    {v : List α} (hv : rows[i]? = some v) : (ofRows cols rows).row i = v := by
  have hi : i < rows.length := (List.getElem?_eq_some_iff.mp hv).1
  have hget := (ofRows cols rows).getElem?_rowList hi
  rw [rowList_ofRows h, hv] at hget
  exact (Option.some.inj hget).symm

theorem ext_of_row {m m' : Matrix α} (hm : m.Full) (hm' : m'.Full) (hrows : m.rows = m'.rows)
    (hcols : m.cols = m'.cols) (h : ∀ i < m.rows, m.row i = m'.row i) : m = m' := by
  have hlist : m.rowList = m'.rowList := by
    rw [rowList_eq_map, rowList_eq_map, ← hrows]
    exact List.map_congr_left fun i hi => h i (List.mem_range.mp hi)
  rw [← ofRows_rowList hm, ← ofRows_rowList hm', hlist, hcols]

/-- Data and centroids of one width, both with all their values. -/
structure Fits (x c : Matrix α) : Prop where
  full : x.Full
  full_centroids : c.Full
  cols : c.cols = x.cols

end Matrix

end Clustering
