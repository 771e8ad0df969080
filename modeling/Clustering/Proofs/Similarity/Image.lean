import Clustering.Proofs.Exact
import Clustering.Proofs.Seeding.Starts

/-!
# Images under a similarity

A similarity changes unit and origin of the data, and the unit of the weights.  In exact arithmetic
it multiplies every squared distance by the square of the change of unit (`sqDist_vector`), so that
nearest centroids keep their labels (`among_vector`).  The image of a matrix is made row by row, and
picking rows commutes with it (`pick_matrix`).
-/

namespace Clustering

/-- A change of the unit, of the origin, and of the unit of the weights. -/
structure Similarity (K : Type) [ExactScalar K] where
  scale : K
  /-- The new coordinates of the old origin. -/
  offset : ℕ → K
  factor : K
  scale_ne : scale ≠ 0
  factor_pos : 0 < factor

namespace Similarity

variable {K : Type} [ExactScalar K] (T : Similarity K)

/-- What squared distances are multiplied by. -/
def area : K := T.scale * T.scale

/-- What weighted squared distances are multiplied by. -/
def error : K := T.factor * T.area

theorem area_pos : 0 < T.area := mul_self_pos.mpr T.scale_ne

theorem factor_mul_nonpos {a : K} : T.factor * a ≤ 0 ↔ a ≤ 0 := by
  rw [← not_lt, ← not_lt, mul_pos_iff_of_pos_left T.factor_pos]

theorem error_pos : 0 < T.error := mul_pos T.factor_pos T.area_pos

/-! ### Vectors -/

/-- The image of a vector. -/
def vector (v : List K) : List K := v.mapIdx fun i a => T.scale * a + T.offset i

@[simp] theorem length_vector (v : List K) : (T.vector v).length = v.length := List.length_mapIdx

theorem getD_vector {v : List K} {i : ℕ} (hi : i < v.length) :
    (T.vector v).getD i 0 = T.scale * v.getD i 0 + T.offset i := by
  simp [vector, hi]

theorem sqDist_vector {dim : ℕ} {a b : List K} (ha : a.length = dim) (hb : b.length = dim) :
    sqDist (T.vector a) (T.vector b) = T.area * sqDist a b := by
  have ha' : (T.vector a).length = dim := (T.length_vector a).trans ha
  have hb' : (T.vector b).length = dim := (T.length_vector b).trans hb
  rw [sqDist_eq_sum ha' hb', sqDist_eq_sum ha hb, Finset.mul_sum]
  refine Finset.sum_congr rfl fun i hi => ?_
  rw [Finset.mem_range] at hi
  rw [T.getD_vector (ha.symm ▸ hi), T.getD_vector (hb.symm ▸ hi), area]
  ring

/-! ### Matrices -/

/-- The image of a matrix, row by row. -/
def matrix (m : Matrix K) : Matrix K := .ofRows m.cols (m.rowList.map T.vector)

@[simp] theorem rows_matrix (m : Matrix K) : (T.matrix m).rows = m.rows := by
  simp [matrix, Matrix.ofRows]

@[simp] theorem cols_matrix (m : Matrix K) : (T.matrix m).cols = m.cols := rfl

section Full

variable {m : Matrix K} (hm : m.Full)
include hm

theorem length_of_mem_map_vector : ∀ v ∈ m.rowList.map T.vector, v.length = m.cols := by
  intro v hv
  obtain ⟨u, hu, rfl⟩ := List.mem_map.mp hv
  rw [length_vector, Matrix.length_of_mem_rowList hm u hu]

theorem full_matrix : (T.matrix m).Full := Matrix.full_ofRows (T.length_of_mem_map_vector hm)

theorem rowList_matrix : (T.matrix m).rowList = m.rowList.map T.vector :=
  Matrix.rowList_ofRows (T.length_of_mem_map_vector hm)

theorem row_matrix {i : ℕ} (hi : i < m.rows) : (T.matrix m).row i = T.vector (m.row i) := by
  have hget := (T.matrix m).getElem?_rowList (by rwa [rows_matrix])
  rw [T.rowList_matrix hm, List.getElem?_map, m.getElem?_rowList hi] at hget
  exact (Option.some.inj hget).symm

/-- A matrix is the image if its rows are the images of the rows. -/
theorem eq_matrix {m' : Matrix K} (hm' : m'.Full) (hrows : m'.rows = m.rows)
    (hcols : m'.cols = m.cols) (h : ∀ i < m.rows, m'.row i = T.vector (m.row i)) :
    m' = T.matrix m := by
  refine Matrix.ext_of_row hm' (T.full_matrix hm) (hrows.trans (T.rows_matrix m).symm) hcols ?_
  intro i hi
  rw [hrows] at hi
  rw [h i hi, T.row_matrix hm hi]

theorem pick_matrix {indices : List ℕ} (h : ∀ i ∈ indices, i < m.rows) :
    (T.matrix m).pick indices = T.matrix (m.pick indices) := by
  have hlength : ∀ v ∈ indices.map m.row, v.length = m.cols := by
    intro v hv
    obtain ⟨i, hi, rfl⟩ := List.mem_map.mp hv
    exact Matrix.length_row hm (h i hi)
  have hrows : T.matrix (.ofRows m.cols (indices.map m.row)) =
      .ofRows m.cols ((indices.map m.row).map T.vector) := by
    rw [matrix, Matrix.rowList_ofRows hlength]
    rfl
  rw [Matrix.pick_eq, Matrix.pick_eq, hrows, List.map_map, cols_matrix]
  refine congrArg (Matrix.ofRows m.cols) (List.map_congr_left fun i hi => ?_)
  exact T.row_matrix hm (h i hi)

end Full

theorem fits_matrix {x c : Matrix K} (h : x.Fits c) : (T.matrix x).Fits (T.matrix c) :=
  ⟨T.full_matrix h.full, T.full_matrix h.full_centroids, h.cols⟩

/-! ### Nearest centroids -/

/-- The image of an answer: the same label, at the distance in the new unit. -/
def nearest (n : Nearest K) : Nearest K := ⟨n.label, T.area * n.dist⟩

theorem sqDist_row {c : Matrix K} (hc : c.Full) {v : List K} (hv : v.length = c.cols) {j : ℕ}
    (hj : j < c.rows) :
    sqDist (T.vector v) ((T.matrix c).row j) = T.area * sqDist v (c.row j) := by
  rw [T.row_matrix hc hj]
  exact T.sqDist_vector hv (Matrix.length_row hc hj)

theorem firstNearest_vector {c : Matrix K} (hc : c.Full) {v : List K} (hv : v.length = c.cols)
    {j : ℕ} (h : (T.matrix c).FirstNearest (T.vector v) j) : c.FirstNearest v j := by
  obtain ⟨hj, hleast⟩ := h
  rw [rows_matrix] at hj hleast
  refine ⟨hj, fun i hi => ?_⟩
  have h := hleast i hi
  rw [T.sqDist_row hc hv hi, T.sqDist_row hc hv hj, mul_le_mul_iff_right₀ T.area_pos,
    mul_lt_mul_iff_right₀ T.area_pos] at h
  exact h

end Similarity

/-- There is only one first nearest centroid. -/
theorem Matrix.FirstNearest.unique {K : Type} [ExactScalar K] {c : Matrix K} {v : List K}
    {i j : ℕ} (hi : c.FirstNearest v i) (hj : c.FirstNearest v j) : i = j := by
  rcases Nat.lt_trichotomy i j with h | h | h
  · exact absurd ((hj.2 i hi.1).2 h) (not_lt.mpr (hi.2 j hj.1).1)
  · exact h
  · exact absurd ((hi.2 j hj.1).2 h) (not_lt.mpr (hj.2 i hi.1).1)

namespace Similarity

variable {K : Type} [ExactScalar K] (T : Similarity K)

theorem among_vector {c : Matrix K} (hc : c.Full) (hpos : 0 < c.rows) {v : List K}
    (hv : v.length = c.cols) :
    Nearest.among (T.matrix c).rowList (T.vector v) = T.nearest (Nearest.among c.rowList v) := by
  obtain ⟨hfirst, hdist⟩ := Nearest.among_spec c hpos v
  obtain ⟨hfirst', hdist'⟩ := Nearest.among_spec (T.matrix c) (by rwa [rows_matrix]) (T.vector v)
  have hlabel := (T.firstNearest_vector hc hv hfirst').unique hfirst
  rw [hlabel, T.sqDist_row hc hv hfirst.1, ← hdist] at hdist'
  generalize Nearest.among (T.matrix c).rowList (T.vector v) = n at hlabel hdist'
  obtain ⟨label, dist⟩ := n
  rw [nearest]
  exact congrArg₂ Nearest.mk hlabel hdist'

theorem answers_matrix (e : Kernel) {x c : Matrix K} (h : x.Fits c) (hpos : 0 < c.rows) :
    e.answers (T.matrix x) (T.matrix c) = (e.answers x c).map T.nearest := by
  rw [e.answers_exact (T.fits_matrix h), e.answers_exact h, T.rowList_matrix h.full, List.map_map,
    List.map_map]
  refine List.map_congr_left fun v hv => ?_
  refine T.among_vector h.full_centroids hpos ?_
  rw [Matrix.length_of_mem_rowList h.full v hv, h.cols]

/-! ### Weights -/

/-- The weights of `n` rows in the new unit.  Where there were none they are all the new unit. -/
def weights (n : ℕ) (ws : Option (List K)) : Option (List K) :=
  some ((weightsFor ws n).map (T.factor * ·))

@[simp] theorem weightsFor_weights (n k : ℕ) (ws : Option (List K)) :
    weightsFor (T.weights n ws) k = (weightsFor ws n).map (T.factor * ·) := rfl

/-- The sum of products grows with both of its lists. -/
theorem total_zipWith_mul (a b : K) (us vs : List K) :
    total (List.zipWith (· * ·) (us.map (a * ·)) (vs.map (b * ·))) =
      a * b * total (List.zipWith (· * ·) us vs) := by
  rw [← total_map_mul, List.map_zipWith, List.zipWith_map]
  refine congrArg total (congrArg (List.zipWith · us vs) (funext₂ fun u v => ?_))
  ring

end Similarity

end Clustering
