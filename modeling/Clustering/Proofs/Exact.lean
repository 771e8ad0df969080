import Mathlib
import Clustering.Proofs.Rows
import Clustering.Proofs.FirstLeast

/-!
# Exact arithmetic

The scalars of an ordered field.  Sums may be taken in any order, a squared distance is a sum of
squares, and the expanded metric computes the same distances as the direct one
(`Metric.expandedBlock_eq`).  Hence for every metric a sweep answers each row with its first
nearest centroid (`Kernel.answers_exact`).
-/

namespace Clustering

/-- An ordered field, with whatever it offers for the operations that have no law here. -/
class ExactScalar (K : Type) extends Field K, LinearOrder K, IsStrictOrderedRing K where
  sqrt : K → K
  log : K → K
  infinity : K
  largest : K
  belowOne : K
  bytes : ℕ

/-- Rational numbers, on which runs can be evaluated.  They have neither a logarithm nor the bounds
of machine numbers; zero stands in for these. -/
instance : ExactScalar ℚ where
  sqrt := Rat.sqrt
  log _ := 0
  infinity := 0
  largest := 0
  belowOne := 0
  bytes := 8

/-- Real numbers.  The bounds are those of double precision; zero stands in for infinity, which
nothing is compared with. -/
noncomputable instance : ExactScalar ℝ where
  sqrt := Real.sqrt
  log := Real.log
  infinity := 0
  largest := ((2 ^ 53 - 1) * 2 ^ 971 : ℕ)
  belowOne := 1 - ((2 ^ 53 : ℕ) : ℝ)⁻¹
  bytes := 8

/-- Every number is finite, and every number is below infinity. -/
instance {K : Type} [ExactScalar K] : Scalar K where
  toZero := inferInstance
  toOne := inferInstance
  toNatCast := inferInstance
  toAdd := inferInstance
  toSub := inferInstance
  toMul := inferInstance
  toDiv := inferInstance
  toNeg := inferInstance
  toLT := inferInstance
  toLE := inferInstance
  decLt := inferInstance
  decLe := inferInstance
  sqrt := ExactScalar.sqrt
  log := ExactScalar.log
  infinity := ExactScalar.infinity
  belowInfinity _ := true
  isFinite _ := true
  largest := ExactScalar.largest
  belowOne := ExactScalar.belowOne
  bytes := ExactScalar.bytes K

/-- Totals are kept in the same numbers. -/
instance {K : Type} [ExactScalar K] : Widening K K := ⟨fun v => v, fun v => v⟩

instance {K : Type} [ExactScalar K] : BlockProduct K := .plain K

instance {K : Type} [ExactScalar K] : Scalar.Ordered K where
  asymm := lt_asymm
  lt_or_lt {_ v _} _ h := (lt_or_ge _ v).imp_right fun hv => hv.trans_lt h
  lt_infinity _ h := nomatch h

variable {K : Type} [ExactScalar K]

theorem total_eq_sum (vs : List K) : total vs = vs.sum := by
  rw [total, List.sum_eq_foldl]

theorem total_pos_iff {ms : List K} (hm : ∀ m ∈ ms, 0 ≤ m) : 0 < total ms ↔ ∃ m ∈ ms, 0 < m := by
  rw [total_eq_sum]
  constructor
  · intro hsum
    by_contra hnone
    have hzero : ms.sum = 0 := by
      refine List.sum_eq_zero fun m hmem => le_antisymm (not_lt.mp fun hpos => ?_) (hm m hmem)
      exact hnone ⟨m, hmem, hpos⟩
    exact absurd hsum (not_lt.mpr hzero.le)
  · rintro ⟨m, hmem, hpos⟩
    exact hpos.trans_le (List.single_le_sum hm m hmem)

theorem total_map_mul (a : K) (vs : List K) : total (vs.map (a * ·)) = a * total vs := by
  rw [total_eq_sum, total_eq_sum, List.sum_map_mul_left, List.map_id']

theorem foldl_add : ∀ (s : K) (vs : List K), vs.foldl (· + ·) s = s + vs.sum
  | s, [] => by simp
  | s, v :: vs => by rw [List.foldl_cons, foldl_add (s + v) vs, List.sum_cons, add_assoc]

theorem sum_map_range (f : ℕ → K) (n : ℕ) :
    ((List.range n).map f).sum = ∑ i ∈ Finset.range n, f i := rfl

@[simp] theorem map_widen (vs : List K) : vs.map (widen : K → K) = vs := List.map_id' vs

theorem rowWeights_eq (weights : Option (List K)) (n : ℕ) :
    (Oversampling.rowWeights weights n : List K) = weightsFor weights n := by
  cases weights with
  | none => rfl
  | some ws => exact map_widen ws

theorem Seeding.proportional_exact {σ : Type} [Source σ K] (mass : List K) :
    (proportional mass : Seeding σ K ℕ) =
      if 0 < total mass then pick mass else index (lastIndex mass.length) := by
  unfold proportional
  rw [map_widen]

/-! ### Squared distances -/

section Distance

variable {dim : ℕ} {a b : List K}

theorem sqDist_eq_sum (ha : a.length = dim) (hb : b.length = dim) :
    sqDist a b = ∑ i ∈ Finset.range dim, (a.getD i 0 - b.getD i 0) * (a.getD i 0 - b.getD i 0) := by
  rw [sqDist, zipWith_eq_map_range _ ha hb 0 0, total_eq_sum, sum_map_range]

theorem dot_eq_sum (ha : a.length = dim) (hb : b.length = dim) :
    dot a b = ∑ i ∈ Finset.range dim, a.getD i 0 * b.getD i 0 := by
  rw [dot, zipWith_eq_map_range _ ha hb 0 0, total_eq_sum, sum_map_range]

theorem sqNorm_eq_sum (ha : a.length = dim) :
    sqNorm a = ∑ i ∈ Finset.range dim, a.getD i 0 * a.getD i 0 := by
  rw [sqNorm, eq_map_range_getD ha 0, List.map_map, total_eq_sum]
  refine (sum_map_range _ _).trans (Finset.sum_congr rfl fun i hi => ?_)
  rw [Finset.mem_range] at hi
  simp [hi]

theorem sqDist_nonneg (a b : List K) : 0 ≤ sqDist a b := by
  rw [sqDist, total_eq_sum]
  refine List.sum_nonneg fun v hv => ?_
  obtain ⟨i, hi, rfl⟩ := List.mem_iff_getElem.mp hv
  rw [List.getElem_zipWith]
  exact mul_self_nonneg _

theorem sqDist_self (a : List K) : sqDist a a = 0 := by
  simp [sqDist, total_eq_sum, List.zipWith_self]

theorem eq_of_sqDist_eq_zero (ha : a.length = dim) (hb : b.length = dim)
    (h : sqDist a b = 0) : a = b := by
  rw [sqDist_eq_sum ha hb, Finset.sum_eq_zero_iff_of_nonneg fun i _ => mul_self_nonneg _] at h
  refine ext_of_getD ha hb 0 fun i hi => ?_
  exact sub_eq_zero.mp (mul_self_eq_zero.mp (h i (Finset.mem_range.mpr hi)))

/-- The squared distance from norms and an inner product. -/
theorem expanded_sqDist (ha : a.length = dim) (hb : b.length = dim) :
    -((2 : ℕ) : K) * dot a b + sqNorm a + sqNorm b = sqDist a b := by
  rw [dot_eq_sum ha hb, sqNorm_eq_sum ha, sqNorm_eq_sum hb, sqDist_eq_sum ha hb, Finset.mul_sum,
    ← Finset.sum_add_distrib, ← Finset.sum_add_distrib]
  refine Finset.sum_congr rfl fun i _ => ?_
  push_cast
  ring

end Distance

/-- The two metrics compute the same squared distances. -/
theorem Metric.expandedBlock_eq {dim : ℕ} {xs cs : List (List K)}
    (hxs : ∀ v ∈ xs, v.length = dim) (hcs : ∀ v ∈ cs, v.length = dim) :
    expandedBlock xs cs = directBlock xs cs := by
  show List.zipWith _ xs (xs.map fun x => cs.map fun c => -((2 : ℕ) : K) * dot x c) = _
  rw [List.zipWith_map_right, List.zipWith_self, directBlock]
  refine List.map_congr_left fun x hx => ?_
  rw [List.zipWith_map, List.zipWith_self]
  refine List.map_congr_left fun c hc => ?_
  rw [expanded_sqDist (hxs x hx) (hcs c hc), liftNegative, if_neg (not_lt.mpr (sqDist_nonneg x c))]

/-! ### Sweeps -/

namespace Kernel

theorem block_exact (e : Kernel) {dim : ℕ} {xs cs : List (List K)}
    (hxs : ∀ v ∈ xs, v.length = dim) (hcs : ∀ v ∈ cs, v.length = dim) :
    e.metric.block xs cs = Metric.directBlock xs cs := by
  rw [Metric.block]
  split_ifs
  · exact Metric.expandedBlock_eq hxs hcs
  · rfl

/-- In each batch and tile of data and centroids that fit, the metrics agree. -/
theorem block_of_fits (e : Kernel) {x c : Matrix K} (h : x.Fits c) {xs : List (List K)}
    (hxs : xs ∈ Batch.deal (e.batches x.rows) x.rowList) {t : Batch × List (List K)}
    (ht : t ∈ e.tiled c.rowList) : e.metric.block xs t.2 = Metric.directBlock xs t.2 := by
  have hrows : ∀ v ∈ xs, v.length = c.cols := by
    intro v hv
    rw [h.cols]
    exact Matrix.length_of_mem_rowList h.full v (Batch.mem_of_mem_deal hxs hv)
  have hcentroids : ∀ v ∈ t.2, v.length = c.cols := by
    intro v hv
    exact Matrix.length_of_mem_rowList h.full_centroids v
      (Batch.mem_of_mem_deal (List.of_mem_zip ht).2 hv)
  exact e.block_exact hrows hcentroids

/-- For every metric and in batches and tiles of any size each row is answered with its first
nearest centroid. -/
theorem answers_exact (e : Kernel) {x c : Matrix K} (h : x.Fits c) :
    e.answers x c = x.rowList.map (Nearest.among c.rowList) :=
  e.answers_eq_map x c fun _ hxs _ ht => e.block_of_fits h hxs ht

end Kernel

/-! ### The first nearest centroid -/

/-- A centroid that is as near to a vector as any other, and nearer than all before it. -/
def Matrix.FirstNearest (c : Matrix K) (v : List K) (j : ℕ) : Prop :=
  j < c.rows ∧ ∀ i < c.rows, sqDist v (c.row j) ≤ sqDist v (c.row i) ∧
    (i < j → sqDist v (c.row j) < sqDist v (c.row i))

theorem Nearest.among_spec (c : Matrix K) (hc : 0 < c.rows) (v : List K) :
    c.FirstNearest v (among c.rowList v).label ∧
      (among c.rowList v).dist = sqDist v (c.row (among c.rowList v).label) := by
  have hne : c.rowList.map (sqDist v) ≠ [] := by
    rw [ne_eq, List.map_eq_nil_iff, ← List.length_eq_zero_iff, Matrix.length_rowList]
    omega
  have hleast := Lead.scan_firstLeast hne fun _ _ => Or.inl rfl
  have hget : ∀ i < c.rows, (c.rowList.map (sqDist v))[i]? = some (sqDist v (c.row i)) := by
    intro i hi
    rw [List.getElem?_map, c.getElem?_rowList hi, Option.map_some]
  have hlt : (among c.rowList v).label < c.rows := by
    have := hleast.lt_length
    rwa [List.length_map, Matrix.length_rowList] at this
  have hdist : (among c.rowList v).dist = sqDist v (c.row (among c.rowList v).label) := by
    have := hleast.get.symm.trans (hget _ hlt)
    rwa [Option.some.injEq] at this
  refine ⟨⟨hlt, fun i hi => ?_⟩, hdist⟩
  rw [← hdist]
  exact ⟨not_lt.mp (hleast.least (hget i hi)), hleast.first (hget i hi)⟩

end Clustering
