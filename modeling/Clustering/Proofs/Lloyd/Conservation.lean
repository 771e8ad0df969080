import Clustering.Proofs.Lloyd.Descent
import Clustering.Proofs.Lloyd.Textbook

/-!
# Conservation of weight

Every row adds its weight, and its weighted coordinates, to the one cluster whose label it carries.
So in exact arithmetic a sum over the rows is one over the members of all clusters, however the rows
are dealt out and labelled (`Kernel.sum_map_members`): the clusters of a tally hold the weight of
the rows and their weighted sum, and the centroids of the clusters with weight carry this sum on
(`Kernel.sum_moved`).  Where rows have weight, some cluster has, and moves.

`Conserves` says all of this of one iteration (`Refiner.conserves_of_iterate`), and `Conserving` of
every iteration of a run (`Refiner.conserving_of_run`).
-/

namespace Clustering

variable {K : Type} [ExactScalar K]

/-- The weighted sum of a column. -/
def Matrix.weightedSum (x : Matrix K) (ws : List K) (i : ℕ) : K :=
  ∑ r ∈ Finset.range x.rows, ws.getD r 0 * (x.row r).getD i 0

/-! ### Sums over the members of clusters -/

namespace WeightedRows

theorem getD_moment {dim i : ℕ} (hi : i < dim) (ms : WeightedRows K) :
    (moment dim ms).getD i 0 = (ms.map fun p => p.2 * p.1.getD i 0).sum := by
  rw [moment, getD_map_range _ _ hi, total_eq_sum]

/-- Rows that have no weight together have no weight. -/
theorem weight_eq_zero_of_mass {ms : WeightedRows K} (hms : ∀ p ∈ ms, 0 ≤ p.2)
    (hmass : mass ms ≤ 0) : ∀ p ∈ ms, p.2 = 0 := by
  have hnonneg : ∀ w ∈ ms.map (·.2), 0 ≤ w := List.forall_mem_map.mpr hms
  intro p hp
  refine le_antisymm (not_lt.mp fun hpos => ?_) (hms p hp)
  have htotal := (total_pos_iff hnonneg).mpr ⟨p.2, List.mem_map_of_mem hp, hpos⟩
  exact absurd hmass (not_le.mpr htotal)

end WeightedRows

namespace Kernel

section Weighted

variable {x : Matrix K} {weights : Option (List K)} (hlen : ∀ ws ∈ weights, ws.length = x.rows)
include hlen

theorem sum_map_weight_weighted :
    ((weighted x weights).map (·.2)).sum = (weightsFor weights x.rows).sum := by
  have hle : (weightsFor weights x.rows).length ≤ x.rowList.length := by
    rw [length_weightsFor hlen, Matrix.length_rowList]
  rw [weighted, List.map_snd_zip hle]

theorem sum_map_column_weighted (i : ℕ) :
    ((weighted x weights).map fun p => p.2 * p.1.getD i 0).sum =
      x.weightedSum (weightsFor weights x.rows) i := by
  rw [weighted, List.map_zip_eq_zipWith,
    zipWith_eq_map_range _ x.length_rowList (length_weightsFor hlen) [] 0, sum_map_range]
  refine Finset.sum_congr rfl fun r hr => ?_
  rw [x.getD_rowList (Finset.mem_range.mp hr)]
  rfl

end Weighted

variable (e : Kernel) {x c : Matrix K} {weights : Option (List K)}

/-- Each row is a member of one cluster. -/
theorem sum_map_members (h : x.Fits c) (hc : 0 < c.rows) (f : List K × K → K) :
    ∑ j ∈ Finset.range c.rows, ((e.members x weights c j).map f).sum =
      ((weighted x weights).map f).sum := by
  rw [sum_map_eq_sum_labels (fun p => labelOf c p.1) f _
    fun p _ => (Nearest.among_spec c hc p.1).1.1]
  exact Finset.sum_congr rfl fun j _ => by rw [e.members_exact weights h]

section Tally

variable (h : Sound x weights c) (hlen : ∀ ws ∈ weights, ws.length = x.rows)
include h hlen

/-- The weights of the clusters sum to the weight of the rows. -/
theorem sum_weights_tally :
    (e.tally x weights c).weights.sum = (weightsFor weights x.rows).sum := by
  rw [weights_tally_eq_map, sum_map_range]
  simp only [WeightedRows.mass_eq_sum]
  rw [e.sum_map_members h.fits h.nonempty, sum_map_weight_weighted hlen]

/-- The row sums of the clusters sum to the weighted sum of the rows. -/
theorem sum_sums_tally {i : ℕ} (hi : i < x.cols) :
    ((e.tally x weights c).sums.map (·.getD i 0)).sum =
      x.weightedSum (weightsFor weights x.rows) i := by
  rw [e.sums_tally_eq_map x weights c (Matrix.length_of_mem_rowList h.fits.full), List.map_map,
    sum_map_range, ← sum_map_column_weighted hlen, ← e.sum_map_members h.fits h.nonempty]
  exact Finset.sum_congr rfl fun j _ => WeightedRows.getD_moment hi _

omit hlen in
/-- The weight of a cluster times its new centroid is the weighted sum of its members; without
weight both are nothing. -/
theorem weight_mul_row_update {i j : ℕ} (hi : i < x.cols) (hj : j < c.rows) :
    (if 0 < (e.tally x weights c).weights.getD j 0 then
        (e.tally x weights c).weights.getD j 0 * ((e.update x weights c).row j).getD i 0
      else 0) = ((e.members x weights c j).map fun p => p.2 * p.1.getD i 0).sum := by
  rw [e.getD_weights_tally hj]
  split_ifs with hmass
  · rw [e.row_update x weights c h.fits hj, if_neg (not_le.mpr hmass), WeightedRows.getD_mean hi,
      mul_div_cancel₀ _ hmass.ne']
  · have hzero := WeightedRows.weight_eq_zero_of_mass (e.nonneg_of_mem_members h j)
      (not_lt.mp hmass)
    refine (List.sum_eq_zero fun v hv => ?_).symm
    obtain ⟨p, hp, rfl⟩ := List.mem_map.mp hv
    rw [hzero p hp, zero_mul]

/-- The centroids of the clusters with weight, each times its weight, sum to the weighted sum of the
rows. -/
theorem sum_moved {i : ℕ} (hi : i < x.cols) :
    ∑ j ∈ Finset.range c.rows with 0 < (e.tally x weights c).weights.getD j 0,
        (e.tally x weights c).weights.getD j 0 * ((e.update x weights c).row j).getD i 0 =
      x.weightedSum (weightsFor weights x.rows) i := by
  rw [Finset.sum_filter]
  calc _ = ∑ j ∈ Finset.range c.rows,
          ((e.members x weights c j).map fun p => p.2 * p.1.getD i 0).sum :=
        Finset.sum_congr rfl fun j hj => e.weight_mul_row_update h hi (Finset.mem_range.mp hj)
    _ = ((weighted x weights).map fun p => p.2 * p.1.getD i 0).sum :=
        e.sum_map_members h.fits h.nonempty _
    _ = x.weightedSum (weightsFor weights x.rows) i := sum_map_column_weighted hlen i

/-- Where rows have weight, some cluster has weight. -/
theorem exists_weight_pos (hpos : 0 < (weightsFor weights x.rows).sum) :
    ∃ j < c.rows, 0 < (e.tally x weights c).weights.getD j 0 := by
  rw [← e.sum_weights_tally h hlen, ← total_eq_sum] at hpos
  obtain ⟨w, hw, hwpos⟩ := (total_pos_iff (e.weights_tally_nonneg h)).mp hpos
  rw [weights_tally_eq_map] at hw
  obtain ⟨j, hj, rfl⟩ := List.mem_map.mp hw
  rw [List.mem_range] at hj
  exact ⟨j, hj, by rwa [e.getD_weights_tally hj]⟩

end Tally

section Weight

variable {j : ℕ} (hj : j < c.rows) (hpos : 0 < (e.tally x weights c).weights.getD j 0)
include hj hpos

theorem emptyClusters_lt : (e.tally x weights c).emptyClusters < c.rows := by
  rw [e.getD_weights_tally hj] at hpos
  rw [emptyClusters_tally]
  conv_rhs => rw [← List.length_range (n := c.rows)]
  exact List.countP_lt_length_iff.mpr
    ⟨j, List.mem_range.mpr hj, decide_eq_false (not_le.mpr hpos)⟩

/-- A cluster with weight moves to its row sum, divided by its weight. -/
theorem row_update_of_weight (h : x.Fits c) :
    (e.update x weights c).row j = ((e.tally x weights c).sums.getD j []).map
      (· / (e.tally x weights c).weights.getD j 0) := by
  rw [e.getD_weights_tally hj] at hpos ⊢
  rw [e.row_update x weights c h hj, if_neg (not_le.mpr hpos), List.getD_eq_getElem?_getD,
    e.sums_tally x weights c hj (Matrix.length_of_mem_rowList h.full), Option.getD_some]
  rfl

end Weight

end Kernel

/-! ### Iterations and runs -/

/-- What an iteration from the centroids `c`, with the tally `t`, conserves of weighted rows. -/
structure Conserves (x : Matrix K) (weights : Option (List K)) (c : Matrix K) (t : Tally K)
    (s : Stride K K) : Prop where
  weights_eq : t.weights.sum = (weightsFor weights x.rows).sum
  sums_eq : ∀ i < x.cols,
    (t.sums.map (·.getD i 0)).sum = x.weightedSum (weightsFor weights x.rows) i
  /-- The centroids of the clusters with weight carry on the weighted sum of the rows. -/
  centroids_eq : ∀ i < x.cols,
    ∑ j ∈ Finset.range c.rows with 0 < t.weights.getD j 0,
        t.weights.getD j 0 * (s.centroids.row j).getD i 0 =
      x.weightedSum (weightsFor weights x.rows) i
  empty_lt : 0 < (weightsFor weights x.rows).sum → s.record.emptyClusters < c.rows
  /-- Some centroid is computed anew. -/
  recomputed : 0 < (weightsFor weights x.rows).sum → ∃ j < c.rows, 0 < t.weights.getD j 0 ∧
    s.centroids.row j = (t.sums.getD j []).map (· / t.weights.getD j 0)

/-- The refiner goes from `start` to the result, and conserves the weight of rows that have weight:
each iteration starts from the centroids of the one before, is recorded, and finds a cluster with
weight. -/
structure Conserving [Memory] (r : Refiner K) (x : Matrix K) (weights : Option (List K))
    (start : Matrix K) (res : Refined K K) : Prop where
  run : (r.run x weights start).1 = .ok res
  weight_pos : 0 < (weightsFor weights x.rows).sum
  empty_lt : ∀ it ∈ res.history, it.emptyClusters < start.rows
  steps : ∃ c : ℕ → Matrix K, c 0 = start ∧ c res.iterations = res.centroids ∧
    res.history.length = res.iterations ∧
      ∀ t < res.iterations, ∃ sweep s, r.kernel.sweep x (c t) = .ok sweep ∧
        r.iterate x weights (t + 1) (c t) = .ok s ∧ s.centroids = c (t + 1) ∧
        res.history[t]? = some s.record ∧
        Conserves x weights (c t) (.ofSweep (c t).rows x.cols x.rowList weights sweep) s

namespace Refiner

variable [Memory] {r : Refiner K} {x : Matrix K} {weights : Option (List K)}
  (hlen : ∀ ws ∈ weights, ws.length = x.rows) (hw : ∀ ws ∈ weights, ∀ w ∈ ws, 0 ≤ w)
include hlen hw

/-- Every iteration conserves weight. -/
theorem conserves_of_iterate {c : Matrix K} (hfits : x.Fits c) {number : ℕ} {s : Stride K K}
    (hs : r.iterate x weights number c = .ok s) :
    ∃ sweep, r.kernel.sweep x c = .ok sweep ∧
      Conserves x weights c (.ofSweep c.rows x.cols x.rowList weights sweep) s := by
  obtain ⟨hadm, rfl⟩ := eq_of_iterate hs
  have h : Kernel.Sound x weights c := ⟨hfits, Kernel.rows_pos_of_admission hadm, hw⟩
  have hsweep : r.kernel.sweep x c = .ok (r.kernel.delivered x c) := by
    rw [Kernel.sweep_eq, hadm]
    rfl
  refine ⟨r.kernel.delivered x c, hsweep, r.kernel.sum_weights_tally h hlen,
    fun _ hi => r.kernel.sum_sums_tally h hlen hi, fun _ hi => r.kernel.sum_moved h hlen hi,
    fun hpos => ?_, fun hpos => ?_⟩
  · obtain ⟨j, hj, hweight⟩ := r.kernel.exists_weight_pos h hlen hpos
    exact r.kernel.emptyClusters_lt hj hweight
  · obtain ⟨j, hj, hweight⟩ := r.kernel.exists_weight_pos h hlen hpos
    exact ⟨j, hj, hweight, r.kernel.row_update_of_weight hj hweight hfits⟩

/-- Every run conserves weight. -/
theorem conserving_of_run {start : Matrix K} (hfits : x.Fits start)
    (hpos : 0 < (weightsFor weights x.rows).sum) {res : Refined K K}
    (h : (r.run x weights start).1 = .ok res) : Conserving r x weights start res := by
  obtain ⟨hadm, m, phase, -, rfl⟩ := r.eq_outcome_of_run x weights start h
  refine ⟨h, hpos, fun it hit => ?_, r.kernel.orbit x weights start, rfl, rfl,
    r.length_historyFrom .., fun t ht => ?_⟩
  · obtain ⟨t, -, rfl⟩ := List.mem_map.mp hit
    have hsound := (sound_of_admission hfits.full hfits.full_centroids hw hadm).orbit r.kernel t
    obtain ⟨j, hj, hweight⟩ := r.kernel.exists_weight_pos hsound hlen hpos
    exact (r.kernel.emptyClusters_lt hj hweight).trans_eq (r.kernel.rows_orbit x weights start t)
  · have hfits' := r.kernel.fits_orbit x weights start hfits t
    have hiterate := r.iterate_orbit x weights start hadm (t + 1) t
    obtain ⟨sweep, hsweep, hconserves⟩ := conserves_of_iterate hlen hw hfits' hiterate
    refine ⟨sweep, _, hsweep, hiterate, rfl, ?_, hconserves⟩
    rw [Nat.add_comm t 1]
    exact r.getElem?_historyFrom x weights 1 start ht

end Refiner

end Clustering
