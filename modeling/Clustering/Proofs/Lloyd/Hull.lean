import Clustering.Proofs.Lloyd.Descent

/-!
# Convex hulls

The mean of weighted rows is a convex combination of them (`WeightedRows.point_mean_mem`), so an
update moves a centroid into the convex hull of the data or leaves it where it is, and so does a
whole refinement (`Refiner.row_eq_or_inHull_of_run`).  In each column a vector of the hull lies
between the entries of two rows (`Matrix.InHull.between`).
-/

namespace Clustering

variable {K : Type} [ExactScalar K]

/-- A vector as a point of the space of all coordinates; beyond its length they are zero. -/
def point (v : List K) : ℕ → K := fun i => v.getD i 0

/-! ### Means -/

namespace WeightedRows

/-- The mean is the centre of mass. -/
theorem point_mean {dim : ℕ} {ms : WeightedRows K} (hms : ∀ p ∈ ms, p.1.length = dim) :
    point (mean dim ms) =
      Finset.univ.centerMass (fun i : Fin ms.length => ms[i].2) fun i => point ms[i].1 := by
  have hmass : ∑ i : Fin ms.length, ms[i].2 = mass ms := by
    rw [mass_eq_sum]
    exact Fin.sum_univ_fun_getElem ms fun p => p.2
  have hsum : ∀ j, ∑ i : Fin ms.length, ms[i].2 * point ms[i].1 j =
      (ms.map fun p => p.2 * p.1.getD j 0).sum := fun j =>
    Fin.sum_univ_fun_getElem ms fun p => p.2 * point p.1 j
  funext j
  rw [Finset.centerMass, hmass, Pi.smul_apply, Finset.sum_apply, smul_eq_mul]
  simp only [Pi.smul_apply, smul_eq_mul]
  rw [hsum, ← div_eq_inv_mul]
  rcases Nat.lt_or_ge j dim with hj | hj
  · exact getD_mean hj ms
  · -- beyond the width both sides are zero
    have hzero : (ms.map fun p => p.2 * p.1.getD j 0).sum = 0 := by
      refine List.sum_eq_zero fun v hv => ?_
      obtain ⟨p, hp, rfl⟩ := List.mem_map.mp hv
      rw [List.getD_eq_default _ _ (by rw [hms p hp]; exact hj), mul_zero]
    rw [hzero, zero_div, point, List.getD_eq_default _ _ (by rwa [length_mean])]

/-- A convex set that holds the rows holds their mean. -/
theorem point_mean_mem {dim : ℕ} {ms : WeightedRows K} {S : Set (ℕ → K)} (hS : Convex K S)
    (hms : ∀ p ∈ ms, p.1.length = dim ∧ 0 ≤ p.2 ∧ point p.1 ∈ S) (hmass : 0 < mass ms) :
    point (mean dim ms) ∈ S := by
  have hget : ∀ i : Fin ms.length, ms[i] ∈ ms := fun i => List.getElem_mem i.2
  rw [point_mean fun p hp => (hms p hp).1]
  refine hS.centerMass_mem (fun i _ => (hms _ (hget i)).2.1) ?_ fun i _ => (hms _ (hget i)).2.2
  rw [mass_eq_sum, ← Fin.sum_univ_fun_getElem ms fun p => p.2] at hmass
  exact hmass

end WeightedRows

/-! ### The hull of the rows -/

/-- A convex combination of the rows of a matrix. -/
structure Matrix.InHull (x : Matrix K) (v : List K) : Prop where
  length : v.length = x.cols
  mem : point v ∈ convexHull K (point '' {u | u ∈ x.rowList})

/-- In each column a vector lies between the entries of two rows of a matrix. -/
def Matrix.Between (x : Matrix K) (v : List K) : Prop :=
  ∀ j, (∃ u ∈ x.rowList, u.getD j 0 ≤ v.getD j 0) ∧ ∃ u ∈ x.rowList, v.getD j 0 ≤ u.getD j 0

namespace Matrix

variable {x : Matrix K} {v : List K}

theorem inHull_of_mem (hx : x.Full) (hv : v ∈ x.rowList) : x.InHull v :=
  ⟨length_of_mem_rowList hx v hv, subset_convexHull K _ (Set.mem_image_of_mem _ hv)⟩

/-- The hull of vectors of a hull is a part of it. -/
theorem InHull.trans {y : Matrix K} (h : y.InHull v) (hy : ∀ u ∈ y.rowList, x.InHull u)
    (hcols : y.cols = x.cols) : x.InHull v := by
  refine ⟨h.length.trans hcols, convexHull_min ?_ (convex_convexHull K _) h.mem⟩
  rintro _ ⟨u, hu, rfl⟩
  exact (hy u hu).mem

/-- The part of the space on one side of a coordinate is convex: if all rows lay there, so would
the vector itself. -/
theorem InHull.between (h : x.InHull v) : x.Between v := by
  intro j
  have hcoordinate : IsLinearMap K fun f : ℕ → K => f j := (LinearMap.proj j).isLinear
  constructor
  · by_contra! hbelow
    have hmem := convexHull_min (t := {f : ℕ → K | v.getD j 0 < f j})
      (by rintro _ ⟨u, hu, rfl⟩; exact hbelow u hu) (convex_halfSpace_gt hcoordinate _) h.mem
    exact lt_irrefl _ hmem
  · by_contra! habove
    have hmem := convexHull_min (t := {f : ℕ → K | f j < v.getD j 0})
      (by rintro _ ⟨u, hu, rfl⟩; exact habove u hu) (convex_halfSpace_lt hcoordinate _) h.mem
    exact lt_irrefl _ hmem

end Matrix

/-! ### Refinements -/

namespace Kernel

variable (e : Kernel) {x c : Matrix K} {weights : Option (List K)} (h : Sound x weights c)
include h

theorem row_update_eq_or_inHull {j : ℕ} (hj : j < c.rows) :
    (e.update x weights c).row j = c.row j ∨ x.InHull ((e.update x weights c).row j) := by
  rw [e.row_update x weights c h.fits hj]
  split_ifs with hmass
  · exact Or.inl rfl
  · refine Or.inr ⟨WeightedRows.length_mean .., ?_⟩
    refine WeightedRows.point_mean_mem (convex_convexHull K _) (fun p hp => ?_) (not_le.mp hmass)
    have hlength := e.length_of_mem_members weights h.fits p hp
    rw [e.members_exact weights h.fits] at hp
    have hp := List.mem_of_mem_filter hp
    have hrow := Matrix.inHull_of_mem h.fits.full (List.of_mem_zip hp).1
    exact ⟨hlength, nonneg_of_mem_weighted h p hp, hrow.mem⟩

/-- A centroid that has moved at all is in the hull. -/
theorem row_orbit_eq_or_inHull {j : ℕ} (hj : j < c.rows) (t : ℕ) :
    (e.orbit x weights c t).row j = c.row j ∨ x.InHull ((e.orbit x weights c t).row j) := by
  induction t with
  | zero => exact Or.inl rfl
  | succ t ih =>
    rcases e.row_update_eq_or_inHull (h.orbit e t) (by rwa [rows_orbit]) with hstay | hmove
    · rw [orbit, hstay]
      exact ih
    · exact Or.inr hmove

end Kernel

/-- Each centroid that a refinement returns is where it started, or in the hull of the data. -/
theorem Refiner.row_eq_or_inHull_of_run [Memory] {r : Refiner K} {x start : Matrix K}
    {weights : Option (List K)} (hx : x.Full) (hs : start.Full)
    (hw : ∀ ws ∈ weights, ∀ w ∈ ws, 0 ≤ w) {res : Refined K K}
    (h : (r.run x weights start).1 = .ok res) {j : ℕ} (hj : j < start.rows) :
    res.centroids.row j = start.row j ∨ x.InHull (res.centroids.row j) := by
  obtain ⟨hadm, m, phase, -, rfl⟩ := r.eq_outcome_of_run x weights start h
  exact r.kernel.row_orbit_eq_or_inHull (sound_of_admission hx hs hw hadm) hj m

end Clustering
