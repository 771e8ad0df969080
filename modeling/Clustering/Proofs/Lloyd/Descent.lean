import Clustering.Proofs.Lloyd.Cost

/-!
# Descent

An iteration lowers the inertia by at least what moving the centroids gains, which is the sum over
the clusters of the mass times the squared movement (`Kernel.gain_le`): the update gains exactly
this much for the labels it was made from, and labelling anew gains the rest.  Along a run this
holds for every two consecutive entries of the history, and for the last entry and the result
(`Refiner.run_descends`).
-/

namespace Clustering

variable {K : Type} [ExactScalar K]

namespace Kernel

/-- The sum over the clusters of the weight times the squared movement. -/
def gain (e : Kernel) (x : Matrix K) (weights : Option (List K)) (c : Matrix K) : K :=
  ∑ j ∈ Finset.range c.rows, (e.tally x weights c).weights.getD j 0 *
    sqDist ((e.update x weights c).row j) (c.row j)

/-- Data, non-negative weights and at least one centroid, all of one width. -/
structure Sound (x : Matrix K) (weights : Option (List K)) (c : Matrix K) : Prop where
  fits : x.Fits c
  nonempty : 0 < c.rows
  weights_nonneg : ∀ ws ∈ weights, ∀ w ∈ ws, 0 ≤ w

theorem weightsFor_nonneg {weights : Option (List K)} (h : ∀ ws ∈ weights, ∀ w ∈ ws, 0 ≤ w)
    (n : ℕ) : ∀ w ∈ weightsFor weights n, 0 ≤ w := by
  intro w hw
  cases weights with
  | none => exact (List.eq_of_mem_replicate hw).symm ▸ zero_le_one
  | some ws => exact h ws rfl w hw

section Sound

variable (e : Kernel) {x c : Matrix K} {weights : Option (List K)} (h : Sound x weights c)
include h

theorem Sound.update : Sound x weights (e.update x weights c) where
  fits := e.fits_update x weights c h.fits
  nonempty := h.nonempty.trans_eq (e.rows_update x weights c).symm
  weights_nonneg := h.weights_nonneg

theorem Sound.orbit (t : ℕ) : Sound x weights (e.orbit x weights c t) := by
  induction t with
  | zero => exact h
  | succ t ih => exact ih.update e

theorem nonneg_of_mem_weighted : ∀ p ∈ weighted x weights, 0 ≤ p.2 := fun _ hp =>
  weightsFor_nonneg h.weights_nonneg x.rows _ (List.of_mem_zip hp).2

theorem inertia_nonneg : 0 ≤ (e.assignment x weights c).inertia := by
  rw [e.inertia_exact weights h.fits h.nonempty]
  refine List.sum_nonneg fun v hv => ?_
  obtain ⟨p, hp, rfl⟩ := List.mem_map.mp hv
  exact mul_nonneg (nonneg_of_mem_weighted h p hp) (sqDist_nonneg _ _)

theorem nonneg_of_mem_members (j : ℕ) : ∀ p ∈ e.members x weights c j, 0 ≤ p.2 := by
  intro p hp
  rw [e.members_exact weights h.fits] at hp
  exact nonneg_of_mem_weighted h p (List.mem_of_mem_filter hp)

theorem mass_nonneg (j : ℕ) : 0 ≤ WeightedRows.mass (e.members x weights c j) := by
  rw [WeightedRows.mass_eq_sum]
  exact List.sum_nonneg (List.forall_mem_map.mpr (e.nonneg_of_mem_members h j))

theorem weights_tally_nonneg : ∀ w ∈ (e.tally x weights c).weights, 0 ≤ w := by
  rw [weights_tally_eq_map]
  exact List.forall_mem_map.mpr fun j _ => e.mass_nonneg h j

omit h in
theorem getD_weights_tally {j : ℕ} (hj : j < c.rows) :
    (e.tally x weights c).weights.getD j 0 = WeightedRows.mass (e.members x weights c j) := by
  rw [List.getD_eq_getElem?_getD, e.weights_tally x weights c hj, Option.getD_some]

theorem gain_term_nonneg {j : ℕ} (hj : j < c.rows) :
    0 ≤ (e.tally x weights c).weights.getD j 0 *
      sqDist ((e.update x weights c).row j) (c.row j) := by
  rw [e.getD_weights_tally hj]
  exact mul_nonneg (e.mass_nonneg h j) (sqDist_nonneg _ _)

theorem gain_nonneg : 0 ≤ e.gain x weights c :=
  Finset.sum_nonneg fun _ hj => e.gain_term_nonneg h (Finset.mem_range.mp hj)

/-- With the old labels the update gains exactly `gain`. -/
theorem inertia_eq_add_gain :
    (e.assignment x weights c).inertia =
      ((weighted x weights).map fun p =>
        p.2 * sqDist p.1 ((e.update x weights c).row (labelOf c p.1))).sum +
        e.gain x weights c := by
  rw [e.inertia_eq_sum_cost weights h.fits h.nonempty,
    e.sum_map_eq_sum_cost weights h.fits h.nonempty, gain, ← Finset.sum_add_distrib]
  refine Finset.sum_congr rfl fun j hj => ?_
  rw [Finset.mem_range] at hj
  rw [e.cost_row_update weights h.fits hj, e.getD_weights_tally hj]

/-- No labels are better than those of the nearest centroids. -/
theorem inertia_le (label : List K → ℕ) (hlabel : ∀ v, label v < c.rows) :
    (e.assignment x weights c).inertia ≤
      ((weighted x weights).map fun p => p.2 * sqDist p.1 (c.row (label p.1))).sum := by
  rw [e.inertia_exact weights h.fits h.nonempty]
  refine List.sum_le_sum fun p hp => ?_
  have hnear := (Nearest.among_spec c h.nonempty p.1).1.2 _ (hlabel p.1)
  exact mul_le_mul_of_nonneg_left hnear.1 (nonneg_of_mem_weighted h p hp)

/-- An iteration lowers the inertia by the gain of its update at least. -/
theorem gain_le :
    e.gain x weights c ≤ (e.assignment x weights c).inertia -
      (e.assignment x weights (e.update x weights c)).inertia := by
  have hnext := e.inertia_le (h.update e) (labelOf c) fun v =>
    (Nearest.among_spec c h.nonempty v).1.1.trans_eq (e.rows_update x weights c).symm
  have hold := e.inertia_eq_add_gain h
  linarith

theorem inertia_update_le :
    (e.assignment x weights (e.update x weights c)).inertia ≤
      (e.assignment x weights c).inertia := by
  have hgain := e.gain_le h
  have hpos := e.gain_nonneg h
  linarith

end Sound

end Kernel

/-! ### Runs -/

namespace Refiner

/-- After the first iteration the stopping test compares two points of the orbit. -/
theorem settles_succ_iff (r : Refiner K) (x : Matrix K) (weights : Option (List K))
    (start : Matrix K) (previous : Option K) (t : ℕ) :
    r.Settles x weights previous start (t + 1) ↔ r.checkInertia = true ∧
      (r.kernel.assignment x weights (r.kernel.orbit x weights start t)).inertia -
          (r.kernel.assignment x weights (r.kernel.orbit x weights start (t + 1))).inertia ≤
        r.tolerance *
          (r.kernel.assignment x weights (r.kernel.orbit x weights start t)).inertia := by
  rw [Settles, compared, settled, Bool.and_eq_true, decide_eq_true_iff]
  rfl

section Runs

variable [Memory] {r : Refiner K} {x start : Matrix K} {weights : Option (List K)}

/-- What a run checks before its first assignment is what is missing of soundness. -/
theorem sound_of_admission (hx : x.Full) (hs : start.Full)
    (hw : ∀ ws ∈ weights, ∀ w ∈ ws, 0 ≤ w) (h : r.admission x start = .ok ()) :
    Kernel.Sound x weights start := by
  obtain ⟨hcols, hrows, -⟩ := shapes_of_admission h
  exact ⟨⟨hx, hs, hcols⟩, hrows, hw⟩

/-- Every two consecutive entries of the history of a run, and the last entry and the result, show
a descent of the inertia by the gain of the update between them.  The centroids of the run are the
orbit of the start: iteration `t` goes from point `t` to point `t + 1`, and the result is where the
last one went. -/
theorem run_descends (hx : x.Full) (hs : start.Full) (hw : ∀ ws ∈ weights, ∀ w ∈ ws, 0 ≤ w)
    {res : Refined K K} (h : (r.run x weights start).1 = .ok res) :
    let c := r.kernel.orbit x weights start
    res.history.length = res.iterations ∧ c res.iterations = res.centroids ∧
      (∀ t < res.iterations, ∃ s, r.iterate x weights (t + 1) (c t) = .ok s ∧
        s.centroids = c (t + 1) ∧ res.history[t]? = some s.record) ∧
      (∀ t a b, res.history[t]? = some a → res.history[t + 1]? = some b →
        r.kernel.gain x weights (c t) ≤ a.inertia - b.inertia ∧ b.inertia ≤ a.inertia) ∧
      ∀ t a, t + 1 = res.iterations → res.history[t]? = some a →
        r.kernel.gain x weights (c t) ≤ a.inertia - res.inertia ∧ res.inertia ≤ a.inertia := by
  intro c
  obtain ⟨hadm, m, phase, -, rfl⟩ := r.eq_outcome_of_run x weights start h
  have hsound : ∀ t, Kernel.Sound x weights (c t) :=
    (sound_of_admission hx hs hw hadm).orbit r.kernel
  refine ⟨length_historyFrom .., rfl, fun t ht => ?_, fun t a b ha hb => ?_, fun t a ht ha => ?_⟩
  · refine ⟨_, r.iterate_orbit x weights start hadm (t + 1) t, rfl, ?_⟩
    rw [Nat.add_comm t 1]
    exact r.getElem?_historyFrom x weights 1 start ht
  · obtain ⟨-, rfl⟩ := r.history_outcome x weights start ha
    obtain ⟨-, rfl⟩ := r.history_outcome x weights start hb
    exact ⟨r.kernel.gain_le (hsound t), r.kernel.inertia_update_le (hsound t)⟩
  · obtain ⟨-, rfl⟩ := r.history_outcome x weights start ha
    obtain rfl : t + 1 = m := ht
    exact ⟨r.kernel.gain_le (hsound t), r.kernel.inertia_update_le (hsound t)⟩

end Runs

/-! ### Four points on a line

One of them has no weight, and one of the centroids stays far off. -/

namespace Line

def refiner : Refiner ℚ := ⟨⟨.expanded, 2, 1, by decide⟩, 5, 0, true, .initializing⟩

def points : Matrix ℚ := ⟨4, 1, [0, 2, 10, 12]⟩

def weights : Option (List ℚ) := some [1, 1, 1, 0]

def start : Matrix ℚ := ⟨3, 1, [0, 1, 100]⟩

def refined : Refined ℚ ℚ :=
  ⟨⟨3, 1, [1, 10, 100]⟩, [0, 0, 1, 1], 2, 4, .converged,
    [⟨1, 82, 25, 1⟩, ⟨2, 20, 17, 1⟩, ⟨3, 2, 0, 1⟩, ⟨4, 2, 0, 1⟩]⟩

theorem run_eq : (refiner.run points weights start).1 = .ok refined := by decide +kernel

theorem weights_nonneg : ∀ ws ∈ weights, ∀ w ∈ ws, 0 ≤ w := by
  rintro ws ⟨⟩
  decide

end Line

/-- Of this run every two consecutive inertias descend. -/
theorem run_descends_line :
    (Line.refiner.run Line.points Line.weights Line.start).1 = .ok Line.refined ∧
      ∀ t a b, Line.refined.history[t]? = some a → Line.refined.history[t + 1]? = some b →
        b.inertia ≤ a.inertia := by
  have hrun := run_descends (by decide) (by decide) Line.weights_nonneg Line.run_eq
  exact ⟨Line.run_eq, fun t a b ha hb => (hrun.2.2.2.1 t a b ha hb).2⟩

end Refiner

end Clustering
