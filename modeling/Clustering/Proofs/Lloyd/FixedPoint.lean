import Clustering.Proofs.Lloyd.Descent

/-!
# Fixed points

With tolerance zero a run converges when two consecutive inertias are equal.  The update between
them then gained nothing, so that it moved no centroid that has mass, and none without
(`Kernel.update_eq_of_gain_le`): the orbit rests there, through the update of the last iteration and
the last assignment.  The result of the run is that fixed point, and running again from it changes
nothing (`Refiner.converged_fixed`).
-/

namespace Clustering

variable {K : Type} [ExactScalar K]

/-! ### Centroids that do not move -/

namespace Kernel

variable (e : Kernel) {x c : Matrix K} {weights : Option (List K)}

/-- An update that gains nothing moves nothing. -/
theorem update_eq_of_gain_le (h : Sound x weights c) (hgain : e.gain x weights c ≤ 0) :
    e.update x weights c = c := by
  have hfull := h.fits.full_centroids
  have hnext := (h.update e).fits.full_centroids
  have hzero := le_antisymm hgain (e.gain_nonneg h)
  rw [gain, Finset.sum_eq_zero_iff_of_nonneg
    fun j hj => e.gain_term_nonneg h (Finset.mem_range.mp hj)] at hzero
  refine Matrix.ext_of_row hnext hfull (by simp) (by simp) fun j hj => ?_
  rw [rows_update] at hj
  have hterm := hzero j (Finset.mem_range.mpr hj)
  rw [e.getD_weights_tally hj] at hterm
  rcases mul_eq_zero.mp hterm with hmass | hdist
  · rw [e.row_update x weights c h.fits hj, if_pos hmass.le]
  · have hlen := Matrix.length_row hnext (by rwa [rows_update])
    exact eq_of_sqDist_eq_zero hlen (Matrix.length_row hfull hj) hdist

theorem shift_of_fixed (h : Sound x weights c) (hfix : e.update x weights c = c) :
    (e.tally x weights c).shift c.rowList = (0 : K) := by
  rw [e.shift_eq_sum weights h.fits, hfix]
  refine List.sum_eq_zero fun v hv => ?_
  obtain ⟨j, -, rfl⟩ := List.mem_map.mp hv
  exact sqDist_self _

/-- Each label is that of the first nearest centroid. -/
theorem labels_firstNearest (h : Sound x weights c) {i : ℕ} (hi : i < x.rows) :
    ∃ l, (e.assignment x weights c).labels[i]? = some l ∧ c.FirstNearest (x.row i) l :=
  ⟨labelOf c (x.row i), e.getElem?_labels weights h.fits hi,
    (Nearest.among_spec c h.nonempty (x.row i)).1⟩

end Kernel

/-! ### Runs -/

/-- The rows that carry a label in a result. -/
def Refined.members (res : Refined K K) (x : Matrix K) (weights : Option (List K)) (j : ℕ) :
    WeightedRows K :=
  .labelled x.rowList (weightsFor weights x.rows) res.labels j

namespace Refiner

section Runs

variable [Memory] {r : Refiner K} {x start : Matrix K} {weights : Option (List K)}

omit [Memory] in
/-- Nothing is compared before the second iteration. -/
theorem two_le_of_converged {limit m : ℕ}
    (h : Ends (r.Settles x weights none start) limit m .converged) : 2 ≤ m := by
  cases h with
  | @converged t lt stops first =>
    cases t with
    | zero => exact absurd stops (r.not_settles_none_zero x weights start)
    | succ t => exact Nat.le_add_left 2 t

/-- A run from a fixed point sees it twice and converges there, if there is room for two
records. -/
theorem run_of_fixed {c : Matrix K} (h : Kernel.Sound x weights c)
    (hfix : r.kernel.update x weights c = c) (hcheck : r.checkInertia = true)
    (htol : 0 ≤ r.tolerance) (hmax : 2 ≤ r.maxIterations) (hadm : r.admission x c = .ok ())
    (hroom : historyRoom 2 = .ok ()) :
    ∃ res, (r.run x weights c).1 = .ok res ∧ res.centroids = c ∧
      res.labels = (r.kernel.assignment x weights c).labels ∧
      res.inertia = (r.kernel.assignment x weights c).inertia ∧ res.iterations = 2 ∧
      res.phase = .converged ∧ res.history.map (·.shift) = [0, 0] := by
  have horbit : ∀ t, r.kernel.orbit x weights c t = c := fun t =>
    r.kernel.orbit_of_fixed (s := 0) x weights c hfix t (Nat.zero_le t)
  have hsettles : r.Settles x weights none c 1 := by
    rw [settles_succ_iff, horbit, horbit, sub_self]
    exact ⟨hcheck, mul_nonneg htol (r.kernel.inertia_nonneg h)⟩
  have hfirst : ∀ s < 1, ¬ r.Settles x weights none c s := by
    intro s hs
    obtain rfl : s = 0 := by omega
    exact r.not_settles_none_zero x weights c
  obtain ⟨m, phase, hends, hrun⟩ := r.run_admitted x weights c hadm
  obtain ⟨rfl, rfl⟩ := hends.eq_of_first (by omega) hsettles hfirst
  rw [keeping_of_room r hroom] at hrun
  have hshift : ∀ number, (r.kernel.entry x weights number c).shift = (0 : K) := fun _ =>
    r.kernel.shift_of_fixed h hfix
  refine ⟨_, congrArg Prod.fst hrun, horbit 2, ?_, ?_, rfl, rfl, ?_⟩
  · rw [outcome, horbit]
  · rw [outcome, horbit]
  · show [(r.kernel.entry x weights 1 c).shift,
      (r.kernel.entry x weights 2 (r.kernel.orbit x weights c 1)).shift] = _
    rw [horbit, hshift, hshift]

/-- A run with tolerance zero that has converged rests at its result. -/
theorem update_of_converged (hx : x.Full) (hs : start.Full)
    (hw : ∀ ws ∈ weights, ∀ w ∈ ws, 0 ≤ w) (htol : r.tolerance = 0) {res : Refined K K}
    (h : (r.run x weights start).1 = .ok res) (hphase : res.phase = .converged) :
    r.kernel.update x weights res.centroids = res.centroids := by
  obtain ⟨hadm, m, phase, hends, rfl⟩ := r.eq_outcome_of_run x weights start h
  obtain rfl : phase = .converged := hphase
  cases hends with
  | @converged t lt stops first =>
    cases t with
    | zero => exact absurd stops (r.not_settles_none_zero x weights start)
    | succ t =>
      -- the test compared points `t` and `t + 1`; the result is two updates further on
      have hsound := (sound_of_admission hx hs hw hadm).orbit r.kernel t
      have hle := ((r.settles_succ_iff x weights start none t).mp stops).2
      rw [htol, zero_mul] at hle
      have hfix := r.kernel.update_eq_of_gain_le hsound ((r.kernel.gain_le hsound).trans hle)
      have horbit := r.kernel.orbit_of_fixed x weights start hfix
      show r.kernel.orbit x weights start (t + 3) = r.kernel.orbit x weights start (t + 2)
      rw [horbit (t + 3) (by omega), horbit (t + 2) (by omega)]

/-- What a run with tolerance zero has converged to is a fixed point: each cluster with mass lies
at the mean of its rows, each label is that of the first nearest centroid, and running again from
there returns the same after two iterations that shift nothing. -/
theorem converged_fixed (hx : x.Full) (hs : start.Full)
    (hw : ∀ ws ∈ weights, ∀ w ∈ ws, 0 ≤ w) (htol : r.tolerance = 0) {res : Refined K K}
    (h : (r.run x weights start).1 = .ok res) (hphase : res.phase = .converged) :
    (∀ j < start.rows, 0 < (res.members x weights j).mass →
      res.centroids.row j = (res.members x weights j).mean x.cols) ∧
    (∀ i < x.rows, ∃ l, res.labels[i]? = some l ∧ res.centroids.FirstNearest (x.row i) l) ∧
    ∀ r' : Refiner K, r'.kernel = r.kernel → r'.checkInertia = true → 0 ≤ r'.tolerance →
      2 ≤ r'.maxIterations → ∃ again, (r'.run x weights res.centroids).1 = .ok again ∧
        again.centroids = res.centroids ∧ again.labels = res.labels ∧
        again.inertia = res.inertia ∧ again.iterations = 2 ∧ again.phase = .converged ∧
        again.history.map (·.shift) = [0, 0] := by
  have hfix := update_of_converged hx hs hw htol h hphase
  have hroom := r.historyRoom_of_run x weights start h
  obtain ⟨hadm, m, phase, hends, rfl⟩ := r.eq_outcome_of_run x weights start h
  obtain rfl : phase = .converged := hphase
  have hsound := (sound_of_admission hx hs hw hadm).orbit r.kernel m
  have hrows := r.kernel.rows_orbit x weights start m
  refine ⟨fun j hj hmass => ?_, fun i hi => r.kernel.labels_firstNearest hsound hi, ?_⟩
  · have hmembers : (r.outcome x weights start m .converged).members x weights j =
        r.kernel.members x weights (r.kernel.orbit x weights start m) j := rfl
    rw [hmembers] at hmass ⊢
    have hrow := r.kernel.row_update x weights _ hsound.fits (by rwa [hrows])
    rw [if_neg (not_le.mpr hmass)] at hrow
    rw [← hfix]
    exact hrow
  · intro r' hkernel hcheck htol' hmax
    have hadm' : r'.admission x (r.kernel.orbit x weights start m) = .ok () := by
      rw [← hadm, admission, hkernel]
      exact r.admission_congr x hrows (r.kernel.cols_orbit x weights start m)
    -- the first run recorded two iterations at least, so the storage it was granted holds the
    -- two records of the second one
    have hroom' : historyRoom 2 = .ok () := historyRoom_of_le hroom (two_le_of_converged hends)
    have hagain := run_of_fixed hsound (by rwa [hkernel]) hcheck htol' hmax hadm' hroom'
    rw [hkernel] at hagain
    exact hagain

end Runs

/-- The four points end at a fixed point. -/
theorem converged_fixed_line :
    Line.refined.centroids.row 0 = (Line.refined.members Line.points Line.weights 0).mean 1 ∧
      ∃ again, (Line.refiner.run Line.points Line.weights Line.refined.centroids).1 = .ok again ∧
        again.centroids = Line.refined.centroids ∧ again.iterations = 2 := by
  obtain ⟨hmean, -, hrerun⟩ := converged_fixed (by decide) (by decide) Line.weights_nonneg rfl
    Line.run_eq rfl
  obtain ⟨again, hrun, hcentroids, -, -, hiterations, -⟩ :=
    hrerun Line.refiner rfl rfl le_rfl (by decide)
  exact ⟨hmean 0 (by decide) (by decide +kernel), again, hrun, hcentroids, hiterations⟩

end Refiner

end Clustering
