import Clustering.Proofs.Lloyd.Descent

/-!
# Convergence

A centroid is always either where it started or at the mean of some of the rows, so that the orbit
of a start visits no more than `arrangements` different points.  An iteration that does not pass
the stopping test has lowered the inertia, and so a run that never passed it would visit a new
point each time.  Hence every run with enough iterations converges (`Refiner.run_converges`).

The inertia alone would not do: a cluster that becomes empty keeps its position, and the labels of
an iteration do not determine the centroids.
-/

namespace Clustering

variable {K : Type} [ExactScalar K]

/-- How many ways there are to place `k` centroids, each at its start or at the mean of some of
`n` rows. -/
def arrangements (n k : ℕ) : ℕ := (2 ^ n + 1) ^ k

/-- Iterations within which a run on `n` rows and `k` centroids converges. -/
def iterationBound (n k : ℕ) : ℕ := arrangements n k + 1

/-! ### Finitely many places -/

namespace Kernel

/-- The places of a centroid: its start, and the means of all sublists of the rows. -/
def places (x : Matrix K) (weights : Option (List K)) (start : Matrix K) (j : ℕ) :
    List (List K) :=
  start.row j :: (weighted x weights).sublists.map (WeightedRows.mean x.cols)

theorem length_places_le (x : Matrix K) (weights : Option (List K)) (start : Matrix K) (j : ℕ) :
    (places x weights start j).length ≤ 2 ^ x.rows + 1 := by
  have hlen : (weighted x weights).length ≤ x.rows := by
    rw [weighted, List.length_zip, Matrix.length_rowList]
    exact Nat.min_le_left _ _
  rw [places, List.length_cons, List.length_map, List.length_sublists]
  exact Nat.succ_le_succ (Nat.pow_le_pow_right Nat.two_pos hlen)

variable (e : Kernel) {x start : Matrix K} (weights : Option (List K))

theorem row_orbit_mem_places (h : x.Fits start) {j : ℕ} (hj : j < start.rows) (t : ℕ) :
    (e.orbit x weights start t).row j ∈ places x weights start j := by
  induction t with
  | zero => exact List.mem_cons_self
  | succ t ih =>
    -- a cluster without mass keeps a place that it has had before, however it got there
    have hfits := e.fits_orbit x weights start h t
    rw [orbit, e.row_update x weights _ hfits (by rwa [rows_orbit])]
    split_ifs with hmass
    · exact ih
    · refine List.mem_cons_of_mem _ (List.mem_map_of_mem (List.mem_sublists.mpr ?_))
      rw [e.members_exact weights hfits]
      exact List.filter_sublist

/-- Among more points than there are arrangements one occurs twice. -/
theorem exists_orbit_eq (h : x.Fits start) :
    ∃ s t, s < t ∧ t ≤ arrangements x.rows start.rows ∧
      e.orbit x weights start s = e.orbit x weights start t := by
  classical
  let spots : Finset (Fin start.rows → List K) :=
    Fintype.piFinset fun j => (places x weights start j).toFinset
  have hcard : spots.card < (Finset.range (arrangements x.rows start.rows + 1)).card := by
    rw [Finset.card_range, Fintype.card_piFinset]
    refine Nat.lt_succ_of_le
      ((Finset.prod_le_pow_card _ _ (2 ^ x.rows + 1) fun j _ => ?_).trans_eq ?_)
    · exact (List.toFinset_card_le _).trans (length_places_le x weights start j)
    · rw [Finset.card_univ, Fintype.card_fin, arrangements]
  -- the points of the orbit, read as the places of their centroids
  have hmaps : ∀ t ∈ Finset.range (arrangements x.rows start.rows + 1),
      (fun j : Fin start.rows => (e.orbit x weights start t).row j) ∈ spots := fun t _ =>
    Fintype.mem_piFinset.mpr fun j =>
      List.mem_toFinset.mpr (e.row_orbit_mem_places weights h j.isLt t)
  have hext : ∀ s t, (fun j : Fin start.rows => (e.orbit x weights start s).row j) =
      (fun j : Fin start.rows => (e.orbit x weights start t).row j) →
      e.orbit x weights start s = e.orbit x weights start t := by
    intro s t hst
    refine Matrix.ext_of_row (e.fits_orbit x weights start h s).full_centroids
      (e.fits_orbit x weights start h t).full_centroids (by simp) (by simp) fun i hi => ?_
    rw [rows_orbit] at hi
    exact congrFun hst ⟨i, hi⟩
  obtain ⟨s, hs, t, ht, hne, hst⟩ := Finset.exists_ne_map_eq_of_card_lt_of_maps_to hcard hmaps
  rw [Finset.mem_range] at hs ht
  rcases Nat.lt_or_gt_of_ne hne with hlt | hlt
  · exact ⟨s, t, hlt, by omega, hext s t hst⟩
  · exact ⟨t, s, hlt, by omega, (hext s t hst).symm⟩

end Kernel

/-! ### A run that goes on -/

namespace Refiner

section Course

variable {r : Refiner K} {x start : Matrix K} {weights : Option (List K)}
  (h : Kernel.Sound x weights start) (hcheck : r.checkInertia = true) (htol : 0 ≤ r.tolerance)
include h hcheck htol

theorem inertia_lt_of_not_settles {t : ℕ} (ht : ¬ r.Settles x weights none start (t + 1)) :
    (r.kernel.assignment x weights (r.kernel.orbit x weights start (t + 1))).inertia <
      (r.kernel.assignment x weights (r.kernel.orbit x weights start t)).inertia := by
  have hbound := mul_nonneg htol (r.kernel.inertia_nonneg (h.orbit r.kernel t))
  rw [settles_succ_iff, not_and, not_le] at ht
  have hlt := ht hcheck
  linarith

/-- A run that has not passed the test has seen a new point in each iteration. -/
theorem le_arrangements {m : ℕ} (hm : ∀ t < m, ¬ r.Settles x weights none start t) :
    m ≤ arrangements x.rows start.rows := by
  by_contra hlong
  have hanti : ∀ s t, s < t → t < m →
      (r.kernel.assignment x weights (r.kernel.orbit x weights start t)).inertia <
        (r.kernel.assignment x weights (r.kernel.orbit x weights start s)).inertia := by
    intro s t hst
    induction t, hst using Nat.le_induction with
    | base => exact fun ht => inertia_lt_of_not_settles h hcheck htol (hm _ ht)
    | succ t _ ih =>
      intro ht
      exact (inertia_lt_of_not_settles h hcheck htol (hm _ ht)).trans (ih (Nat.lt_of_succ_lt ht))
  obtain ⟨s, t, hst, ht, horbit⟩ := r.kernel.exists_orbit_eq weights h.fits
  have hlt := hanti s t hst (by omega)
  rw [horbit] at hlt
  exact lt_irrefl _ hlt

end Course

/-- A run that checks the inertia and may make enough iterations converges, unless it is refused
before the first of them, for a shape that does not fit or for lack of memory
(`admission_of_granted`), or memory is lacking for the history of no more iterations than are
enough (`historyRoom_of_granted`).  How many are enough depends only on how many rows and centroids
there are. -/
theorem run_converges [Memory] {r : Refiner K} {x start : Matrix K} {weights : Option (List K)}
    (hx : x.Full) (hs : start.Full) (hw : ∀ ws ∈ weights, ∀ w ∈ ws, 0 ≤ w)
    (hcheck : r.checkInertia = true) (htol : 0 ≤ r.tolerance)
    (hmax : iterationBound x.rows start.rows ≤ r.maxIterations) :
    (∃ f, r.admission x start = .error f ∧ (r.run x weights start).1 = .error f) ∨
      (∃ m ≤ iterationBound x.rows start.rows, ∃ f, historyRoom m = .error f ∧
        r.run x weights start = (.error f, { r with phase := .updating })) ∨
      ∃ res, r.run x weights start = (.ok res, { r with phase := .converged }) ∧
        res.phase = .converged ∧ res.iterations ≤ iterationBound x.rows start.rows := by
  cases hadm : r.admission x start with
  | error f => exact .inl ⟨f, rfl, r.run_refused x weights start hadm⟩
  | ok u =>
    right
    have hsound := sound_of_admission hx hs hw hadm
    obtain ⟨m, phase, hends, hrun⟩ := r.run_admitted x weights start hadm
    cases hends with
    | @converged t lt stops first =>
      have hle : t + 1 ≤ iterationBound x.rows start.rows :=
        Nat.succ_le_succ (le_arrangements hsound hcheck htol first)
      -- the run ends in time; what is left is whether its history found room
      cases hhist : historyRoom (t + 1) with
      | error f => exact .inl ⟨_, hle, f, hhist, hrun.trans (keeping_of_refused r hhist)⟩
      | ok u => exact .inr ⟨_, hrun.trans (keeping_of_room r hhist), rfl, hle⟩
    | exhausted never =>
      have hle := le_arrangements hsound hcheck htol never
      unfold iterationBound at hmax
      omega

/-- One centroid and two rows, for which six iterations are always enough. -/
theorem run_converges_pair :
    iterationBound 2 1 = 6 ∧
      ∃ res, (run ⟨⟨.expanded, 1, 0, by decide⟩, 6, 0, true, .initializing⟩
          (⟨2, 1, [0, 4]⟩ : Matrix ℚ) none ⟨1, 1, [1]⟩).1 = .ok res ∧
        res.phase = .converged ∧ res.iterations ≤ 6 := by
  refine ⟨rfl, ?_⟩
  have hconverges := @run_converges ℚ _ _ ⟨⟨.expanded, 1, 0, by decide⟩, 6, 0, true, .initializing⟩
    ⟨2, 1, [0, 4]⟩ ⟨1, 1, [1]⟩ none (by decide) (by decide) nofun rfl le_rfl (by decide)
  rcases hconverges with ⟨f, hadm, -⟩ | ⟨m, hle, f, hhist, -⟩ | ⟨res, hrun, hres⟩
  · cases hadm
  · -- there is room for six records, and so for `m` of them
    have hroom : historyRoom m = .ok () := historyRoom_of_le (n := 6) rfl hle
    rw [hroom] at hhist
    cases hhist
  · exact ⟨res, congrArg Prod.fst hrun, hres⟩

end Refiner

end Clustering
