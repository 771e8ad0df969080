import Clustering.Proofs.Lloyd.Clusters

/-!
# The textbook step

An iteration, with its batches and its tally for all clusters at once, does for each cluster what
the textbook says (`TextbookStep`): it adds up the weights and the weighted rows of the cluster in
row order, and moves its centroid to the mean, or leaves it where it is if there is no weight.

`Refiner.iterate_textbook`: every iteration is such a step, from the nearest centroids that the
kernel gives for the centroids of this iteration; nothing else is left of the iterations before.

No law of arithmetic is used here.
-/

namespace Clustering

variable {α ω : Type} [Scalar α]

/-- The rows that are labelled `j`, with their weights. -/
abbrev WeightedRows.nearestTo (x : Matrix α) (ws : List α) (ns : List (Nearest α)) (j : ℕ) :
    WeightedRows α :=
  labelled x.rowList ws (ns.map (·.label)) j

/-- The textbook step from the centroids `c`, for rows `x` with weights `ws` whose nearest centroids
are `ns`.  All sums are taken from zero in row order. -/
structure TextbookStep [Widening α ω] (x : Matrix α) (ws : List α) (ns : List (Nearest α))
    (c : Matrix α) (s : Stride α ω) : Prop where
  inertia : s.inertia = total (List.zipWith (fun w n => w * n.dist) ws ns)
  recorded : s.record.inertia = widen s.inertia
  rows : s.centroids.rows = c.rows
  fits : x.Fits s.centroids
  /-- A cluster with weight moves to its mean, feature by feature. -/
  moves : ∀ j < c.rows, ¬ (WeightedRows.nearestTo x ws ns j).mass ≤ 0 → ∀ i < x.cols,
    (s.centroids.row j)[i]? =
      some (total ((WeightedRows.nearestTo x ws ns j).map fun p => p.2 * p.1.getD i 0) /
        (WeightedRows.nearestTo x ws ns j).mass)
  /-- A cluster without weight stays. -/
  stays : ∀ j < c.rows, (WeightedRows.nearestTo x ws ns j).mass ≤ 0 →
    s.centroids.row j = c.row j
  emptyClusters : s.record.emptyClusters =
    (List.range c.rows).countP fun j => (WeightedRows.nearestTo x ws ns j).mass ≤ 0

/-! ### The tally of an iteration -/

namespace Kernel

variable [BlockProduct α] (e : Kernel) (x : Matrix α) (weights : Option (List α)) (c : Matrix α)

theorem members_eq_nearestTo (j : ℕ) :
    e.members x weights c j =
      .nearestTo x (weightsFor weights x.rows) (e.answers x c) j := by
  rw [members, assignment, ofSweep_delivered]

theorem emptyClusters_tally :
    (e.tally x weights c).emptyClusters =
      (List.range c.rows).countP fun j => (e.members x weights c j).mass ≤ 0 := by
  rw [Tally.emptyClusters, weights_tally_eq_map, List.countP_map]
  rfl

variable {x c} in
/-- One iteration of the orbit is the textbook step. -/
theorem textbookStep [Scalar ω] [Widening α ω] (h : x.Fits c) (number : ℕ) :
    TextbookStep x (weightsFor weights x.rows) (e.answers x c) c
      (⟨e.update x weights c, (e.assignment x weights c).inertia,
        e.entry x weights number c⟩ : Stride α ω) where
  inertia := by rw [assignment, ofSweep_delivered]
  recorded := rfl
  rows := e.rows_update x weights c
  fits := e.fits_update x weights c h
  moves j hj hmass i hi := by
    rw [← members_eq_nearestTo] at hmass ⊢
    rw [e.row_update x weights c h hj, if_neg hmass, WeightedRows.mean, WeightedRows.moment]
    simp [hi]
  stays j hj hmass := by
    rw [← members_eq_nearestTo] at hmass
    rw [e.row_update x weights c h hj, if_pos hmass]
  emptyClusters := by
    simp only [← members_eq_nearestTo]
    exact e.emptyClusters_tally x weights c

end Kernel

/-! ### Iterations and runs -/

namespace Refiner

variable [Scalar ω] [Memory] [BlockProduct α] [Widening α ω]

/-- An iteration fails as finding the nearest centroids fails.  Otherwise it is the textbook step
from them, at every iteration of a run: its history records steps along the centroids that each of
them hands to the next. -/
theorem iterate_textbook (r : Refiner ω) {x : Matrix α} (hx : x.Full)
    (weights : Option (List α)) :
    (∀ number c f, r.kernel.nearest x c = .error f →
      r.iterate x weights number c = .error f) ∧
    (∀ number c ns, c.Full → c.cols = x.cols → r.kernel.nearest x c = .ok ns →
      ∃ s, r.iterate x weights number c = .ok s ∧ s.record.number = number ∧
        TextbookStep x (weightsFor weights x.rows) ns c s) ∧
    (∀ start res, start.Full → (r.run x weights start).1 = .ok res →
      ∃ c : ℕ → Matrix α, c 0 = start ∧ c res.iterations = res.centroids ∧
        res.history.length = res.iterations ∧
        ∀ t < res.iterations, ∃ ns s, r.kernel.nearest x (c t) = .ok ns ∧
          r.iterate x weights (t + 1) (c t) = .ok s ∧
          TextbookStep x (weightsFor weights x.rows) ns (c t) s ∧
          s.centroids = c (t + 1) ∧ res.history[t]? = some s.record) := by
  refine ⟨fun number c f hf => ?_, fun number c ns hc hcols hns => ?_, fun start res hs hres => ?_⟩
  · rw [Kernel.nearest_eq] at hf
    rw [iterate_eq]
    cases hadm : r.kernel.admission x c with
    | error g =>
      rw [hadm] at hf
      cases hf
      rfl
    | ok u =>
      rw [hadm] at hf
      cases hf
  · obtain ⟨hadm, rfl⟩ := Kernel.eq_answers_of_nearest hns
    rw [iterate_eq, hadm]
    exact ⟨_, rfl, rfl, r.kernel.textbookStep weights ⟨hx, hc, hcols⟩ number⟩
  · obtain ⟨hadm, m, phase, -, rfl⟩ := r.eq_outcome_of_run x weights start hres
    obtain ⟨hcols, -, hkernel⟩ := shapes_of_admission hadm
    refine ⟨r.kernel.orbit x weights start, rfl, rfl, r.length_historyFrom .., fun t ht => ?_⟩
    have hfits := r.kernel.fits_orbit x weights start ⟨hx, hs, hcols⟩ t
    -- every iterate has the shape of the start, so what admitted the run admits each sweep of it
    have hns : r.kernel.nearest x (r.kernel.orbit x weights start t) =
        .ok (r.kernel.answers x (r.kernel.orbit x weights start t)) := by
      rw [Kernel.nearest_eq, r.kernel.admission_orbit, hkernel]
      rfl
    refine ⟨_, _, hns, r.iterate_orbit x weights start hadm (t + 1) t,
      r.kernel.textbookStep weights hfits (t + 1), rfl, ?_⟩
    rw [Nat.add_comm t 1]
    exact r.getElem?_historyFrom x weights 1 start ht

end Refiner

/-! ### A cluster without weight and one without rows -/

namespace Refiner

namespace Idle

def refiner : Refiner Float := ⟨⟨.expanded, 2, 2, Nat.two_pos⟩, 3, 0, true, .initializing⟩

/-- The last row has no weight. -/
def points : Matrix Float := ⟨3, 2, [0, 0, 1, 2, 10, 10]⟩

def weights : Option (List Float) := some [1, 3, 0]

/-- The last centroid is nearest to none of the rows. -/
def start : Matrix Float := ⟨3, 2, [0, 0, 9, 9, 100, 100]⟩

end Idle

/-- Only the first of these three clusters moves. -/
theorem iterate_textbook_idle :
    ∃ s, Idle.refiner.iterate Idle.points Idle.weights 1 Idle.start = .ok s ∧
      TextbookStep Idle.points [1, 3, 0] [⟨0, 0⟩, ⟨0, 5⟩, ⟨1, 2⟩] Idle.start s ∧
      s.centroids = ⟨3, 2, [0.75, 1.5, 9, 9, 100, 100]⟩ := by
  have hx : Idle.points.Full := by decide
  have hns : Idle.refiner.kernel.nearest Idle.points Idle.start =
      .ok [⟨0, 0⟩, ⟨0, 5⟩, ⟨1, 2⟩] := by decide +kernel
  have hcentroids : (Idle.refiner.iterate Idle.points Idle.weights 1 Idle.start).map
      (·.centroids) = .ok ⟨3, 2, [0.75, 1.5, 9, 9, 100, 100]⟩ := by decide +kernel
  obtain ⟨-, hstep, -⟩ := Idle.refiner.iterate_textbook hx Idle.weights
  obtain ⟨s, hs, -, htextbook⟩ := hstep 1 Idle.start _ (by decide) rfl hns
  rw [hs] at hcentroids
  exact ⟨s, hs, htextbook, Except.ok.inj hcentroids⟩

end Refiner

end Clustering
