import Clustering.Proofs.BestRun
import Clustering.Proofs.Failures
import Clustering.Proofs.Pairwise

/-!
# Shapes and ranges of fits

What a fit returns has the shape that was asked for, and its numbers keep to their ranges.  A label
is the position of an entry in a row of the distance table, whatever the entries are
(`Kernel.label_lt_of_mem_answers`), so that labels are in range even where distances are infinite or
no numbers.  A run counts its iterations from one and stops for one of two reasons
(`Refiner.inBounds_of_run`).  The centroids of every start are as many as the clusters, and the run
that a fit keeps is one of those that it makes (`Model.fit_in_range`).

No law of arithmetic is used here.
-/

namespace Clustering

variable {α ω : Type} [Scalar α]

/-! ### Labels -/

namespace Lead

theorem label_challenge (l : Lead α) (j : ℕ) (v : α) :
    (l.challenge j v).label = l.label ∨ (l.challenge j v).label = j := by
  unfold challenge
  split_ifs
  · exact Or.inr rfl
  · exact Or.inl rfl

/-- The lead stays with the first centroid, or goes to one of those scanned. -/
theorem label_scan_lt (vs : List α) (hvs : vs ≠ []) : (start.scan 0 vs).label < vs.length := by
  induction vs using List.reverseRecOn with
  | nil => exact absurd rfl hvs
  | append_singleton vs v ih =>
    rw [scan_concat, List.length_append, List.length_singleton]
    rcases label_challenge (start.scan 0 vs) vs.length v with h | h
    · rw [h]
      rcases eq_or_ne vs [] with rfl | hne
      · exact Nat.one_pos
      · exact Nat.lt_succ_of_lt (ih hne)
    · rw [h]
      exact Nat.lt_succ_self _

end Lead

variable [BlockProduct α]

theorem Kernel.label_lt_of_mem_answers (e : Kernel) {x c : Matrix α} (hc : 0 < c.rows)
    {n : Nearest α} (h : n ∈ e.answers x c) : n.label < c.rows := by
  rw [answers_eq_distances, List.mem_map] at h
  obtain ⟨row, hrow, rfl⟩ := h
  have hlength := e.length_of_mem_distances hrow
  have hne : row ≠ [] := by
    rintro rfl
    exact absurd hlength hc.ne
  exact (Lead.label_scan_lt row hne).trans_eq hlength

theorem Kernel.labels_assignment (e : Kernel) (x c : Matrix α) (weights : Option (List α)) :
    (e.assignment x weights c).labels = (e.answers x c).map (·.label) := by
  rw [assignment, ofSweep_delivered]

/-! ### Runs -/

/-- What a refinement of `n` rows with `k` centroids reports keeps to its ranges, for a run of up
to `limit` iterations that may or must not end before. -/
structure Refined.InBounds (res : Refined α ω) (n k limit : ℕ) (checkInertia : Bool) : Prop where
  length_labels : res.labels.length = n
  labels_lt : ∀ l ∈ res.labels, l < k
  iterations_pos : 1 ≤ res.iterations
  iterations_le : res.iterations ≤ limit
  /-- There is an entry for each iteration, in order. -/
  numbers : res.history.map (·.number) = List.range' 1 res.iterations
  empty_le : ∀ it ∈ res.history, it.emptyClusters ≤ k
  ended : res.phase = .converged ∨ res.phase = .exhausted
  exhausted : res.phase = .exhausted → res.iterations = limit
  unchecked : checkInertia = false → res.iterations = limit

namespace Refiner

section Outcome

variable [Scalar ω] [Widening α ω] (r : Refiner ω) (x : Matrix α) (weights : Option (List α))
  (start : Matrix α)

theorem numbers_historyFrom (m : ℕ) :
    (r.historyFrom x weights 1 start m).map (·.number) = List.range' 1 m := by
  rw [historyFrom, List.map_map, List.range'_eq_map_range]
  rfl

theorem empty_le_of_mem_historyFrom {m : ℕ} {it : Iteration ω}
    (h : it ∈ r.historyFrom x weights 1 start m) : it.emptyClusters ≤ start.rows := by
  obtain ⟨t, -, rfl⟩ := List.mem_map.mp h
  obtain ⟨hweights, -⟩ := r.kernel.length_tally x weights (r.kernel.orbit x weights start t)
  rw [Kernel.rows_orbit] at hweights
  exact List.countP_le_length.trans_eq hweights

end Outcome

theorem inBounds_of_run [Memory] [Scalar ω] [Widening α ω] {r : Refiner ω}
    (hlimit : 0 < r.maxIterations) {x start : Matrix α} {weights : Option (List α)}
    {res : Refined α ω} (h : (r.run x weights start).1 = .ok res) :
    res.InBounds x.rows start.rows r.maxIterations r.checkInertia := by
  obtain ⟨hadm, m, phase, hends, rfl⟩ := r.eq_outcome_of_run x weights start h
  have hrows := (shapes_of_admission hadm).2.1
  have hlabels : (r.outcome x weights start m phase).labels =
      (r.kernel.answers x (r.kernel.orbit x weights start m)).map (·.label) :=
    r.kernel.labels_assignment x (r.kernel.orbit x weights start m) weights
  have hlength : (r.outcome x weights start m phase).labels.length = x.rows := by
    rw [hlabels, List.length_map, Kernel.length_answers]
  have hlt : ∀ l ∈ (r.outcome x weights start m phase).labels, l < start.rows := by
    intro l hl
    rw [hlabels] at hl
    obtain ⟨n, hn, rfl⟩ := List.mem_map.mp hl
    rw [← r.kernel.rows_orbit x weights start m] at hrows ⊢
    exact r.kernel.label_lt_of_mem_answers hrows hn
  have hnumbers := r.numbers_historyFrom x weights start m
  have hempty : ∀ it ∈ r.historyFrom x weights 1 start m, it.emptyClusters ≤ start.rows :=
    fun _ => r.empty_le_of_mem_historyFrom x weights start
  cases hends with
  | @converged t lt stops first =>
    exact ⟨hlength, hlt, Nat.succ_pos t, lt, hnumbers, hempty, Or.inl rfl, nofun, fun hcheck =>
      absurd stops (r.not_settles_of_unchecked x weights start hcheck none t)⟩
  | exhausted never =>
    exact ⟨hlength, hlt, hlimit, le_rfl, hnumbers, hempty, Or.inr rfl, fun _ => rfl, fun _ => rfl⟩

end Refiner

/-! ### Fits -/

namespace Model

variable {E : Precision → Type} {ω σ : Type} [∀ p, Scalar (E p)] [Scalar ω]
  [∀ p, Widening (E p) ω] [∀ p, BlockProduct (E p)] [Memory] [Source σ ω]

/-- What a fit returns: a centroid of the width of the data for each cluster, and all values of
them; a label in range for each row; iterations within their limit, with an entry of the history for
each one; and the number of one of its runs. -/
theorem fit_in_range [Source.InRange σ] {m : Model E ω} (hvalid : m.params.validate = .ok ())
    (hm : m.HasFullStart) {p : Precision} {x : Dataset (E p)} (hx : x.Complete)
    {weights : Option (List (E p))} {f : Fit (E p) ω}
    (h : (m.fit σ p x weights).result = .ok f) :
    f.centroids.HasShape m.params.clusters x.table.cols ∧ f.centroids.Full ∧
      f.toRefined.InBounds x.table.rows m.params.clusters m.params.maxIterations
        m.params.checkInertia ∧
      f.run < m.params.runs ∧ (m.params.method = .array → f.run = 0) := by
  have hfault := Params.fault?_of_validate hvalid
  have hruns := Params.runs_pos_of_valid hfault
  have hlimit := Nat.pos_of_ne_zero (Params.positive_of_valid hfault).2.1
  obtain ⟨array, e, hready, r, hr, hnumber, c, hstart, hrun⟩ := isRun_of_fit h
  have hfull := hx (present_of_checkData hready.data).2.2
  obtain ⟨hclusters, hfits⟩ := hstart.fits hfull fun _ => full_of_startFor hm hready.start
  obtain ⟨hkept, hend⟩ := Refiner.fits_of_run hfits hrun
  have hbounds := Refiner.inBounds_of_run hlimit hrun
  rw [hclusters] at hkept hbounds
  refine ⟨⟨hkept, hend.cols⟩, hend.full_centroids, hbounds, ?_, fun hmethod => ?_⟩
  · unfold Params.fitRuns at hr
    split_ifs at hr <;> omega
  · rw [Params.fitRuns, if_pos hmethod] at hr
    omega

end Model

/-! ### A point beyond all numbers -/

namespace Model

/-- Two clusters, the better of two runs. -/
def astray : Model Precision.Machine Float where
  params := { Params.standard with clusters := 2, method := .random, runs := 2, maxIterations := 3 }
  start := none
  fitted := none

/-- Three points, one of them infinitely far.  It draws a centroid to where distances are no
numbers. -/
def beyond : Dataset (Precision.double.Machine) := ⟨⟨3, 1, [-1, Scalar.infinity, 1]⟩, true⟩

/-- All labels are in range, and the run ends with its last iteration. -/
theorem fit_in_range_astray :
    astray.params.validate = .ok () ∧
      ∃ f, (astray.fit (Counter Float) .double beyond none).result = .ok f ∧
        f.labels = [0, 0, 0] ∧ f.toRefined.InBounds 3 2 3 true ∧ f.run < 2 := by
  have hlabels : (astray.fit (Counter Float) .double beyond none).result.map (·.labels) =
      .ok [0, 0, 0] := by
    decide +kernel
  cases hfit : (astray.fit (Counter Float) .double beyond none).result with
  | error e => rw [hfit] at hlabels; cases hlabels
  | ok f =>
    rw [hfit] at hlabels
    obtain ⟨-, -, hbounds, hrun, -⟩ :=
      fit_in_range (m := astray) rfl nofun (x := beyond) (fun _ => rfl) hfit
    exact ⟨rfl, f, rfl, Except.ok.inj hlabels, hbounds, hrun⟩

end Model

end Clustering
