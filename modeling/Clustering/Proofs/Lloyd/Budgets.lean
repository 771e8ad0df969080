import Clustering.Proofs.Lloyd.Orbit

/-!
# Runs of different budgets

What an iteration does is settled before anyone asks how many there may be: the runs of all budgets
follow one unbounded iteration (`Refiner.Unbounded`), and a budget only decides where they leave it.
A run ends at the first iteration that stalls (`Refiner.Stalls`), or when its budget is used up.

`Refiner.run_budgets`: the runs of a refiner fail alike, or each of them ends by that rule, and
returns if there is room for its history.  So a longer budget continues the history of a shorter
one, adds nothing to a run that has converged, and, where the inertia is not checked, may be spent
in two parts.

No law of arithmetic is used here.
-/

namespace Clustering

variable {α ω : Type} [Scalar α]

/-! ### Loops of different budgets -/

/-- With a larger budget a loop makes at least as many passes, and no more after it has
converged. -/
theorem Ends.le_of_le {stop : ℕ → Prop} {limit limit' m m' : ℕ} {phase phase' : Phase}
    (h : Ends stop limit m phase) (h' : Ends stop limit' m' phase') (hle : limit ≤ limit') :
    m ≤ m' ∧ (phase = .converged → m' = m ∧ phase' = phase) := by
  cases h with
  | @converged t lt stops first =>
    obtain ⟨rfl, rfl⟩ := h'.eq_of_first (lt.trans_le hle) stops first
    exact ⟨le_rfl, fun _ => ⟨rfl, rfl⟩⟩
  | exhausted never =>
    refine ⟨?_, nofun⟩
    cases h' with
    | @converged t _ stops _ =>
      have ht : limit ≤ t := not_lt.mp fun hlt => never t hlt stops
      exact ht.trans (Nat.le_succ t)
    | exhausted _ => exact hle

theorem Ends.eq_of_never {stop : ℕ → Prop} {limit m : ℕ} {phase : Phase}
    (h : Ends stop limit m phase) (hnever : ∀ t < limit, ¬ stop t) :
    m = limit ∧ phase = .exhausted := by
  cases h with
  | converged lt stops _ => exact absurd stops (hnever _ lt)
  | exhausted _ => exact ⟨rfl, rfl⟩

variable [BlockProduct α]

/-- Two parts of an orbit one after the other. -/
theorem Kernel.orbit_orbit (e : Kernel) (x : Matrix α) (weights : Option (List α))
    (start : Matrix α) (m t : ℕ) :
    e.orbit x weights (e.orbit x weights start m) t = e.orbit x weights start (m + t) := by
  induction t with
  | zero => rfl
  | succ t ih => rw [orbit, ih]; rfl

namespace Refiner

variable [Scalar ω] [Widening α ω]

/-- The refiner with another budget. -/
def withLimit (r : Refiner ω) (m : ℕ) : Refiner ω := { r with maxIterations := m }

/-- Whether iteration `t` of an iteration with inertias `I` improves on the one before by no more
than the tolerance, for a refiner that looks at it. -/
def Stalls (r : Refiner ω) (I : ℕ → α) (t : ℕ) : Prop :=
  2 ≤ t ∧ r.checkInertia = true ∧ widen (I (t - 1) - I t) ≤ r.tolerance * widen (I (t - 1))

/-- The unbounded iteration from a start: iteration `t` moves the centroids `c (t - 1)` to `c t`,
measures the inertia `I t`, and records `a t`. -/
structure Unbounded [Memory] (r : Refiner ω) (x : Matrix α) (weights : Option (List α))
    (start : Matrix α) (c : ℕ → Matrix α) (I : ℕ → α) (a : ℕ → Iteration ω) : Prop where
  start_eq : c 0 = start
  step : ∀ t, r.iterate x weights (t + 1) (c t) = .ok ⟨c (t + 1), I (t + 1), a (t + 1)⟩

/-! ### The rule -/

section Rule

variable (r : Refiner ω) (x : Matrix α) (weights : Option (List α)) (start : Matrix α)

/-- The inertia that iteration `t` measures, counted from one. -/
def inertiaAt (t : ℕ) : α :=
  (r.kernel.assignment x weights (r.kernel.orbit x weights start (t - 1))).inertia

theorem stalls_succ_iff (t : ℕ) :
    r.Stalls (r.inertiaAt x weights start) (t + 1) ↔ r.Settles x weights none start t := by
  cases t with
  | zero => exact ⟨fun h => absurd h.1 (by decide), fun h => (r.not_settles_none_zero _ _ _ h).elim⟩
  | succ t =>
    have htwo : 2 ≤ t + 1 + 1 := by omega
    simp only [Stalls, Settles, compared, settled, htwo, true_and, Bool.and_eq_true,
      decide_eq_true_iff]
    rfl

variable {r x weights start} {limit m : ℕ} {phase : Phase}
  (h : Ends (r.Settles x weights none start) limit m phase)
include h

/-- A run converges in the first iteration within the budget that stalls. -/
theorem eq_of_isLeast_stalls {t : ℕ}
    (ht : IsLeast {t | t ≤ limit ∧ r.Stalls (r.inertiaAt x weights start) t} t) :
    m = t ∧ phase = .converged := by
  obtain ⟨⟨hle, hstalls⟩, hleast⟩ := ht
  -- passes are counted from zero, iterations from one
  obtain ⟨s, rfl⟩ : ∃ s, t = s + 1 := ⟨t - 1, by have := hstalls.1; omega⟩
  have hsettles := (r.stalls_succ_iff x weights start s).mp hstalls
  refine h.eq_of_first hle hsettles fun u hu hearlier => ?_
  have hmem : s + 1 ≤ u + 1 :=
    hleast ⟨by omega, (r.stalls_succ_iff x weights start u).mpr hearlier⟩
  omega

theorem eq_of_not_stalls
    (hnot : ∀ t ≤ limit, ¬ r.Stalls (r.inertiaAt x weights start) t) :
    m = limit ∧ phase = .exhausted :=
  h.eq_of_never fun t ht hsettles =>
    hnot (t + 1) ht ((r.stalls_succ_iff x weights start t).mpr hsettles)

end Rule

/-! ### Runs -/

/-- The result of a run with a budget of `m` iterations, seen from the unbounded iteration. -/
structure Leaves (r : Refiner ω) (c : ℕ → Matrix α) (I : ℕ → α) (a : ℕ → Iteration ω) (m : ℕ)
    (res : Refined α ω) : Prop where
  converged : ∀ t, IsLeast {t | t ≤ m ∧ r.Stalls I t} t →
    res.iterations = t ∧ res.phase = .converged
  exhausted : (∀ t ≤ m, ¬ r.Stalls I t) → res.iterations = m ∧ res.phase = .exhausted
  centroids : res.centroids = c res.iterations
  inertia : res.inertia = I (res.iterations + 1)
  history : res.history = (List.range res.iterations).map fun t => a (t + 1)

section Outcome

variable (r : Refiner ω) (x : Matrix α) (weights : Option (List α)) (start : Matrix α)

/-- What iteration `t` records, counted from one. -/
def recordAt (t : ℕ) : Iteration ω :=
  r.kernel.entry x weights t (r.kernel.orbit x weights start (t - 1))

theorem history_eq_map_recordAt (m : ℕ) :
    r.historyFrom x weights 1 start m =
      (List.range m).map fun t => r.recordAt x weights start (t + 1) := by
  rw [historyFrom]
  refine List.map_congr_left fun t _ => ?_
  rw [Nat.add_comm 1 t]
  rfl

theorem unbounded_orbit [Memory] (h : r.admission x start = .ok ()) :
    r.Unbounded x weights start (r.kernel.orbit x weights start) (r.inertiaAt x weights start)
      (r.recordAt x weights start) :=
  ⟨rfl, fun t => r.iterate_orbit x weights start h (t + 1) t⟩

variable {r x weights start} in
theorem leaves_outcome {limit m : ℕ} {phase : Phase}
    (h : Ends (r.Settles x weights none start) limit m phase) :
    r.Leaves (r.kernel.orbit x weights start) (r.inertiaAt x weights start)
      (r.recordAt x weights start) limit (r.outcome x weights start m phase) where
  converged _ ht := eq_of_isLeast_stalls h ht
  exhausted hnot := eq_of_not_stalls h hnot
  centroids := rfl
  inertia := rfl
  history := r.history_eq_map_recordAt x weights start m

variable {r x weights start} in
/-- The history of a larger budget continues that of a smaller one, and a converged run has no use
for the rest of its budget. -/
theorem outcome_of_le {limit limit' m m' : ℕ} {phase phase' : Phase}
    (h : Ends (r.Settles x weights none start) limit m phase)
    (h' : Ends (r.Settles x weights none start) limit' m' phase') (hle : limit ≤ limit') :
    (r.outcome x weights start m phase).history <+: (r.outcome x weights start m' phase').history ∧
      (phase = .converged →
        r.outcome x weights start m phase = r.outcome x weights start m' phase') := by
  obtain ⟨hm, hconverged⟩ := h.le_of_le h' hle
  refine ⟨?_, fun hphase => ?_⟩
  · have hrange : List.range m <+: List.range m' := by
      rw [← Nat.min_eq_left hm, ← List.take_range]
      exact List.take_prefix _ _
    simp only [outcome, history_eq_map_recordAt]
    exact hrange.map _
  · obtain ⟨rfl, rfl⟩ := hconverged hphase
    rfl

end Outcome

variable [Memory]

theorem run_withLimit {r : Refiner ω} {x : Matrix α} {start : Matrix α}
    (h : r.admission x start = .ok ()) (weights : Option (List α)) (m : ℕ) :
    ∃ n phase, Ends (r.Settles x weights none start) m n phase ∧
      (r.withLimit m).run x weights start =
        (r.withLimit m).keeping (r.outcome x weights start n phase) :=
  (r.withLimit m).run_admitted x weights start h

omit [Memory] in
/-- Where the inertia is not checked, a budget is used up. -/
theorem eq_of_ends_of_unchecked {r : Refiner ω} (hcheck : r.checkInertia = false) {x : Matrix α}
    {start : Matrix α} {weights : Option (List α)} {m n : ℕ} {phase : Phase}
    (h : Ends (r.Settles x weights none start) m n phase) : n = m ∧ phase = .exhausted :=
  h.eq_of_never fun t _ => r.not_settles_of_unchecked x weights start hcheck none t

/-- The runs of a refiner that differ in their budgets only are refused alike, or follow the same
unbounded iteration: each of them leaves it at the first iteration that stalls, or when its budget
is used up, and returns what it has then if there is room for its history (`keeping`).  So a larger
budget continues the history of a smaller one, and a run that has converged has no use for the rest
of its budget.  Where the inertia is not checked, `m` iterations and then `m'` more from the
centroids returned give the centroids, labels and inertia of `m + m'`. -/
theorem run_budgets (r : Refiner ω) (x : Matrix α) (weights : Option (List α))
    (start : Matrix α) :
    (∃ f, r.admission x start = .error f ∧
      ∀ m, ((r.withLimit m).run x weights start).1 = .error f) ∨
    ∃ (c : ℕ → Matrix α) (I : ℕ → α) (a : ℕ → Iteration ω) (res : ℕ → Refined α ω),
      r.Unbounded x weights start c I a ∧
      (∀ m, (r.withLimit m).run x weights start = (r.withLimit m).keeping (res m) ∧
        r.Leaves c I a m (res m)) ∧
      (∀ m M, m ≤ M → (res m).history <+: (res M).history ∧
        ((res m).phase = .converged → res m = res M)) ∧
      (r.checkInertia = false → ∀ m m', ∃ again,
        (r.withLimit m').run x weights (res m).centroids = (r.withLimit m').keeping again ∧
          again.centroids = (res (m + m')).centroids ∧
          again.labels = (res (m + m')).labels ∧ again.inertia = (res (m + m')).inertia) := by
  cases hadm : r.admission x start with
  | error f => exact Or.inl ⟨f, rfl, fun m => (r.withLimit m).run_refused x weights start hadm⟩
  | ok u =>
    choose n phase hends hrun using run_withLimit hadm weights
    refine Or.inr ⟨_, _, _, fun m => r.outcome x weights start (n m) (phase m),
      r.unbounded_orbit x weights start hadm, fun m => ⟨hrun m, leaves_outcome (hends m)⟩,
      fun m M hle => outcome_of_le (hends m) (hends M) hle, fun hcheck m m' => ?_⟩
    have hres : ∀ m, r.outcome x weights start (n m) (phase m) =
        r.outcome x weights start m .exhausted := by
      intro m
      obtain ⟨hn, hphase⟩ := eq_of_ends_of_unchecked hcheck (hends m)
      rw [hn, hphase]
    -- the second run starts where the first one ended, at centroids of the same shape
    have hadm' : r.admission x (r.kernel.orbit x weights start m) = .ok () := by
      rw [r.admission_congr x (r.kernel.rows_orbit x weights start m)
        (r.kernel.cols_orbit x weights start m), hadm]
    obtain ⟨n', phase', hends', hagain⟩ := run_withLimit hadm' weights m'
    obtain ⟨rfl, rfl⟩ := eq_of_ends_of_unchecked hcheck hends'
    simp only [hres]
    refine ⟨_, hagain, ?_⟩
    simp only [outcome, Kernel.orbit_orbit, and_self]

end Refiner

end Clustering
