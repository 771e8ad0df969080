import Clustering.Proofs.Seeding.Starts

/-!
# Shapes of starting centroids

How many indices seeding draws does not depend on what the draws are: samples, paddings and picks
are as many as were asked for, even if the source leaves its range.  So the starting centroids of
every method have a row for each cluster and the width of the data (`yields_shape_start`).
-/

namespace Clustering

variable {α : Type}

/-- The matrix has so many rows and columns. -/
structure Matrix.HasShape (m : Matrix α) (rows cols : ℕ) : Prop where
  rows_eq : m.rows = rows
  cols_eq : m.cols = cols

theorem Matrix.hasShape_pick (m : Matrix α) {indices : List ℕ} {k : ℕ} (h : indices.length = k) :
    (m.pick indices).HasShape k m.cols :=
  ⟨rows_pick.trans h, cols_pick⟩

/-- A refinement keeps the shape of its start. -/
theorem Refiner.hasShape_of_run {ω : Type} [Scalar α] [Scalar ω] [Widening α ω] [Memory]
    [BlockProduct α] {r : Refiner ω} {x start : Matrix α} {weights : Option (List α)}
    {res : Refined α ω} {rows cols : ℕ} (hstart : start.HasShape rows cols)
    (h : (r.run x weights start).1 = .ok res) : res.centroids.HasShape rows cols := by
  obtain ⟨-, m, phase, -, rfl⟩ := r.eq_outcome_of_run x weights start h
  exact ⟨(r.kernel.rows_orbit x weights start m).trans hstart.rows_eq,
    (r.kernel.cols_orbit x weights start m).trans hstart.cols_eq⟩

theorem length_floydFrom (picked : Std.TreeSet ℕ) (ps : List (ℕ × ℕ)) :
    (floydFrom picked ps).length = ps.length := by
  induction ps generalizing picked with
  | nil => rfl
  | cons p ps ih => rw [floydFrom, List.length_cons, ih, List.length_cons]

namespace Seeding

variable {σ ω : Type} [Source σ ω]

/-! ### Numbers of indices -/

omit [Source σ ω] in
theorem yields_length_mapM {β γ : Type} (f : γ → Seeding σ ω β) (us : List γ) :
    Yields (us.mapM f) fun vs => vs.length = us.length :=
  (Yields.mapM (S := fun _ _ => True) (fun _ => .of_forall fun _ => trivial) us).mono
    fun _ h => h.length_eq.symm

theorem yields_length_sampleRows (n k : ℕ) :
    Yields (sampleRows n k : Seeding σ ω (List ℕ)) fun is => is.length = k := by
  unfold sampleRows
  split_ifs with hk
  · refine (yields_length_mapM index _).bind fun draws hdraws => yields_pure ?_
    rw [floyd, length_floydFrom, List.length_zip, hdraws, Nat.min_self, floydTops,
      List.length_range']
  · refine (yields_length_mapM index _).bind fun more hmore => yields_andThen fun _ =>
      yields_pure ?_
    rw [List.length_append, List.length_range, hmore, List.length_replicate]
    omega

theorem yields_length_pad (n : ℕ) : ∀ (count : ℕ) (used : Std.TreeSet ℕ),
    Yields (pad n count used : Seeding σ ω (List ℕ)) fun is => is.length = count
  | 0, _ => yields_pure rfl
  | count + 1, used => by
    unfold pad
    split_ifs
    · exact yields_andThen fun r => (yields_length_pad n count _).bind fun more hmore =>
        yields_pure (by rw [List.length_cons, hmore])
    · exact yields_andThen fun r => (yields_length_pad n count _).bind fun more hmore =>
        yields_pure (by rw [List.length_cons, hmore])

variable [Scalar α] [Scalar ω] [Widening α ω]

theorem yields_length_morePicks (x : Matrix α) (weights : List α) (count : ℕ) (s : Picks α) :
    Yields (morePicks x weights count s : Seeding σ ω (Picks α)) fun s' =>
      s'.indices.length = s.indices.length + count := by
  refine yields_morePicks_of (Q := fun k s => s.indices.length = k) (fun k s hs => ?_) count _ rfl
  exact yields_andThen fun i => yields_pure (hs ▸ List.length_append)

/-! ### Numbers of candidates -/

/-- The rows that a round finds are no more than there are. -/
theorem yields_length_foundRows (n : ℕ) (ws : List ω) (expected : ω) (c : Candidates α) :
    Yields (foundRows n ws expected c : Seeding σ ω (List ℕ)) fun found => found.length ≤ n :=
  (yields_foundRows n ws expected c).mono fun _ h => h.1.length_le.trans_eq List.length_range

/-- As many candidates as `n` rows may become at most: one, and all of them in each round. -/
def candidateLimit (n : ℕ) : ℕ := Oversampling.rounds * n + 1

variable [Memory]

omit [Source σ ω] in
theorem RoundStep.length_le [BlockProduct α] {e : Kernel} {x : Matrix α} {ws : List ω}
    {expected : ω} {c c' : Candidates α} (h : RoundStep e x ws expected c c') :
    c'.indices.length ≤ c.indices.length + x.rows := by
  cases h with
  | skipped => exact Nat.le_add_right _ _
  | sampled nonempty sublist fresh potential_pos won nearest =>
    have hfound := sublist.length_le
    rw [List.length_range] at hfound
    rw [List.length_append]
    omega

theorem yields_length_candidates [BlockProduct α] (e : Kernel) (x : Matrix α)
    (weights : Option (List α)) (expected : ω) :
    Yields (candidates e x weights expected : Seeding σ ω (Candidates α)) fun c =>
      c.indices.length ≤ candidateLimit x.rows := by
  have hfirst : Yields (firstCandidate e x : Seeding σ ω (Candidates α)) fun c =>
      c.indices.length ≤ 0 * x.rows + 1 := by
    refine (yields_opening e x).mono fun c h => ?_
    obtain ⟨first, near, -, rfl⟩ := h
    exact Nat.le_add_left _ _
  rw [candidates_eq_after]
  refine yields_candidatesAfter (Q := fun t c => c.indices.length ≤ t * x.rows + 1) hfirst
    (fun t c c' hc hstep => ?_) Oversampling.rounds
  have hround := hstep.length_le
  rw [Nat.succ_mul]
  omega

/-! ### Starting centroids -/

theorem yields_shape_plusPlus (x : Matrix α) (weights : Option (List α)) (k : ℕ) :
    Yields (plusPlus x weights k : Seeding σ ω (Matrix α)) fun c => c.HasShape k x.cols := by
  unfold plusPlus
  refine yields_andThen fun _ => yields_andThen fun _ => ?_
  have hfirst : Yields (firstPick x (pickWeights x weights) : Seeding σ ω (Picks α)) fun s =>
      s.indices.length = 1 := yields_andThen fun i => yields_pure rfl
  refine hfirst.bind fun first hfirst => yields_andThen fun _ => ?_
  refine (yields_length_morePicks x _ _ first).bind fun picks hpicks => yields_pure ?_
  refine x.hasShape_pick ?_
  rw [List.length_take]
  omega

variable [BlockProduct α]

omit [Source σ ω] in
theorem yields_shape_refine (r : Refiner ω) (x : Matrix α) (weights : Option (List α))
    {start : Matrix α} {rows cols : ℕ} (h : start.HasShape rows cols) :
    Yields (refine r x weights start : Seeding σ ω (Refined α ω)) fun res =>
      res.centroids.HasShape rows cols :=
  (yields_refine r x weights start).mono fun _ hrun => Refiner.hasShape_of_run h hrun

/-- The weighted candidates, with as many seeds as are wanted. -/
theorem yields_shape_weighCandidates (e : Kernel) (x : Matrix α) (weights : Option (List α))
    (k : ℕ) (indices : List ℕ) :
    Yields (weighCandidates e x weights k indices : Seeding σ ω (Reduction α)) fun r =>
      r.rows.HasShape indices.length x.cols ∧ r.start.HasShape k x.cols := by
  unfold weighCandidates
  refine (yields_pick? x indices).bind fun rows hrows => yields_andThen fun _ =>
    yields_andThen fun sweep => ?_
  subst hrows
  refine (yields_shape_plusPlus _ _ k).bind fun start hstart => yields_pure ?_
  rw [Matrix.cols_pick] at hstart
  exact ⟨x.hasShape_pick rfl, hstart⟩

theorem yields_shape_oversample (p : Params ω) (e : Kernel) (x : Matrix α)
    (weights : Option (List α)) :
    Yields (oversample p e x weights : Seeding σ ω (Matrix α × SeedStats)) fun cs =>
      cs.1.HasShape p.clusters x.cols := by
  unfold oversample
  refine yields_andThen fun c => ?_
  dsimp only
  split_ifs with hless heq
  · refine yields_andThen fun _ => (yields_length_pad _ _ _).bind fun more hmore =>
      (yields_pick? _ _).bind fun start hstart => yields_pure ?_
    subst hstart
    refine x.hasShape_pick ?_
    rw [List.length_append, hmore]
    omega
  · refine (yields_pick? _ _).bind fun start hstart => yields_pure ?_
    subst hstart
    exact x.hasShape_pick heq
  · refine Yields.bind (P := fun res : Refined α ω => res.centroids.HasShape p.clusters x.cols) ?_
      fun res hres => yields_pure hres
    unfold reduce
    refine (yields_shape_weighCandidates _ _ _ _ _).bind fun r hr =>
      yields_andThen fun refiner => ?_
    exact (yields_shape_refine refiner r.rows _ hr.2).bind fun res hres => yields_andThen fun _ =>
      yields_pure hres

/-- The starting centroids of every method have a row for each cluster and the width of the
data. -/
theorem yields_shape_start (p : Params ω) (e : Kernel) (x : Matrix α) (weights : Option (List α))
    (array : Matrix α) :
    Yields (start p e x weights array : Seeding σ ω (Matrix α × SeedStats)) fun cs =>
      cs.1.HasShape p.clusters x.cols := by
  unfold start
  cases p.method with
  | array =>
    refine (yields_attempt _).bind fun c hc => yields_pure ?_
    unfold startFromArray at hc
    split_ifs at hc with hrows hcols
    rw [not_not] at hrows hcols
    rw [Matrix.eq_of_copy? hc]
    exact ⟨hrows, hcols⟩
  | random =>
    refine Yields.bind (P := fun c : Matrix α => c.HasShape p.clusters x.cols) ?_
      fun c hc => yields_pure hc
    unfold startFromRows
    refine yields_andThen fun _ => (yields_length_sampleRows _ _).bind fun is his => ?_
    refine (yields_pick? _ _).mono fun c hc => ?_
    subst hc
    exact x.hasShape_pick his
  | scalable => exact yields_shape_oversample p e x weights
  | unsupported => exact yields_throw _

end Seeding

end Clustering
