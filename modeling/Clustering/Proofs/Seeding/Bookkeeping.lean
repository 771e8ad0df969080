import Clustering.Proofs.Seeding.Gaps
import Clustering.Proofs.Ranges

/-!
# The books of oversampled seeding

What oversampled seeding reports agrees with what it does (`Seeding.Books`).  Its candidates are
distinct rows, each round is sampled or skipped, and there are as many centroids as clusters.  If
there are no more candidates than clusters, the centroids are the candidates in their order and as
many rows as are padded; padding repeats no index while an unused one is left
(`NewWhileMissing`), so that as many rows are used as can be.  Otherwise the centroids are
those of a refinement that made an iteration, and not more than it may.

In exact arithmetic a row that wins a toss has positive weight, and positive distance to every
candidate of the rounds before.
-/

namespace Clustering.Seeding

open Oversampling

/-! ### What is reported -/

section Books

variable {α σ ω : Type} [Scalar α] [Scalar ω] [Widening α ω] [Memory] [BlockProduct α]

/-- What oversampled seeding of `k` clusters reports of its candidates, and makes of them. -/
structure Books (x : Matrix α) (k : ℕ) (indices : List ℕ) (start : Matrix α) (stats : SeedStats) :
    Prop where
  nodup : indices.Nodup
  lt : ∀ i ∈ indices, i < x.rows
  rounds : stats.roundsSampled + stats.roundsSkipped = Oversampling.rounds
  candidates : stats.candidates = indices.length
  candidates_pos : 1 ≤ stats.candidates
  candidates_le : stats.candidates ≤ x.rows
  padded : stats.padded = k - stats.candidates
  rows : start.rows = k
  /-- The candidates and the rows that they are padded with. -/
  few : stats.candidates ≤ k → stats.reductionIterations = 0 ∧
    ∃ more, RowIndices x.rows stats.padded more ∧
      start = .ofRows x.cols ((indices ++ more).map x.row) ∧
      (indices ++ more).toFinset.card = min x.rows k ∧
      NewWhileMissing (Finset.range x.rows) (indices ++ more)
  many : k < stats.candidates → 1 ≤ stats.reductionIterations ∧
    stats.reductionIterations ≤ Oversampling.reductionIterations

/-- The end of oversampled seeding: the candidates are padded, taken as they are, or reduced. -/
def finish [Source σ ω] (p : Params ω) (e : Kernel) (x : Matrix α) (weights : Option (List α))
    (c : Candidates α) : Seeding σ ω (Matrix α × SeedStats) := do
  let k := p.clusters
  let stats : SeedStats := ⟨c.sampled, c.skipped, c.indices.length, 0, 0⟩
  if c.indices.length < k then
    record [.padding c.indices.length k]
    let padding := k - c.indices.length
    let more ← pad x.rows padding (.ofList c.indices)
    return (← attempt (x.pick? (c.indices ++ more)), { stats with padded := padding })
  else if c.indices.length = k then
    return (← attempt (x.pick? c.indices), stats)
  else
    let refined ← reduce e x weights p.tolerance k c.indices
    return (refined.centroids, { stats with reductionIterations := refined.iterations })

theorem oversample_eq [Source σ ω] (p : Params ω) (e : Kernel) (x : Matrix α)
    (weights : Option (List α)) :
    (oversample p e x weights : Seeding σ ω (Matrix α × SeedStats)) =
      candidates e x weights (p.oversampling * (p.clusters : ω)) >>= finish p e x weights :=
  rfl

section Ends

variable [Source σ ω] [Source.InRange σ] {x : Matrix α} {weights : Option (List α)}
  {p : Params ω} {e : Kernel} {c : Candidates α}

theorem yields_finish (hc : CandidatesOf x.rows c)
    (hrounds : c.sampled + c.skipped = Oversampling.rounds) :
    Yields (finish p e x weights c : Seeding σ ω (Matrix α × SeedStats)) fun v =>
      Books x p.clusters c.indices v.1 v.2 := by
  have hpos : 1 ≤ c.indices.length := List.length_pos_iff.mpr hc.nonempty
  have hx : 0 < x.rows := hpos.trans hc.length_le
  have hrange : ∀ {is : List ℕ}, (∀ i ∈ is, i < x.rows) → ∀ i ∈ is, i ∈ Finset.range x.rows :=
    fun h i hi => Finset.mem_range.mpr (h i hi)
  have hdistinct : NewWhileMissing (Finset.range x.rows) c.indices :=
    .of_nodup hc.nodup (hrange hc.lt)
  unfold finish
  dsimp only
  -- the three ends of oversampling: padding, nothing to do, reduction
  by_cases hless : c.indices.length < p.clusters
  · rw [if_pos hless]
    have hpad := (yields_pad (σ := σ) (ω := ω) hx (p.clusters - c.indices.length)
      (.ofList c.indices)).and (yields_new_pad hx _ (fun j => mem_ofList_iff) hc.lt hdistinct)
    refine yields_andThen fun _ => hpad.bind fun more hmore =>
      (yields_pick? _ _).bind fun start hstart => yields_pure ?_
    subst hstart
    obtain ⟨hmore, hfresh⟩ := hmore
    have hlength : (c.indices ++ more).length = p.clusters := by
      rw [List.length_append, hmore.length]
      omega
    have hlt : ∀ i ∈ c.indices ++ more, i < x.rows :=
      List.forall_mem_append.mpr ⟨hc.lt, hmore.lt⟩
    refine ⟨hc.nodup, hc.lt, hrounds, rfl, hpos, hc.length_le, rfl,
      Matrix.rows_pick.trans hlength, fun _ => ⟨rfl, more, hmore, x.pick_eq _, ?_, hfresh⟩,
      fun hmany => absurd hmany (Nat.not_lt_of_lt hless)⟩
    -- padding draws an index anew only once all rows are in use
    rw [hfresh.card_toFinset (hrange hlt), hlength, Finset.card_range, Nat.min_comm]
  · rw [if_neg hless]
    by_cases hequal : c.indices.length = p.clusters
    · rw [if_pos hequal]
      refine (yields_pick? _ _).bind fun start hstart => yields_pure ?_
      subst hstart
      have hnone : p.clusters - c.indices.length = 0 := by omega
      refine ⟨hc.nodup, hc.lt, hrounds, rfl, hpos, hc.length_le, hnone.symm,
        Matrix.rows_pick.trans hequal, fun _ => ⟨rfl, [], ⟨rfl, nofun⟩, ?_, ?_, ?_⟩,
        fun hmany => absurd hequal (Nat.ne_of_gt hmany)⟩
      · rw [List.append_nil]
        exact x.pick_eq _
      · rw [List.append_nil, hdistinct.card_toFinset (hrange hc.lt), hequal, Finset.card_range,
          Nat.min_comm]
      · rwa [List.append_nil]
    · rw [if_neg hequal]
      have hmany : p.clusters < c.indices.length := by omega
      -- only the shape and the number of iterations are asked of the reduction
      have hreduce : Yields (reduce e x weights p.tolerance p.clusters c.indices :
          Seeding σ ω (Refined α ω)) fun res => res.centroids.rows = p.clusters ∧
            1 ≤ res.iterations ∧ res.iterations ≤ Oversampling.reductionIterations := by
        unfold reduce
        refine (yields_shape_weighCandidates e x weights p.clusters c.indices).bind
          fun r hr => (yields_attempt _).bind fun refiner hnew =>
            (yields_refine refiner r.rows (some r.weights) r.start).bind fun res hrun =>
              yields_andThen fun _ => yields_pure ?_
        cases hnew
        have hlimit : 0 < Oversampling.reductionIterations := by decide
        have hbounds := Refiner.inBounds_of_run hlimit hrun
        exact ⟨(Refiner.hasShape_of_run hr.2 hrun).rows_eq, hbounds.iterations_pos,
          hbounds.iterations_le⟩
      refine hreduce.bind fun res hres => yields_pure ?_
      obtain ⟨hrows, hmin, hmax⟩ := hres
      have hnone : p.clusters - c.indices.length = 0 := by omega
      exact ⟨hc.nodup, hc.lt, hrounds, rfl, hpos, hc.length_le, hnone.symm, hrows,
        fun hfew => absurd hmany (Nat.not_lt_of_le hfew), fun _ => ⟨hmin, hmax⟩⟩

omit [Source.InRange σ] in
/-- Every round is either sampled or skipped. -/
theorem yields_rounds_candidatesAfter (expected : ω) (t : ℕ) :
    Yields (candidatesAfter e x weights expected t : Seeding σ ω (Candidates α)) fun c =>
      c.sampled + c.skipped = t := by
  have hfirst : Yields (firstCandidate e x : Seeding σ ω (Candidates α)) fun c =>
      c.sampled + c.skipped = 0 := by
    refine (yields_opening e x).mono fun c h => ?_
    obtain ⟨first, near, -, rfl⟩ := h
    rfl
  refine yields_candidatesAfter (Q := fun t c => c.sampled + c.skipped = t) hfirst ?_ t
  intro t c c' hc hstep
  cases hstep with
  | skipped =>
    show c.sampled + (c.skipped + 1) = t + 1
    omega
  | sampled nonempty sublist fresh potential_pos won nearest =>
    show c.sampled + 1 + c.skipped = t + 1
    omega

end Ends

end Books

/-! ### Rows that win a toss -/

section Exact

variable {K : Type} [ExactScalar K] [Memory] {x : Matrix K} {e : Kernel} {ws : List K}
  {expected : K} {c c' : Candidates K}

omit [Memory] in
/-- Only a row of positive weight has a chance. -/
theorem weight_pos_of_chance_pos {potential weight gap : K} (hexpected : 0 < expected)
    (hpotential : 0 < potential) (hgap : 0 < gap)
    (h : 0 < chance expected potential weight gap) : 0 < weight := by
  by_contra hweight
  have hnonpos : expected * weight * gap / potential ≤ 0 :=
    div_nonpos_of_nonpos_of_nonneg
      (mul_nonpos_of_nonpos_of_nonneg
        (mul_nonpos_of_nonneg_of_nonpos hexpected.le (not_lt.mp hweight)) hgap.le) hpotential.le
  have hchance : chance expected potential weight gap = expected * weight * gap / potential :=
    if_pos (hnonpos.trans_lt one_pos)
  rw [hchance] at h
  exact absurd h (not_lt.mpr hnonpos)

/-- A round adds rows of positive weight only, at positive distance to all candidates before. -/
theorem RoundStep.exists_found (hstep : RoundStep e x ws expected c c') (hexpected : 0 < expected)
    (hgaps : LeastGaps x c.indices c.gaps) :
    ∃ found, c'.indices = c.indices ++ found ∧ ∀ i ∈ found, 0 < ws.getD i 0 ∧
      ∀ l ∈ c.indices, 0 < sqDist (x.row i) (x.row l) := by
  cases hstep with
  | skipped => exact ⟨[], (List.append_nil _).symm, nofun⟩
  | @sampled found near nonempty sublist fresh potential_pos won nearest =>
    refine ⟨found, rfl, fun i hi => ?_⟩
    obtain ⟨w, gap, hw, hgap, hopen, hchance⟩ := won i hi
    have hpos : 0 < gap := not_le.mp hopen
    constructor
    · rw [List.getD_eq_getElem?_getD, hw, Option.getD_some]
      exact weight_pos_of_chance_pos hexpected potential_pos hpos hchance
    · intro l hl
      exact hpos.trans_le (hgaps.le_sqDist hgap hl)

end Exact

/-- The books of oversampled seeding are kept: whatever is drawn, a seeding that returns reports
what it does.  In exact arithmetic each round adds only rows of positive weight, at positive
distance to the candidates of all rounds before. -/
theorem oversample_books :
    (∀ {α σ ω : Type} [Scalar α] [Scalar ω] [Widening α ω] [Source σ ω] [Source.InRange σ]
        [Memory] [BlockProduct α] {x : Matrix α}, 0 < x.rows →
      ∀ (p : Params ω) (e : Kernel) (weights : Option (List α)) (s u : Session σ ω)
        (start : Matrix α) (stats : SeedStats),
        (oversample p e x weights).run s = (.ok (start, stats), u) →
          ∃ c t, (candidates e x weights (p.oversampling * (p.clusters : ω))).run s =
              (.ok c, t) ∧
            Books x p.clusters c.indices start stats) ∧
    ∀ {K σ : Type} [ExactScalar K] [Source σ K] [Source.InRange σ] [Memory] {x : Matrix K},
      x.Full → 0 < x.rows → ∀ (p : Params K), 0 < p.oversampling → 1 ≤ p.clusters →
        ∀ (e : Kernel) (weights : Option (List K)) (s : Session σ K),
          (candidates e x weights (p.oversampling * (p.clusters : K)) :
              Seeding σ K (Candidates K)) =
            candidatesAfter e x weights (p.oversampling * (p.clusters : K)) Oversampling.rounds ∧
          (∀ c u, (candidatesAfter e x weights (p.oversampling * (p.clusters : K)) 0).run s =
            (.ok c, u) → ∃ first, c.indices = [first]) ∧
          ∀ t c' u', (candidatesAfter e x weights (p.oversampling * (p.clusters : K)) (t + 1)).run
              s = (.ok c', u') →
            ∃ c u found,
              (candidatesAfter e x weights (p.oversampling * (p.clusters : K)) t).run s =
                (.ok c, u) ∧
              c'.indices = c.indices ++ found ∧
              ∀ i ∈ found, 0 < (weightsFor weights x.rows).getD i 0 ∧
                ∀ l ∈ c.indices, 0 < sqDist (x.row i) (x.row l) := by
  constructor
  · intro α σ ω _ _ _ _ _ _ _ x hx p e weights s u start stats h
    rw [oversample_eq] at h
    obtain ⟨c, t, hc, hfinish⟩ := exists_of_run_bind h
    have hcandidates := yields_candidates hx e weights _ s c (congrArg Prod.fst hc)
    have hrounds := yields_rounds_candidatesAfter _ _ s c (congrArg Prod.fst hc)
    exact ⟨c, t, hc, yields_finish hcandidates hrounds t _ (congrArg Prod.fst hfinish)⟩
  · intro K σ _ _ _ _ x hfull hx p hover hk e weights s
    have hexpected : 0 < p.oversampling * (p.clusters : K) := mul_pos hover (Nat.cast_pos.mpr hk)
    refine ⟨rfl, fun c u h => ?_, fun t c' u' h => ?_⟩
    · rw [candidatesAfter_zero] at h
      obtain ⟨first, near, -, rfl⟩ := yields_opening e x s c (congrArg Prod.fst h)
      exact ⟨first, rfl⟩
    · obtain ⟨c, u, hrun, hstep⟩ := exists_round h
      -- the gaps that decide the tosses are the distances to the candidates so far
      have hgaps := (yields_gaps_candidatesAfter hfull (numberDistances x) hx e weights _ t s c
        (congrArg Prod.fst hrun)).1.gaps
      rw [rowWeights_eq] at hstep
      obtain ⟨found, hfound, hwon⟩ := hstep.exists_found hexpected hgaps
      exact ⟨c, u, found, hrun, hfound, hwon⟩

/-! ### A row without weight -/

namespace Padded

/-- Three rows, the last of them without weight. -/
def points : Matrix ℚ := ⟨3, 1, [0, 2, 5]⟩

def weights : Option (List ℚ) := some [1, 1, 0]

/-- Three clusters, for which only two rows become candidates. -/
def params : Params ℚ := { Params.standard with clusters := 3 }

def kernel : Kernel := ⟨.expanded, 2, 1, Nat.two_pos⟩

/-- Nothing is drawn yet, and nothing recorded. -/
def session : Session (Counter ℚ) ℚ := ⟨⟨0⟩, []⟩

end Padded

open Padded in
/-- The second row becomes a candidate in the first round, and the third one is padded. -/
theorem oversample_books_padded :
    (∃ start stats u c t, (oversample params kernel points weights).run session =
        (.ok (start, stats), u) ∧
      start = points ∧ stats = ⟨1, 7, 2, 1, 0⟩ ∧
      (candidates kernel points weights (params.oversampling * (params.clusters : ℚ))).run
        session = (.ok c, t) ∧
      Books points 3 c.indices start stats) ∧
    ∃ c u found, (candidatesAfter kernel points weights
        (params.oversampling * (params.clusters : ℚ)) 0).run session = (.ok c, u) ∧
      c.indices ++ found = [0, 1] ∧
      ∀ i ∈ found, 0 < (weightsFor weights points.rows).getD i 0 ∧
        ∀ l ∈ c.indices, 0 < sqDist (points.row i) (points.row l) := by
  have hrun : ((oversample params kernel points weights).run session).1 =
      .ok (points, ⟨1, 7, 2, 1, 0⟩) := by decide +kernel
  have hround : ((candidatesAfter kernel points weights
      (params.oversampling * (params.clusters : ℚ)) 1).run session).1 =
        .ok ⟨[0, 1], [0, 0, 9], 1, 0⟩ := by decide +kernel
  obtain ⟨c, t, hc, hbooks⟩ := oversample_books.1 (σ := Counter ℚ) (by decide) params kernel
    weights session _ _ _ (Prod.ext hrun rfl)
  obtain ⟨-, -, hrounds⟩ := oversample_books.2 (σ := Counter ℚ) (x := points) (by decide)
    (by decide) params (by decide +kernel) (by decide) kernel weights session
  obtain ⟨c₀, u, found, hstage, hfound, hwon⟩ := hrounds 0 _ _ (Prod.ext hround rfl)
  exact ⟨⟨_, _, _, c, t, Prod.ext hrun rfl, rfl, rfl, hc, hbooks⟩,
    c₀, u, found, hstage, hfound.symm, hwon⟩

end Clustering.Seeding
