import Clustering.Proofs.Lloyd.Clusters
import Clustering.Proofs.Seeding.Coverage
import Clustering.Proofs.Seeding.Rounds

/-!
# Starting centroids that fit the data

If the source keeps to the range of each draw, then all candidates, picks and paddings are indices
of rows.  So starting centroids are the supplied ones, or rows of the data, or what a refinement
makes of candidates that are reduced (`StartOf`); the rows are all rows if there are clusters enough
for them.  What is picked from full data is full: in each case the starting centroids are as many as
there are clusters, and fit the data (`StartOf.fits`, `yields_start`), and so do the candidates that
oversampling reduces and their seeds (`ReductionOf.fits`).
-/

namespace Clustering

namespace Matrix

variable {α : Type} {m : Matrix α} {indices : List ℕ}

@[simp] theorem rows_pick : (m.pick indices).rows = indices.length := by
  simp [pick_eq, ofRows]

@[simp] theorem cols_pick : (m.pick indices).cols = m.cols := by
  simp [pick_eq, ofRows]

theorem rows_pick_pos (h : indices ≠ []) : 0 < (m.pick indices).rows := by
  rw [rows_pick]
  exact List.length_pos_iff.mpr h

/-- Rows of a full matrix make up a full matrix. -/
theorem full_pick (hm : m.Full) (h : ∀ i ∈ indices, i < m.rows) : (m.pick indices).Full := by
  rw [pick_eq]
  refine full_ofRows fun v hv => ?_
  obtain ⟨i, hi, rfl⟩ := List.mem_map.mp hv
  exact length_row hm (h i hi)

theorem rowList_pick (hm : m.Full) (h : ∀ i ∈ indices, i < m.rows) :
    (m.pick indices).rowList = indices.map m.row := by
  rw [pick_eq]
  refine rowList_ofRows fun v hv => ?_
  obtain ⟨i, hi, rfl⟩ := List.mem_map.mp hv
  exact length_row hm (h i hi)

theorem eq_of_copy? [Scalar α] [Memory] {c : Matrix α} (h : m.copy? = .ok c) : c = m := by
  unfold copy? at h
  cases hstorage : Memory.storage (Scalar.bytes α) (spanWord (Scalar.bytes α) m.shapeSize) with
  | error f => rw [hstorage] at h; cases h
  | ok u => rw [hstorage] at h; cases h; rfl

/-- Data and some of their rows. -/
theorem fits_pick (hm : m.Full) (h : ∀ i ∈ indices, i < m.rows) : m.Fits (m.pick indices) :=
  ⟨hm, full_pick hm h, cols_pick⟩

end Matrix

/-- A refinement keeps the number of the centroids, and that they fit the data. -/
theorem Refiner.fits_of_run {α ω : Type} [Scalar α] [Scalar ω] [Widening α ω] [Memory]
    [BlockProduct α] {r : Refiner ω} {x start : Matrix α} {weights : Option (List α)}
    {res : Refined α ω} (hfits : x.Fits start) (h : (r.run x weights start).1 = .ok res) :
    res.centroids.rows = start.rows ∧ x.Fits res.centroids := by
  obtain ⟨-, m, phase, -, rfl⟩ := r.eq_outcome_of_run x weights start h
  exact ⟨r.kernel.rows_orbit x weights start m, r.kernel.fits_orbit x weights start hfits m⟩

namespace Seeding

variable {α σ ω : Type} [Scalar α]

theorem length_addWeights (sums : List α) (batch : List α × List (Nearest α)) :
    (Oversampling.addWeights sums batch).length = sums.length := by
  unfold Oversampling.addWeights
  induction batch.1.zip batch.2 generalizing sums with
  | nil => rfl
  | cons q qs ih => rw [List.foldl_cons, ih, List.length_modify]

theorem length_candidateWeights (k : ℕ) (weights : Option (List α))
    (sweep : List (NearestBatch α)) :
    (Oversampling.candidateWeights k weights sweep).length = k := by
  have key : ∀ (batches : List (List α × List (Nearest α))) (sums : List α),
      (batches.foldl Oversampling.addWeights sums).length = sums.length := by
    intro batches
    induction batches with
    | nil => exact fun sums => rfl
    | cons b batches ih => exact fun sums => (ih _).trans (length_addWeights sums b)
  rw [Oversampling.candidateWeights, key, List.length_replicate]

theorem candidateWeights_ne_nil {k : ℕ} (hk : 0 < k) (weights : Option (List α))
    (sweep : List (NearestBatch α)) : Oversampling.candidateWeights k weights sweep ≠ [] := by
  rw [← List.length_pos_iff, length_candidateWeights]
  exact hk

theorem length_pickWeights_le (x : Matrix α) (weights : Option (List α)) :
    (pickWeights x weights).length ≤ x.rows :=
  List.length_take_le _ _

theorem pickWeights_ne_nil {x : Matrix α} {weights : List α} (hx : 0 < x.rows)
    (hw : weights ≠ []) : pickWeights x (some weights) ≠ [] := by
  rw [pickWeights, Option.getD_some, ← List.length_pos_iff, List.length_take]
  exact lt_min hx (List.length_pos_iff.mpr hw)

variable [Scalar ω] [Widening α ω]

variable [Source σ ω] [Source.InRange σ]

/-! ### Greedy seeding -/

omit [Source.InRange σ] in
/-- What every pick keeps is kept by any number of them. -/
theorem yields_morePicks_of {x : Matrix α} {weights : List α} {Q : ℕ → Picks α → Prop}
    (hnext : ∀ k s, Q k s → Yields (nextPick x weights s : Seeding σ ω (Picks α)) (Q (k + 1))) :
    ∀ (count k : ℕ) {s : Picks α}, Q k s →
      Yields (morePicks x weights count s : Seeding σ ω (Picks α)) (Q (k + count))
  | 0, _, _, hs => yields_pure hs
  | count + 1, k, s, hs => by
    unfold morePicks
    refine (hnext k s hs).bind fun s' hs' => ?_
    rw [show k + (count + 1) = k + 1 + count by omega]
    exact yields_morePicks_of hnext count (k + 1) hs'

/-- Picks are row indices, and there is a gap for every row. -/
structure PicksOf (n k : ℕ) (s : Picks α) : Prop where
  indices : RowIndices n k s.indices
  gaps : s.gaps.length = n

section Greedy

variable {x : Matrix α} {weights : List α} (hw : weights ≠ [])
  (hlen : weights.length ≤ x.rows)
include hw hlen

theorem yields_firstPick :
    Yields (firstPick x weights : Seeding σ ω (Picks α)) (PicksOf x.rows 1) := by
  unfold firstPick
  refine (yields_proportional hw).bind fun i hi => yields_pure ⟨?_, ?_⟩
  · exact ⟨rfl, by simpa using Nat.lt_of_lt_of_le hi hlen⟩
  · rw [openGaps, List.length_map, Matrix.length_rowList]

theorem yields_nextPick {k : ℕ} {s : Picks α} (hs : PicksOf x.rows k s) :
    Yields (nextPick x weights s : Seeding σ ω (Picks α)) (PicksOf x.rows (k + 1)) := by
  have hmass : List.zipWith (· * ·) weights s.gaps ≠ [] := by
    rw [← List.length_pos_iff, List.length_zipWith, hs.gaps]
    have := List.length_pos_iff.mpr hw
    omega
  unfold nextPick
  refine (yields_proportional hmass).bind fun i hi => yields_pure ⟨?_, ?_⟩
  · have hrow : i < x.rows := by
      rw [List.length_zipWith] at hi
      omega
    exact hs.indices.append ⟨rfl, by simpa using hrow⟩
  · rw [closeGaps, List.length_zipWith, Matrix.length_rowList, hs.gaps, Nat.min_self]

theorem yields_morePicks (count k : ℕ) {s : Picks α} (hs : PicksOf x.rows k s) :
    Yields (morePicks x weights count s : Seeding σ ω (Picks α)) (PicksOf x.rows (k + count)) :=
  yields_morePicks_of (fun _ _ hs => yields_nextPick hw hlen hs) count k hs

end Greedy

/-- The seeds among weighted rows are `k` of the rows. -/
theorem yields_plusPlus [Memory] {x : Matrix α} {weights : List α} (hx : 0 < x.rows)
    (hw : weights ≠ []) (k : ℕ) :
    Yields (plusPlus x (some weights) k : Seeding σ ω (Matrix α)) fun c =>
      ∃ is, RowIndices x.rows k is ∧ c = x.pick is := by
  have hne := pickWeights_ne_nil hx hw
  have hlen := length_pickWeights_le x (some weights)
  unfold plusPlus
  refine yields_andThen fun _ => yields_andThen fun _ => ?_
  refine (yields_firstPick hne hlen).bind fun first hfirst => yields_andThen fun _ => ?_
  refine (yields_morePicks hne hlen (k - 1) 1 hfirst).bind fun s hs => yields_pure ?_
  refine ⟨s.indices.take k, ⟨?_, fun i hi => hs.indices.lt i (List.mem_of_mem_take hi)⟩, rfl⟩
  rw [List.length_take, hs.indices.length]
  omega

/-! ### Oversampled seeding -/

section Oversampling

variable [Memory] [BlockProduct α] {x : Matrix α}

omit [Scalar ω] [Widening α ω] in
theorem yields_firstCandidate (hx : 0 < x.rows) (e : Kernel) :
    Yields (firstCandidate e x : Seeding σ ω (Candidates α)) (CandidatesOf x.rows) := by
  unfold firstCandidate
  refine (yields_index_lastIndex hx).bind fun first hlt => yields_andThen fun _ =>
    yields_andThen fun _ => yields_andThen fun _ => yields_pure ⟨nofun, ?_, ?_⟩
  · simpa using hlt
  · simp

theorem yields_candidates (hx : 0 < x.rows) (e : Kernel) (weights : Option (List α))
    (expected : ω) :
    Yields (candidates e x weights expected : Seeding σ ω (Candidates α))
      (CandidatesOf x.rows) := by
  rw [candidates_eq_after]
  exact yields_candidatesAfter (Q := fun _ => CandidatesOf x.rows) (yields_firstCandidate hx e)
    (fun _ _ _ hc hstep => hstep.candidatesOf hc) _

/-- What is reduced to `k` seeds: the candidates, the weights of the rows nearest to each of them,
and the seeds, which are candidates. -/
structure ReductionOf (e : Kernel) (x : Matrix α) (weights : Option (List α)) (k : ℕ)
    (indices : List ℕ) (r : Reduction α) : Prop where
  rows : r.rows = x.pick indices
  weights : r.weights =
    Oversampling.candidateWeights r.rows.rows weights (e.direct.delivered x r.rows)
  seeds : ∃ is, RowIndices r.rows.rows k is ∧ r.start = r.rows.pick is

omit [Memory] in
/-- The candidates that are reduced fit their seeds. -/
theorem ReductionOf.fits {e : Kernel} {weights : Option (List α)} {k : ℕ} {indices : List ℕ}
    {r : Reduction α} (h : ReductionOf e x weights k indices r) (hfull : x.Full)
    (hlt : ∀ i ∈ indices, i < x.rows) :
    r.start.rows = k ∧ r.rows.cols = x.cols ∧ r.rows.Fits r.start := by
  obtain ⟨is, his, hstart⟩ := h.seeds
  have hrows : r.rows.Full := by
    rw [h.rows]
    exact Matrix.full_pick hfull hlt
  rw [hstart]
  refine ⟨Matrix.rows_pick.trans his.length, ?_, Matrix.fits_pick hrows his.lt⟩
  rw [h.rows, Matrix.cols_pick]

theorem yields_weighCandidates (e : Kernel) (weights : Option (List α)) (k : ℕ)
    {c : Candidates α} (hc : CandidatesOf x.rows c) :
    Yields (weighCandidates e x weights k c.indices : Seeding σ ω (Reduction α))
      (ReductionOf e x weights k c.indices) := by
  unfold weighCandidates
  refine (yields_pick? x c.indices).bind fun rows hrows => yields_andThen fun _ => ?_
  subst hrows
  have hpos := Matrix.rows_pick_pos (m := x) hc.nonempty
  refine (yields_attempt _).bind fun sweep hsweep => ?_
  have hweights := candidateWeights_ne_nil hpos weights sweep
  have hseeds := yields_plusPlus (σ := σ) (ω := ω) hpos hweights k
  refine hseeds.bind fun start hstart => yields_pure ⟨rfl, ?_, hstart⟩
  rw [(Kernel.eq_delivered_of_sweep hsweep).2]

/-- What starting centroids are: the supplied ones; rows of the data, all of them if there are
clusters enough; or, if there are not, a refinement of candidates that are reduced. -/
inductive StartOf (p : Params ω) (e : Kernel) (x : Matrix α) (weights : Option (List α))
    (array : Matrix α) : Matrix α → Prop
  | supplied (method : p.method = .array) (rows : array.rows = p.clusters)
      (cols : array.cols = x.cols) : StartOf p e x weights array array
  | picked (method : p.method ≠ .array) {is : List ℕ} (indices : RowIndices x.rows p.clusters is)
      (covers : x.rows ≤ p.clusters → ∀ i < x.rows, i ∈ is) :
      StartOf p e x weights array (x.pick is)
  | reduced (method : p.method ≠ .array) (crowded : p.clusters < x.rows) {c : Candidates α}
      {r : Reduction α} {refiner : Refiner ω} {res : Refined α ω}
      (candidates : CandidatesOf x.rows c)
      (reduction : ReductionOf e x weights p.clusters c.indices r)
      (run : (refiner.run r.rows (some r.weights) r.start).1 = .ok res) :
      StartOf p e x weights array res.centroids

theorem StartOf.fits {p : Params ω} {e : Kernel} {weights : Option (List α)} {array c : Matrix α}
    (h : StartOf p e x weights array c) (hfull : x.Full)
    (harray : p.method = .array → array.Full) : c.rows = p.clusters ∧ x.Fits c := by
  cases h with
  | supplied method rows cols => exact ⟨rows, hfull, harray method, cols⟩
  | picked _ indices _ =>
    exact ⟨Matrix.rows_pick.trans indices.length, Matrix.fits_pick hfull indices.lt⟩
  | reduced _ _ candidates reduction run =>
    obtain ⟨hrows, hcols, hfits⟩ := reduction.fits hfull candidates.lt
    obtain ⟨hkept, hend⟩ := Refiner.fits_of_run hfits run
    exact ⟨hkept.trans hrows, hfull, hend.full_centroids, hend.cols.trans hcols⟩

omit [Scalar ω] [Widening α ω] [BlockProduct α] in
theorem yields_startFromRows (hx : 0 < x.rows) (k : ℕ) :
    Yields (startFromRows k x : Seeding σ ω (Matrix α)) fun c =>
      ∃ is, RowIndices x.rows k is ∧ (x.rows ≤ k → ∀ i < x.rows, i ∈ is) ∧ c = x.pick is := by
  have hsample : Yields (sampleRows x.rows k : Seeding σ ω (List ℕ)) fun is =>
      RowIndices x.rows k is ∧ (x.rows ≤ k → ∀ i < x.rows, i ∈ is) :=
    (yields_sampleRows hx k).and fun s is h hk => yields_covers_sampleRows hk s is h
  unfold startFromRows
  refine yields_andThen fun _ => hsample.bind fun is his => ?_
  exact (yields_pick? _ _).mono fun c hc => ⟨is, his.1, his.2, hc⟩

theorem yields_oversample (hx : 0 < x.rows) (p : Params ω) (hmethod : p.method ≠ .array)
    (e : Kernel) (weights : Option (List α)) (array : Matrix α) :
    Yields (oversample p e x weights : Seeding σ ω (Matrix α × SeedStats)) fun cs =>
      StartOf p e x weights array cs.1 := by
  unfold oversample
  refine (yields_candidates hx e weights _).bind fun c hc => ?_
  have hle := hc.length_le
  dsimp only
  split_ifs with hless heq
  · -- too few candidates: the padding covers every row where the rows are no more than the
    -- clusters
    have hpad : Yields (pad x.rows (p.clusters - c.indices.length) (.ofList c.indices) :
        Seeding σ ω (List ℕ)) fun more =>
          RowIndices x.rows (p.clusters - c.indices.length) more ∧
            (x.rows ≤ p.clusters → ∀ i < x.rows, i ∈ c.indices ++ more) := by
      refine (yields_pad hx _ _).and fun s more h hk => ?_
      exact yields_covers_pad (σ := σ) hx hc.nodup hc.lt (by omega) s more h
    refine yields_andThen fun _ => hpad.bind fun more hmore =>
      (yields_pick? _ _).bind fun start hstart => yields_pure ?_
    subst hstart
    have hlt := List.forall_mem_append.mpr ⟨hc.lt, hmore.1.lt⟩
    refine .picked hmethod ⟨?_, hlt⟩ hmore.2
    rw [List.length_append, hmore.1.length]
    omega
  · refine (yields_pick? _ _).bind fun start hstart => yields_pure ?_
    subst hstart
    exact .picked hmethod ⟨heq, hc.lt⟩ fun hk i hi =>
      mem_of_nodup hc.nodup hc.lt (hk.trans heq.ge) hi
  · unfold reduce
    rw [bind_assoc]
    refine (yields_weighCandidates e weights _ hc).bind fun r hr => ?_
    rw [bind_assoc]
    refine yields_andThen fun refiner => ?_
    rw [bind_assoc]
    refine (yields_refine refiner r.rows (some r.weights) r.start).bind fun res hres => ?_
    rw [bind_assoc]
    exact yields_andThen fun _ => yields_pure (.reduced hmethod (by omega) hc hr hres)

theorem yields_startOf (hx : 0 < x.rows) (p : Params ω) (e : Kernel) (weights : Option (List α))
    (array : Matrix α) :
    Yields (start p e x weights array : Seeding σ ω (Matrix α × SeedStats)) fun cs =>
      StartOf p e x weights array cs.1 := by
  unfold start
  cases hmethod : p.method with
  | array =>
    refine (yields_attempt _).bind fun c hc => yields_pure ?_
    unfold startFromArray at hc
    split_ifs at hc with hrows hcols
    rw [not_not] at hrows hcols
    rw [Matrix.eq_of_copy? hc]
    exact .supplied hmethod hrows hcols
  | random =>
    refine (yields_startFromRows hx _).bind fun c ⟨is, his, hcovers, hc⟩ => yields_pure ?_
    subst hc
    exact .picked (hmethod ▸ nofun) his hcovers
  | scalable => exact yields_oversample hx p (hmethod ▸ nofun) e weights array
  | unsupported => exact yields_throw _

/-- The starting centroids of every method are as many as there are clusters, and fit the data. -/
theorem yields_start (hx : 0 < x.rows) (hfull : x.Full) (p : Params ω) (e : Kernel)
    (weights : Option (List α)) {array : Matrix α} (harray : array.Full) :
    Yields (start p e x weights array : Seeding σ ω (Matrix α × SeedStats)) fun cs =>
      cs.1.rows = p.clusters ∧ x.Fits cs.1 :=
  (yields_startOf hx p e weights array).mono fun _ h => h.fits hfull fun _ => harray

end Oversampling

end Seeding

end Clustering
