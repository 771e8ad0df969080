import Clustering.Proofs.ScaleFree
import Clustering.Proofs.Seeding.Following
import Clustering.Proofs.Similarity.Lloyd

/-!
# Seeding of images

A similarity commutes with seeding: on the image of the data every draw gives the same index.  A
proportional draw sees masses in another unit; a toss sees the same chance, for the unit of weight
times gap is that of the potential (`chance_map`); and gaps are compared with each other and with
zero.  So the same rows are picked, and the starting centroids are the image of those of the data
(`follows_start`).
-/

namespace Clustering.Similarity

variable {K σ : Type} [ExactScalar K] (T : Similarity K)

/-! ### Storage -/

section Storage

variable [Memory] {m : Matrix K}

theorem pick?_matrix (hm : m.Full) {indices : List ℕ} (h : ∀ i ∈ indices, i < m.rows) :
    (T.matrix m).pick? indices = (m.pick? indices).map T.matrix := by
  unfold Matrix.pick?
  rw [T.pick_matrix hm h, cols_matrix]
  cases Memory.storageOr (.candidateSet indices.length) (Scalar.bytes K)
    (sizeWord (indices.length * m.cols)) <;> rfl

theorem copy?_matrix (m : Matrix K) : (T.matrix m).copy? = m.copy?.map T.matrix := by
  unfold Matrix.copy? Matrix.shapeSize
  rw [rows_matrix, cols_matrix]
  cases Memory.storage (Scalar.bytes K) (spanWord (Scalar.bytes K) (sizeWord (m.rows * m.cols))) <;>
    rfl

theorem nearest_matrix (e : Kernel) {x c : Matrix K} (h : x.Fits c) :
    e.nearest (T.matrix x) (T.matrix c) = (e.nearest x c).map (List.map T.nearest) := by
  rw [Kernel.nearest_eq, Kernel.nearest_eq, Kernel.admission_matrix]
  cases hadm : e.admission x c with
  | error f => rfl
  | ok u => exact congrArg Except.ok (T.answers_matrix e h (Kernel.rows_pos_of_admission hadm))

end Storage

/-! ### Gaps -/

theorem closer_map {a : K} (ha : 0 < a) (gap dist : K) :
    closer (a * gap) (a * dist) = a * closer gap dist := by
  unfold closer
  rw [mul_ite]
  exact if_congr (mul_lt_mul_iff_of_pos_left ha) rfl rfl

theorem closer_nearest (gaps : List K) (near : List (Nearest K)) :
    List.zipWith (fun gap n => closer gap n.dist) (gaps.map (T.area * ·)) (near.map T.nearest) =
      (List.zipWith (fun gap (n : Nearest K) => closer gap n.dist) gaps near).map (T.area * ·) := by
  rw [List.zipWith_map, List.map_zipWith]
  exact congrArg (List.zipWith · gaps near)
    (funext₂ fun gap n => closer_map T.area_pos gap n.dist)

section Gaps

variable {x : Matrix K} (hx : x.Full) {i : ℕ} (hi : i < x.rows)
include hx hi

theorem openGaps_matrix :
    openGaps (T.matrix x).rowList ((T.matrix x).row i) =
      (openGaps x.rowList (x.row i)).map (T.area * ·) := by
  rw [openGaps, openGaps, T.rowList_matrix hx, T.row_matrix hx hi, List.map_map, List.map_map]
  exact List.map_congr_left fun v hv =>
    T.sqDist_vector (Matrix.length_of_mem_rowList hx v hv) (Matrix.length_row hx hi)

theorem closeGaps_matrix (gaps : List K) :
    closeGaps (T.matrix x).rowList (gaps.map (T.area * ·)) ((T.matrix x).row i) =
      (closeGaps x.rowList gaps (x.row i)).map (T.area * ·) := by
  rw [closeGaps, closeGaps, T.rowList_matrix hx, T.row_matrix hx hi, List.zipWith_map,
    List.map_zipWith, ← List.map_uncurry_zip_eq_zipWith, ← List.map_uncurry_zip_eq_zipWith]
  refine List.map_congr_left fun q hq => ?_
  have hrow := Matrix.length_of_mem_rowList hx q.1 (List.of_mem_zip hq).1
  show closer (T.area * q.2) (sqDist (T.vector q.1) (T.vector (x.row i))) = _
  rw [T.sqDist_vector hrow (Matrix.length_row hx hi), closer_map T.area_pos]
  rfl

end Gaps

/-! ### Chances -/

theorem potential_map (weights gaps : List K) :
    Oversampling.potential (weights.map (T.factor * ·)) (gaps.map (T.area * ·)) =
      T.error * Oversampling.potential weights gaps :=
  total_zipWith_mul T.factor T.area weights gaps

theorem chance_map (expected potential weight gap : K) :
    Oversampling.chance expected (T.error * potential) (T.factor * weight) (T.area * gap) =
      Oversampling.chance expected potential weight gap := by
  have hquotient : expected * (T.factor * weight) * widen (T.area * gap) / (T.error * potential) =
      expected * weight * widen gap / potential := by
    show expected * (T.factor * weight) * (T.area * gap) / (T.error * potential) =
      expected * weight * gap / potential
    rw [← mul_div_mul_left _ potential T.error_pos.ne', error]
    ring_nf
  unfold Oversampling.chance
  rw [hquotient]

theorem candidateWeights_matrix (e : Kernel) (weights : Option (List K)) {x c : Matrix K}
    (h : x.Fits c) (hpos : 0 < c.rows) :
    Oversampling.candidateWeights c.rows (T.weights x.rows weights)
        (e.delivered (T.matrix x) (T.matrix c)) =
      (Oversampling.candidateWeights c.rows weights (e.delivered x c)).map (T.factor * ·) := by
  rw [← T.rows_matrix c, Kernel.candidateWeights_eq_weights_tally, T.rows_matrix,
    Kernel.candidateWeights_eq_weights_tally, e.weights_tally_matrix T weights h hpos]

/-! ### What seeding holds, in the new units -/

/-- The image of picks. -/
def picks (s : Picks K) : Picks K := ⟨s.indices, s.gaps.map (T.area * ·)⟩

/-- The image of candidates. -/
def candidates (c : Candidates K) : Candidates K :=
  ⟨c.indices, c.gaps.map (T.area * ·), c.sampled, c.skipped⟩

/-- The image of a candidate set that is to be reduced. -/
def reduction (r : Reduction K) : Reduction K :=
  ⟨T.matrix r.rows, r.weights.map (T.factor * ·), T.matrix r.start⟩

end Clustering.Similarity

namespace Clustering.Seeding

variable {K σ : Type} [ExactScalar K] [Source σ K] [Source.ScaleFree σ] (T : Similarity K)

/-! ### Greedy seeding -/

theorem follows_proportional {a : K} (ha : 0 < a) (mass : List K) :
    Follows id (proportional mass : Seeding σ K ℕ) (proportional (mass.map (a * ·))) := by
  rw [proportional_exact, proportional_exact, List.length_map, total_map_mul,
    if_congr (mul_pos_iff_of_pos_left ha) rfl rfl]
  split_ifs
  · rintro ⟨source, ns⟩ ⟨_, ns'⟩ rfl
    have hpick := Source.ScaleFree.pick_map_mul ha mass source
    exact ⟨congrArg (fun d : ℕ × σ => Except.ok d.1) hpick, congrArg Prod.snd hpick⟩
  · exact (agree_index _).follows

variable [Source.InRange σ]

section Greedy

variable {x : Matrix K} (hx : x.Full) {ws : List K} (hw : ws ≠ []) (hlen : ws.length ≤ x.rows)
include hx hw hlen

theorem follows_firstPick :
    Follows T.picks (firstPick x ws : Seeding σ K (Picks K))
      (firstPick (T.matrix x) (ws.map (T.factor * ·))) := by
  unfold firstPick
  refine (follows_proportional T.factor_pos ws).bind_of_yields (yields_proportional hw) ?_
  intro i hi
  rw [id, T.openGaps_matrix hx (Nat.lt_of_lt_of_le hi hlen)]
  exact follows_pure _

theorem follows_nextPick {k : ℕ} {s : Picks K} (hs : PicksOf x.rows k s) :
    Follows T.picks (nextPick x ws s : Seeding σ K (Picks K))
      (nextPick (T.matrix x) (ws.map (T.factor * ·)) (T.picks s)) := by
  have hmass : List.zipWith (· * ·) (ws.map (T.factor * ·)) (T.picks s).gaps =
      (List.zipWith (· * ·) ws s.gaps).map (T.error * ·) := by
    rw [Similarity.picks, List.zipWith_map, List.map_zipWith]
    refine congrArg (List.zipWith · ws s.gaps) (funext₂ fun w gap => ?_)
    rw [Similarity.error]
    ring
  have hrows : (List.zipWith (· * ·) ws s.gaps).length = ws.length := by
    rw [List.length_zipWith, hs.gaps]
    omega
  have hne : List.zipWith (· * ·) ws s.gaps ≠ [] := by
    rw [← List.length_pos_iff, hrows]
    exact List.length_pos_iff.mpr hw
  unfold nextPick
  rw [hmass]
  refine (follows_proportional T.error_pos _).bind_of_yields (yields_proportional hne) ?_
  intro i hi
  rw [hrows] at hi
  rw [id, Similarity.picks, T.closeGaps_matrix hx (Nat.lt_of_lt_of_le hi hlen)]
  exact follows_pure _

theorem follows_morePicks : ∀ (count k : ℕ) {s : Picks K}, PicksOf x.rows k s →
    Follows T.picks (morePicks x ws count s : Seeding σ K (Picks K))
      (morePicks (T.matrix x) (ws.map (T.factor * ·)) count (T.picks s))
  | 0, _, s, _ => follows_pure s
  | count + 1, k, _, hs => by
    unfold morePicks
    exact (follows_nextPick T hx hw hlen hs).bind_of_yields (yields_nextPick hw hlen hs)
      fun s' hs' => follows_morePicks count (k + 1) hs'

end Greedy

/-- The seeds of the image are the images of the seeds. -/
theorem follows_plusPlus [Memory] {x : Matrix K} (hx : x.Full) (hpos : 0 < x.rows) {ws : List K}
    (hw : ws ≠ []) (k : ℕ) :
    Follows T.matrix (plusPlus x (some ws) k : Seeding σ K (Matrix K))
      (plusPlus (T.matrix x) (some (ws.map (T.factor * ·))) k) := by
  have hweights : pickWeights (T.matrix x) (some (ws.map (T.factor * ·))) =
      (pickWeights x (some ws)).map (T.factor * ·) := by
    rw [pickWeights, pickWeights, Similarity.rows_matrix]
    exact List.map_take.symm
  have hne := pickWeights_ne_nil hpos hw
  have hlen := length_pickWeights_le x (some ws)
  unfold plusPlus
  rw [hweights, Similarity.rows_matrix, Similarity.cols_matrix]
  refine (agree_attempt_self _).follows.bind fun _ => ?_
  refine (agree_attempt_self _).follows.bind fun _ => ?_
  refine (follows_firstPick T hx hne hlen).bind_of_yields (yields_firstPick hne hlen) ?_
  intro first hfirst
  refine (agree_attempt_self _).follows.bind fun _ => ?_
  refine (follows_morePicks T hx hne hlen (k - 1) 1 hfirst).bind_of_yields
    (yields_morePicks hne hlen (k - 1) 1 hfirst) fun s hs => ?_
  have hpick : (T.matrix x).pick (s.indices.take k) = T.matrix (x.pick (s.indices.take k)) :=
    T.pick_matrix hx fun i hi => hs.indices.lt i (List.mem_of_mem_take hi)
  rw [Similarity.picks, hpick]
  exact follows_pure _

/-! ### Candidates -/

omit [Source.ScaleFree σ] [Source.InRange σ] in
theorem follows_tossRows (expected potential : K) (taken : List ℕ) :
    ∀ rows : List (ℕ × K × K),
      Follows id (tossRows expected potential taken rows : Seeding σ K (List ℕ))
        (tossRows expected (T.error * potential) taken
          (rows.map (Prod.map id (Prod.map (T.factor * ·) (T.area * ·)))))
  | [] => follows_pure []
  | (i, weight, gap) :: rows => by
    have ih := follows_tossRows expected potential taken rows
    have hgap : T.area * gap ≤ 0 ↔ gap ≤ 0 := by
      rw [← not_lt, ← not_lt, mul_pos_iff_of_pos_left T.area_pos]
    rw [List.map_cons]
    unfold tossRows
    dsimp only [Prod.map, id]
    rw [T.chance_map, if_congr hgap rfl rfl]
    split_ifs
    · exact ih
    · exact agree_coin.follows.bind fun u => ih.bind fun later => follows_pure _
    · exact ih

omit [Source.ScaleFree σ] [Source.InRange σ] in
/-- A round finds the same rows of the image. -/
theorem follows_foundRows (n : ℕ) (ws : List K) (expected : K) (c : Candidates K) :
    Follows id (foundRows n ws expected c : Seeding σ K (List ℕ))
      (foundRows n (ws.map (T.factor * ·)) expected (T.candidates c)) := by
  have hpotential : Oversampling.potential (ws.map (T.factor * ·)) (T.candidates c).gaps =
      T.error * Oversampling.potential ws c.gaps := T.potential_map ws c.gaps
  have hrows : (List.range n).zip ((ws.map (T.factor * ·)).zip (T.candidates c).gaps) =
      ((List.range n).zip (ws.zip c.gaps)).map
        (Prod.map id (Prod.map (T.factor * ·) (T.area * ·))) := by
    rw [Similarity.candidates, List.zip_map, List.zip_map_right]
  unfold foundRows
  rw [hpotential, hrows, if_congr (mul_pos_iff_of_pos_left T.error_pos) rfl rfl]
  split_ifs
  · exact follows_tossRows T expected _ _ _
  · exact follows_pure _

variable [Memory] {x : Matrix K} (hx : x.Full) (e : Kernel)
include hx

omit [Source.InRange σ] [Source.ScaleFree σ] in
theorem follows_sampleRound (ws : List K) (expected : K) (c : Candidates K) (number : ℕ) :
    Follows T.candidates (sampleRound e x ws expected c number : Seeding σ K (Candidates K))
      (sampleRound e (T.matrix x) (ws.map (T.factor * ·)) expected (T.candidates c) number) := by
  rw [sampleRound_eq, sampleRound_eq, Similarity.rows_matrix]
  refine (follows_foundRows T x.rows ws expected c).bind_of_yields
    (yields_foundRows x.rows ws expected c) fun found hfound => ?_
  have hlt : ∀ i ∈ found, i < x.rows := fun i hi => List.mem_range.mp (hfound.1.subset hi)
  unfold joinRound
  rw [id]
  split_ifs
  · exact (follows_pure { c with skipped := c.skipped + 1 }).record_bind _ _
  · refine (follows_attempt (T.pick?_matrix hx hlt)).bind_of_yields (yields_pick? x found) ?_
    rintro _ rfl
    refine (follows_attempt (T.nearest_matrix e.direct (Matrix.fits_pick hx hlt))).bind ?_
    intro near
    have hgaps := T.closer_nearest c.gaps near
    rw [Similarity.candidates, hgaps]
    exact (follows_pure _).record_bind _ _

omit [Source.ScaleFree σ] in
/-- The image has the same candidates, with gaps in the new unit. -/
theorem follows_candidates (hpos : 0 < x.rows) (weights : Option (List K)) (expected : K) :
    Follows T.candidates (candidates e x weights expected : Seeding σ K (Candidates K))
      (candidates e (T.matrix x) (T.weights x.rows weights) expected) := by
  have hfirst : Follows T.candidates (firstCandidate e x : Seeding σ K (Candidates K))
      (firstCandidate e (T.matrix x)) := by
    unfold firstCandidate
    rw [Similarity.rows_matrix]
    refine (agree_index _).follows.bind_of_yields (yields_index_lastIndex hpos) fun first hlt => ?_
    refine (agree_attempt_self _).follows.bind fun _ => ?_
    have hrows : ∀ i ∈ [first], i < x.rows := by simpa using hlt
    refine (follows_attempt (T.pick?_matrix hx hrows)).bind_of_yields (yields_pick? x [first]) ?_
    rintro _ rfl
    refine (follows_attempt (T.nearest_matrix e.direct (Matrix.fits_pick hx hrows))).bind ?_
    intro near
    have hgaps : (near.map T.nearest).map (·.dist) = (near.map (·.dist)).map (T.area * ·) := by
      rw [List.map_map, List.map_map]
      rfl
    rw [hgaps]
    exact follows_pure _
  have hweights : (Oversampling.rowWeights (T.weights x.rows weights) x.rows : List K) =
      (Oversampling.rowWeights weights x.rows : List K).map (T.factor * ·) := by
    rw [rowWeights_eq, rowWeights_eq, Similarity.weightsFor_weights]
  unfold candidates sampleRounds
  rw [Similarity.rows_matrix, hweights]
  exact hfirst.bind_of_yields (yields_firstCandidate hpos e) fun first hc =>
    Follows.foldlM (fun c i _ => follows_sampleRound T hx e _ expected c (i + 1))
      (fun c i hc => yields_sampleRound e x _ expected (i + 1) hc) _ first hc

theorem follows_weighCandidates (weights : Option (List K)) (k : ℕ) {c : Candidates K}
    (hc : CandidatesOf x.rows c) :
    Follows T.reduction (weighCandidates e x weights k c.indices : Seeding σ K (Reduction K))
      (weighCandidates e (T.matrix x) (T.weights x.rows weights) k c.indices) := by
  unfold weighCandidates
  refine (follows_attempt (T.pick?_matrix hx hc.lt)).bind_of_yields (yields_pick? x _) ?_
  rintro _ rfl
  have hfits := Matrix.fits_pick hx hc.lt
  have hpos := Matrix.rows_pick_pos (m := x) hc.nonempty
  rw [Similarity.rows_matrix]
  refine (agree_attempt_self _).follows.bind fun _ => ?_
  rw [Kernel.sweep_eq, Kernel.sweep_eq, attempt_map_bind, attempt_map_bind, Kernel.admission_matrix,
    T.candidateWeights_matrix e.direct weights hfits hpos]
  refine (agree_attempt_self _).follows.bind fun _ => ?_
  have hweights := candidateWeights_ne_nil hpos weights (e.direct.delivered x (x.pick c.indices))
  exact (follows_plusPlus T hfits.full_centroids hpos hweights k).bind fun start => follows_pure _

omit [Source σ K] [Source.ScaleFree σ] [Source.InRange σ] hx in
/-- A refinement by a new refiner. -/
theorem follows_refine (weights : Option (List K)) {start : Matrix K} (h : x.Fits start)
    (maxIterations : ℕ) (tolerance : K) (checkInertia : Bool) :
    Follows T.refined
      (attempt (Refiner.new? e maxIterations tolerance checkInertia) >>= fun r =>
        refine r x weights start : Seeding σ K (Refined K K))
      (attempt (Refiner.new? e maxIterations tolerance checkInertia) >>= fun r =>
        refine r (T.matrix x) (T.weights x.rows weights) (T.matrix start)) := by
  refine (agree_attempt_self _).follows.bind fun r => ?_
  exact (follows_attempt (r.run_matrix T weights h)).record_bind _ _

theorem follows_reduce (weights : Option (List K)) (tolerance : K) (k : ℕ) {c : Candidates K}
    (hc : CandidatesOf x.rows c) :
    Follows T.refined (reduce e x weights tolerance k c.indices : Seeding σ K (Refined K K))
      (reduce e (T.matrix x) (T.weights x.rows weights) tolerance k c.indices) := by
  unfold reduce
  refine (follows_weighCandidates T hx e weights k hc).bind_of_yields
    (yields_weighCandidates e weights k hc) fun r hr => ?_
  have hrefine := follows_refine (σ := σ) T e (some r.weights) (hr.fits hx hc.lt).2.2
    Oversampling.reductionIterations tolerance true
  rw [← bind_assoc, ← bind_assoc]
  exact hrefine.bind fun refined => (follows_pure refined).record_bind _ _

theorem follows_oversample (hpos : 0 < x.rows) (p : Params K) (weights : Option (List K)) :
    Follows (Prod.map T.matrix id)
      (oversample p e x weights : Seeding σ K (Matrix K × SeedStats))
      (oversample p e (T.matrix x) (T.weights x.rows weights)) := by
  unfold oversample
  refine (follows_candidates T hx e hpos weights _).bind_of_yields
    (yields_candidates hpos e weights _) fun c hc => ?_
  dsimp only [Similarity.candidates]
  rw [Similarity.rows_matrix]
  split_ifs
  · refine (agree_record _ _).follows.bind fun _ => ?_
    refine (agree_pad _ _ _).follows.bind_of_yields (yields_pad hpos _ _) fun more hmore => ?_
    have hrows := List.forall_mem_append.mpr ⟨hc.lt, hmore.lt⟩
    exact (follows_attempt (T.pick?_matrix hx hrows)).bind fun start => follows_pure _
  · exact (follows_attempt (T.pick?_matrix hx hc.lt)).bind fun start => follows_pure _
  · exact (follows_reduce T hx e weights _ _ hc).bind fun refined => follows_pure _

/-- The image starts from the image of the starting centroids, by every method. -/
theorem follows_start (hpos : 0 < x.rows) (p : Params K) (weights : Option (List K))
    (array : Matrix K) :
    Follows (Prod.map T.matrix id)
      (start p e x weights array : Seeding σ K (Matrix K × SeedStats))
      (start p e (T.matrix x) (T.weights x.rows weights) (T.matrix array)) := by
  unfold start
  cases p.method with
  | array =>
    have harray : startFromArray p.clusters (T.matrix x) (T.matrix array) =
        (startFromArray p.clusters x array).map T.matrix := by
      unfold startFromArray
      rw [Similarity.rows_matrix, Similarity.cols_matrix, Similarity.cols_matrix, T.copy?_matrix]
      split_ifs <;> rfl
    exact (follows_attempt harray).bind fun start => follows_pure _
  | random =>
    have hrandom : Follows T.matrix (startFromRows p.clusters x : Seeding σ K (Matrix K))
        (startFromRows p.clusters (T.matrix x)) := by
      unfold startFromRows
      refine (agree_attempt_self _).follows.bind fun _ => ?_
      rw [Similarity.rows_matrix]
      exact (agree_sampleRows _ _).follows.bind_of_yields (yields_sampleRows hpos _)
        fun is his => follows_attempt (T.pick?_matrix hx his.lt)
    exact hrandom.bind fun start => follows_pure _
  | scalable => exact follows_oversample T hx e hpos p weights
  | unsupported => exact follows_throw _

end Clustering.Seeding
