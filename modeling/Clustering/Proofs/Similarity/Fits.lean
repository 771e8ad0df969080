import Clustering.Proofs.Similarity.Seeding
import Clustering.Proofs.Fits

/-!
# Fits of images

A similarity commutes with a fit: checks find the same, the runs make the same draws and return
images (`Seeding.follows_fitRun`), and the best of them is the same, because inertias are compared
with each other only (`Seeding.follows_bestRun`).  So the fit of the image is the image of the fit,
and so is the model that keeps it (`Model.fit_similar`).

Weights that are all the same are those of the similarity that changes the unit of weight only.  Its
images of data are the data themselves, so that such weights change the unit of the inertias
(`Model.result_fit_constant`).
-/

namespace Clustering

namespace Similarity

variable {K : Type} [ExactScalar K] (T : Similarity K)

/-- The image of a fit. -/
def fit (f : Fit K K) : Fit K K :=
  { T.refined f.toRefined with seeding := f.seeding, run := f.run }

/-- The image of a data set. -/
def dataset (x : Dataset K) : Dataset K := ⟨T.matrix x.table, x.isPresent⟩

/-- The image of starting centroids. -/
def start (s : StartArray fun _ => K) : StartArray fun _ => K := ⟨s.precision, T.matrix s.centroids⟩

/-- The image of what is kept of a fit. -/
def fitted (f : Fitted (fun _ => K) K) : Fitted (fun _ => K) K :=
  ⟨f.precision, T.matrix f.centroids, f.features, f.iterations, T.error * f.inertia⟩

/-- The image of a model. -/
def model (m : Model (fun _ => K) K) : Model (fun _ => K) K :=
  ⟨m.params, m.start.map T.start, m.fitted.map T.fitted⟩

/-! ### Checks -/

theorem startFor_model (m : Model (fun _ => K) K) (p : Precision) :
    (T.model m).startFor p = (m.startFor p).map T.matrix := by
  obtain ⟨params, start, fitted⟩ := m
  cases start with
  | none => rfl
  | some s =>
    obtain ⟨q, c⟩ := s
    by_cases hp : q = p
    · subst hp
      simp [Model.startFor, model, Similarity.start, Except.map]
    · simp [Model.startFor, model, Similarity.start, Except.map, hp]

theorem checkData_dataset (op : String) (width : Option ℕ) (x : Dataset K) :
    Model.checkData op width (T.dataset x) = Model.checkData op width x := by
  have hvoid : (T.matrix x.table).isVoid = x.table.isVoid := by
    rw [Matrix.isVoid, rows_matrix]
    rfl
  unfold Model.checkData dataset
  dsimp only
  rw [hvoid]
  rfl

theorem isWeight_mul (w : K) : Model.isWeight (T.factor * w) = Model.isWeight w := by
  refine congrArg (true && !·) (decide_eq_decide.mpr ?_)
  rw [← not_le, ← not_le, mul_nonneg_iff_of_pos_left T.factor_pos]

theorem checkWeights_weights (op : String) (n : ℕ) (weights : Option (List K)) :
    Model.checkWeights op (T.weights n weights) = Model.checkWeights op weights := by
  have hmap : ∀ ws : List K, (ws.map (T.factor * ·)).findIdx? (!Model.isWeight ·) =
      ws.findIdx? (!Model.isWeight ·) := by
    intro ws
    rw [List.findIdx?_map]
    exact congrArg (List.findIdx? · ws) (funext fun w => congrArg not (T.isWeight_mul w))
  unfold Model.checkWeights Similarity.weights
  dsimp only
  rw [hmap]
  cases weights with
  | some ws => rfl
  | none =>
    have hnone : (List.replicate n (1 : K)).findIdx? (!Model.isWeight ·) = none := by
      rw [List.findIdx?_eq_none_iff]
      intro w hw
      obtain rfl := List.eq_of_mem_replicate hw
      simp [Model.isWeight, Scalar.isFinite]
    rw [weightsFor, Option.getD_none, hnone]

theorem checkTotal_weights (op : String) {n : ℕ} (hn : 0 < n) (weights : Option (List K)) :
    Model.checkTotal (ω := K) op (T.weights n weights) = Model.checkTotal (ω := K) op weights := by
  unfold Model.checkTotal Similarity.weights
  dsimp only
  rw [map_widen, total_map_mul, if_congr (mul_pos_iff_of_pos_left T.factor_pos) rfl rfl]
  cases weights with
  | some ws =>
    dsimp only
    rw [map_widen]
    rfl
  | none =>
    have hcount : (0 : K) < n := Nat.cast_pos.mpr hn
    rw [weightsFor, Option.getD_none, total_eq_sum, List.sum_replicate, nsmul_eq_mul, mul_one,
      if_pos hcount]

end Similarity

/-! ### Runs -/

namespace Seeding

variable {K σ : Type} [ExactScalar K] [Source σ K] [Source.ScaleFree σ] [Source.InRange σ] [Memory]
  (T : Similarity K) {x : Matrix K} (hx : x.Full) (hpos : 0 < x.rows) (p : Params K) (e : Kernel)
  (weights : Option (List K)) {array : Matrix K} (harray : array.Full)
include hx hpos harray

theorem follows_fitRun (r : ℕ) :
    Follows T.fit (fitRun p e x weights array r : Seeding σ K (Fit K K))
      (fitRun p e (T.matrix x) (T.weights x.rows weights) (T.matrix array) r) := by
  unfold fitRun
  refine (agree_restart _).follows.bind fun _ => ?_
  refine (follows_start T hx e hpos p weights array).bind_of_yields
    (yields_start hpos hx p e weights harray) fun cs hcs => ?_
  have hrefine := follows_refine (σ := σ) T e weights hcs.2 p.maxIterations p.tolerance
    p.checkInertia
  dsimp only [Prod.map]
  rw [← bind_assoc, ← bind_assoc]
  exact hrefine.bind fun refined => (follows_pure _).record_bind _ _

theorem follows_keepBest : ∀ (left r : ℕ) (best : Fit K K),
    Follows T.fit (keepBest p e x weights array left r best : Seeding σ K (Fit K K))
      (keepBest p e (T.matrix x) (T.weights x.rows weights) (T.matrix array) left r (T.fit best))
  | 0, _, best => follows_pure best
  | left + 1, r, best => by
    unfold keepBest
    refine (follows_fitRun T hx hpos p e weights harray r).bind fun f => ?_
    have hbetter : (if (T.fit f).inertia < (T.fit best).inertia then T.fit f else T.fit best) =
        T.fit (if f.inertia < best.inertia then f else best) := by
      rw [apply_ite T.fit]
      exact if_congr (mul_lt_mul_iff_of_pos_left T.error_pos) rfl rfl
    rw [hbetter]
    exact follows_keepBest left (r + 1) _

/-- The best run on the image is the image of the best run. -/
theorem follows_bestRun :
    Follows T.fit (bestRun p e x weights array : Seeding σ K (Fit K K))
      (bestRun p e (T.matrix x) (T.weights x.rows weights) (T.matrix array)) := by
  unfold bestRun
  refine (follows_fitRun T hx hpos p e weights harray 0).bind fun first => ?_
  refine (follows_keepBest T hx hpos p e weights harray _ 1 first).bind fun best => ?_
  split_ifs
  · exact (follows_pure best).record_bind _ _
  · exact follows_pure best

end Seeding

/-! ### Fits -/

/-- The fit with another unit of weight. -/
def Fit.scaled {K : Type} [ExactScalar K] (f : Fit K K) (c : K) : Fit K K :=
  { f with
    inertia := c * f.inertia
    history := f.history.map fun it => { it with inertia := c * it.inertia } }

namespace Model

variable {K σ : Type} [ExactScalar K] [Source σ K] [Source.ScaleFree σ] [Source.InRange σ] [Memory]
  {m : Model (fun _ => K) K} {x : Dataset K}

/-- The computation of a fit follows, on the image, that on the data. -/
theorem follows_computeFit (T : Similarity K) (hm : m.HasFullStart) (p : Precision)
    (hx : x.Complete) (weights : Option (List K)) :
    Seeding.Follows T.fit (m.computeFit p x weights : Seeding σ K (Fit K K))
      ((T.model m).computeFit p (T.dataset x) (T.weights x.table.rows weights)) := by
  unfold computeFit
  refine (Seeding.follows_attempt (T.startFor_model m p)).bind_of_yields
    (Seeding.yields_attempt _) fun array harray => ?_
  rw [T.checkData_dataset]
  refine (Seeding.agree_attempt_self _).follows.bind_of_yields (Seeding.yields_attempt _) ?_
  intro _ hdata
  obtain ⟨hpos, -, hpresent⟩ := present_of_checkData hdata
  rw [T.checkWeights_weights, T.checkTotal_weights _ hpos]
  refine (Seeding.agree_attempt_self _).follows.bind fun _ => ?_
  refine (Seeding.agree_attempt_self _).follows.bind fun _ => ?_
  refine Seeding.Follows.record_bind ?_ _ _
  refine Seeding.Follows.reportingLack ?_ _ _ (T.rows_matrix _) (T.cols_matrix _) _
  refine (Seeding.agree_attempt_self m.kernel).follows.bind fun e => ?_
  refine (Seeding.follows_bestRun T (hx hpresent) hpos m.params e weights
    (full_of_startFor hm harray)).bind fun f => ?_
  exact (Seeding.follows_attempt (T.copy?_matrix f.centroids)).bind fun _ => Seeding.follows_pure f

omit [Source.ScaleFree σ] [Source.InRange σ] in
/-- Data that are absent make every fit fail alike. -/
theorem follows_absent (g : Fit K K → Fit K K) (p : Precision) (hx : x.isPresent = false)
    (weights weights' : Option (List K)) :
    Seeding.Follows g (m.computeFit p x weights : Seeding σ K (Fit K K))
      (m.computeFit p x weights') := by
  unfold computeFit
  refine (Seeding.agree_attempt_self _).follows.bind fun array => ?_
  refine (Seeding.agree_attempt_self _).follows.bind_of_yields (Seeding.yields_attempt _) ?_
  intro _ hdata
  obtain ⟨-, -, hpresent⟩ := present_of_checkData hdata
  rw [hx] at hpresent
  cases hpresent

end Model

/-! ### Weights that are all the same -/

namespace Similarity

variable {K : Type} [ExactScalar K] {c : K} (hc : 0 < c)

/-- The similarity that changes the unit of weight only. -/
def reweigh : Similarity K := ⟨1, 0, c, one_ne_zero, hc⟩

theorem vector_reweigh (v : List K) : (reweigh hc).vector v = v := by
  have hself : (fun (i : ℕ) (a : K) => (reweigh hc).scale * a + (reweigh hc).offset i) =
      fun _ a => a := by
    funext i a
    exact (add_zero _).trans (one_mul a)
  rw [vector, hself]
  exact List.ext_getElem? fun i => by simp

theorem matrix_reweigh {m : Matrix K} (hm : m.Full) : (reweigh hc).matrix m = m := by
  have hvector : (reweigh hc).vector = id := funext (vector_reweigh hc)
  rw [matrix, hvector, List.map_id, Matrix.ofRows_rowList hm]

theorem weights_reweigh (n : ℕ) : (reweigh hc).weights n none = some (List.replicate n c) := by
  have hmap : (weightsFor none n : List K).map (c * ·) = List.replicate n c := by
    rw [weightsFor, Option.getD_none, List.map_replicate, mul_one]
  exact congrArg some hmap

theorem fit_reweigh {f : Fit K K} (hf : f.centroids.Full) : (reweigh hc).fit f = f.scaled c := by
  have harea : (reweigh hc).area = 1 := one_mul 1
  have herror : (reweigh hc).error = c := by
    rw [error, harea]
    exact mul_one c
  have hhistory : f.history.map (reweigh hc).iteration =
      f.history.map fun it => { it with inertia := c * it.inertia } := by
    refine List.map_congr_left fun it _ => ?_
    rw [iteration, herror, harea, one_mul]
  rw [fit, refined, matrix_reweigh hc hf, herror, hhistory, Fit.scaled]

end Similarity

namespace Model

variable {K σ : Type} [ExactScalar K] [Source σ K] [Source.ScaleFree σ] [Source.InRange σ] [Memory]
  {m : Model (fun _ => K) K} {x : Dataset K}

/-- Weights that are all the same give the fit without weights, with inertias in their unit. -/
theorem result_fit_constant (hm : m.HasFullStart) (p : Precision) (hx : x.Complete) {c : K}
    (hc : 0 < c) :
    (m.fit σ p x (some (List.replicate x.table.rows c))).result =
      (m.fit σ p x none).result.map fun f => f.scaled c := by
  rw [result_fit, result_fit]
  cases hpresent : x.isPresent with
  | false => exact (follows_absent _ p hpresent none _ _ _ rfl).1
  | true =>
    -- scaling the weights alone is a similarity: it moves neither the rows nor the start
    have hdata : (Similarity.reweigh hc).dataset x = x := by
      rw [Similarity.dataset, Similarity.matrix_reweigh hc (hx hpresent)]
    have hstart : m.start.map (Similarity.reweigh hc).start = m.start := by
      cases hs : m.start with
      | none => rfl
      | some s =>
        rw [Option.map_some, Similarity.start, Similarity.matrix_reweigh hc (hm s hs)]
    have hmodel : (((Similarity.reweigh hc).model m).computeFit p x
        (some (List.replicate x.table.rows c)) : Seeding σ K (Fit K K)) =
          m.computeFit p x (some (List.replicate x.table.rows c)) := by
      rw [Similarity.model, hstart]
      rfl
    have hfollows := follows_computeFit (σ := σ) (Similarity.reweigh hc) hm p hx none
    rw [hdata, Similarity.weights_reweigh, hmodel] at hfollows
    obtain ⟨hresult, -⟩ := hfollows ⟨Source.seed m.params.seed, []⟩ ⟨Source.seed m.params.seed, []⟩
      rfl
    rw [hresult]
    cases hfit : ((m.computeFit p x none : Seeding σ K (Fit K K)).run
        ⟨Source.seed m.params.seed, []⟩).1 with
    | error f => rfl
    | ok f =>
      have hfull := (yields_centroids hm hx _ f hfit).2.full_centroids
      exact congrArg Except.ok (Similarity.fit_reweigh hc hfull)

/-- In exact arithmetic a fit does not depend on unit and origin of the data, nor on the unit of the
weights: on the image every run makes the same draws and returns the image of what it returns on the
data, the fit is the image of the fit, and the model that keeps it the image of the model.  Weights
that are all the same give the clusters that there are without weights. -/
theorem fit_similar (T : Similarity K) (m : Model (fun _ => K) K) (hm : m.HasFullStart)
    (p : Precision) (x : Dataset K) (hx : x.Complete) (weights : Option (List K)) :
    let o := m.fit σ p x weights
    let o' := (T.model m).fit σ p (T.dataset x) (T.weights x.table.rows weights)
    o'.result = o.result.map T.fit ∧ o'.model = T.model o.model ∧
      (∀ array e, m.Ready p x weights array e → ∀ r,
        Seeding.Follows T.fit
          (Seeding.fitRun m.params e x.table weights array r : Seeding σ K (Fit K K))
          (Seeding.fitRun m.params e (T.matrix x.table) (T.weights x.table.rows weights)
            (T.matrix array) r)) ∧
      ∀ c : K, 0 < c → (m.fit σ p x (some (List.replicate x.table.rows c))).result =
        (m.fit σ p x none).result.map fun f => f.scaled c := by
  intro o o'
  have hresult : o'.result = o.result.map T.fit := by
    have hfollows := follows_computeFit (σ := σ) T hm p hx weights
    rw [result_fit, result_fit]
    exact (hfollows _ _ rfl).1
  refine ⟨hresult, ?_, ?_, fun c hc => result_fit_constant hm p hx hc⟩
  · cases ho : o.result with
    | error f =>
      rw [ho] at hresult
      rw [fit_of_error _ _ _ _ ho, fit_of_error _ _ _ _ hresult]
    | ok f =>
      rw [ho] at hresult
      rw [fit_of_ok _ _ _ _ ho, fit_of_ok _ _ _ _ hresult]
      rfl
  · intro array e h r
    obtain ⟨hpos, -, hpresent⟩ := present_of_checkData h.data
    exact Seeding.follows_fitRun T (hx hpresent) hpos m.params e weights
      (full_of_startFor hm h.start) r

end Model

/-! ### Four points on a line -/

/-- Turns a line around, with three units for one and the origin at five; weights count twice. -/
def Similarity.turn : Similarity ℚ := ⟨-3, fun _ => 5, 2, by decide, by decide⟩

namespace Model

/-- Two clusters, seeded by oversampling. -/
def halves : Model (fun _ => ℚ) ℚ := ⟨{ Params.standard with clusters := 2 }, none, none⟩

/-- Two points to the left, and two to the right. -/
def spots : Dataset ℚ := ⟨⟨4, 1, [0, 2, 10, 13]⟩, true⟩

/-- The clusters of the points, the third of which counts twice. -/
def spotsFit : Fit ℚ ℚ :=
  ⟨⟨⟨2, 1, [1, 11]⟩, [0, 0, 1, 1], 8, 2, .converged, [⟨1, 8, 0, 0⟩, ⟨2, 8, 0, 0⟩]⟩,
    ⟨1, 7, 4, 0, 4⟩, 0⟩

/-- Turned around, the points have the same clusters; the inertia counts nine times twice. -/
theorem fit_similar_turn :
    (halves.fit (Counter ℚ) .double spots (some [1, 1, 2, 1])).result = .ok spotsFit ∧
      (halves.fit (Counter ℚ) .double ⟨⟨4, 1, [5, -1, -25, -34]⟩, true⟩
          (some [2, 2, 4, 2])).result =
        .ok ⟨⟨⟨2, 1, [2, -28]⟩, [0, 0, 1, 1], 144, 2, .converged, [⟨1, 144, 0, 0⟩, ⟨2, 144, 0, 0⟩]⟩,
          ⟨1, 7, 4, 0, 4⟩, 0⟩ := by
  have hfit : (halves.fit (Counter ℚ) .double spots (some [1, 1, 2, 1])).result = .ok spotsFit := by
    decide +kernel
  obtain ⟨himage, -⟩ := fit_similar (σ := Counter ℚ) Similarity.turn halves nofun .double spots
    (fun _ => rfl) (some [1, 1, 2, 1])
  have htable : Similarity.turn.matrix spots.table = ⟨4, 1, [5, -1, -25, -34]⟩ := by
    decide +kernel
  have hweights : Similarity.turn.weights 4 (some [1, 1, 2, 1]) = some [2, 2, 4, 2] := by
    decide +kernel
  have hspots : Similarity.turn.fit spotsFit =
      ⟨⟨⟨2, 1, [2, -28]⟩, [0, 0, 1, 1], 144, 2, .converged, [⟨1, 144, 0, 0⟩, ⟨2, 144, 0, 0⟩]⟩,
        ⟨1, 7, 4, 0, 4⟩, 0⟩ := by
    decide +kernel
  rw [hfit, Similarity.dataset, htable] at himage
  refine ⟨hfit, ?_⟩
  rw [← hweights, ← hspots]
  exact himage

end Model

end Clustering
