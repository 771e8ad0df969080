import Clustering.Model.Answer
import Clustering.Proofs.Seeding.Runs
import Clustering.Proofs.Seeding.Starts

/-!
# Fits

The result of a fit is that of its computation from a fresh source (`Model.result_fit`), and the
model changes only by keeping that result (`Model.fit_of_ok`, `Model.fit_of_error`).

`Model.yields_computeFit`: a fit that returns has found its data and weights in order, and returns
a refinement by the kernel of the model.  Its centroids are as many as the clusters, and fit the
data (`Model.yields_centroids`).  `Model.agree_computeFit_of_runs`: models that differ in metric,
batches and tiles fit alike if their runs are in step.
-/

namespace Clustering

/-! ### The kernel of the parameters -/

section Params

variable {ω : Type}

/-- The parameters with another metric, batches and tiles. -/
def Params.withKernel (p : Params ω) (metric : Metric) (batchRows tileRows : ℕ) : Params ω :=
  { p with metric, batchRows, tileRows }

/-- Apart from the kernel, the runs of a fit do not look at metric, batches and tiles. -/
theorem Seeding.bestRun_withKernel {α σ : Type} [Scalar α] [Scalar ω] [Widening α ω]
    [Source σ ω] [Memory] [BlockProduct α] (p : Params ω) (metric : Metric) (b t : ℕ) (e : Kernel)
    (x : Matrix α) (weights : Option (List α)) (array : Matrix α) :
    (bestRun (p.withKernel metric b t) e x weights array : Seeding σ ω (Fit α ω)) =
      bestRun p e x weights array := by
  have hkeep : ∀ (left r : ℕ) (best : Fit α ω),
      (keepBest (p.withKernel metric b t) e x weights array left r best :
        Seeding σ ω (Fit α ω)) = keepBest p e x weights array left r best := by
    intro left
    induction left with
    | zero => exact fun r best => rfl
    | succ left ih =>
      intro r best
      unfold keepBest
      simp only [ih]
      rfl
  unfold bestRun
  simp only [hkeep]
  rfl

end Params

/-- If the values of a data set are handed over, they are as many as its shape asks for. -/
def Dataset.Complete {α : Type} (x : Dataset α) : Prop :=
  x.isPresent = true → x.table.Full

namespace Model

variable {E : Precision → Type} {ω σ : Type}

/-- The model with another metric, batches and tiles. -/
def withKernel (m : Model E ω) (metric : Metric) (b t : ℕ) : Model E ω :=
  { m with params := m.params.withKernel metric b t }

theorem kernel_withKernel (m : Model E ω) (metric : Metric) {b : ℕ} (hb : 0 < b) (t : ℕ) :
    ∃ e : Kernel, (m.withKernel metric b t).kernel = .ok e ∧ e.metric = metric ∧
      e.batchRows = min b indexLimit ∧ e.tileRows = t := by
  refine ⟨⟨metric, min b indexLimit, t, ?_⟩, ?_, rfl, rfl, rfl⟩
  · have : 0 < indexLimit := by decide
    omega
  · exact dif_pos hb

/-! ### Complete data -/

/-- The starting centroids of the model, if it has any, are complete. -/
def HasFullStart (m : Model E ω) : Prop := ∀ s, m.start = some s → s.centroids.Full

theorem full_of_startFor {m : Model E ω} (hm : m.HasFullStart) {p : Precision}
    {array : Matrix (E p)} (h : m.startFor p = .ok array) : array.Full := by
  unfold startFor at h
  split at h
  · cases h
    rfl
  · split_ifs at h with hp
    subst hp
    cases h
    exact hm _ ‹_›

theorem present_of_checkData {α : Type} {op : String} {width : Option ℕ} {x : Dataset α}
    (h : checkData op width x = .ok ()) :
    0 < x.table.rows ∧ 0 < x.table.cols ∧ x.isPresent = true := by
  unfold checkData at h
  split_ifs at h with hvoid hpresent
  simp only [Matrix.isVoid, Bool.or_eq_true, decide_eq_true_eq, not_or] at hvoid
  exact ⟨Nat.pos_of_ne_zero hvoid.1, Nat.pos_of_ne_zero hvoid.2, hpresent⟩

/-! ### What a model keeps -/

section Commit

variable [∀ p, Widening (E p) ω] (m : Model E ω) (p : Precision) (features : ℕ)
  (f : Fit (E p) ω)

@[simp] theorem features_commit : (m.commit p features f).features = features := rfl

@[simp] theorem kernel_commit : (m.commit p features f).kernel = m.kernel := rfl

@[simp] theorem stored_commit : (m.commit p features f).stored p = f.centroids := by
  simp [stored, commit]

@[simp] theorem centroidsFor_commit (op : String) :
    (m.commit p features f).centroidsFor op p = .ok f.centroids := by
  simp [centroidsFor, commit]

theorem inertia_commit [Scalar ω] (hkeep : ∀ v : E p, narrow (widen v) = v) :
    (m.commit p features f).inertia p = .ok f.inertia := by
  rw [inertia, centroidsFor_commit]
  show Except.ok (narrow (widen f.inertia)) = _
  rw [hkeep]

end Commit

variable [∀ p, Scalar (E p)] [Scalar ω] [∀ p, Widening (E p) ω] [∀ p, BlockProduct (E p)]
  [Memory] [Source σ ω]

/-! ### Results -/

section Results

variable (m : Model E ω) (p : Precision) (x : Dataset (E p)) (weights : Option (List (E p)))

/-- The result of a fit is the result of its computation, from a fresh source. -/
theorem result_fit :
    (m.fit σ p x weights).result =
      ((m.computeFit p x weights : Seeding σ ω (Fit (E p) ω)).run
        ⟨Source.seed m.params.seed, []⟩).1 := by
  unfold fit
  dsimp only
  split <;> rename_i hrun <;> rw [hrun]

/-- A fit that returns is kept. -/
theorem fit_of_ok {f : Fit (E p) ω} (h : (m.fit σ p x weights).result = .ok f) :
    (m.fit σ p x weights).model = m.commit p x.table.cols f := by
  unfold fit at h ⊢
  dsimp only at h ⊢
  split at h <;> cases h
  rfl

/-- A fit that fails changes nothing. -/
theorem fit_of_error {f : Failure} (h : (m.fit σ p x weights).result = .error f) :
    (m.fit σ p x weights).model = m := by
  unfold fit at h ⊢
  dsimp only at h ⊢
  split at h <;> cases h
  rfl

end Results

section Computation

/-- What a fit asks for before its first run. -/
structure Ready (m : Model E ω) (p : Precision) (x : Dataset (E p)) (weights : Option (List (E p)))
    (array : Matrix (E p)) (e : Kernel) : Prop where
  start : m.startFor p = .ok array
  data : checkData "fit" none x = .ok ()
  weighed : checkWeights "fit" weights = .ok ()
  total : checkTotal "fit" weights = .ok ()
  kernel : m.kernel = .ok e

variable {m : Model E ω} {p : Precision} {x : Dataset (E p)} {weights : Option (List (E p))}

/-- A fit that returns has found data and weights in order, and what it returns is a refinement by
the kernel of the model, from a start of the class. -/
theorem yields_computeFit {C : Matrix (E p) → Prop}
    (h : ∀ array e, m.startFor p = .ok array → checkData "fit" none x = .ok () →
      Seeding.Yields
        (Seeding.start m.params e x.table weights array :
          Seeding σ ω (Matrix (E p) × SeedStats)) fun cs => C cs.1) :
    Seeding.Yields (m.computeFit p x weights : Seeding σ ω (Fit (E p) ω)) fun f =>
      checkData "fit" none x = .ok () ∧ checkWeights "fit" weights = .ok () ∧
        ∃ e, m.kernel = .ok e ∧ f.RefinedFrom C e x.table weights := by
  unfold computeFit
  refine (Seeding.yields_attempt _).bind fun array harray => ?_
  refine (Seeding.yields_attempt _).bind fun _ hx => (Seeding.yields_attempt _).bind fun _ hw => ?_
  refine Seeding.yields_andThen fun _ => Seeding.yields_andThen fun _ => ?_
  refine Seeding.Yields.reportingLack ((Seeding.yields_attempt _).bind fun e he => ?_) _ _
  have hruns := Seeding.yields_bestRun fun r =>
    Seeding.yields_fitRun (h array e harray hx) r
  exact hruns.bind fun f hf => Seeding.yields_andThen fun _ =>
    Seeding.yields_pure ⟨hx, hw, e, he, hf⟩

/-- The centroids that a fit returns are as many as the clusters, and fit the data. -/
theorem yields_centroids [Source.InRange σ] (hm : m.HasFullStart) (hx : x.Complete) :
    Seeding.Yields (m.computeFit p x weights : Seeding σ ω (Fit (E p) ω)) fun f =>
      f.centroids.rows = m.params.clusters ∧ x.table.Fits f.centroids := by
  refine (yields_computeFit (C := fun c => c.rows = m.params.clusters ∧ x.table.Fits c)
    fun array e harray hdata => ?_).mono ?_
  · obtain ⟨hrows, -, hpresent⟩ := present_of_checkData hdata
    exact Seeding.yields_start hrows (hx hpresent) m.params e weights (full_of_startFor hm harray)
  · rintro f ⟨-, -, e, -, r, c, -, ⟨hrows, hfits⟩, hrun⟩
    obtain ⟨hkept, hend⟩ := Refiner.fits_of_run hfits hrun
    exact ⟨hkept.trans hrows, hend⟩

/-- Models that differ in metric, batches and tiles fit alike if their runs are in step. -/
theorem agree_computeFit_of_runs {lack : Prop} {k k' : Metric} {b b' t t' : ℕ} {e e' : Kernel}
    (he : (m.withKernel k b t).kernel = .ok e) (he' : (m.withKernel k' b' t').kernel = .ok e')
    (h : ∀ array, m.startFor p = .ok array → checkData "fit" none x = .ok () → ∀ r,
      Seeding.Agree lack
        (Seeding.fitRun m.params e x.table weights array r : Seeding σ ω (Fit (E p) ω))
        (Seeding.fitRun m.params e' x.table weights array r)) :
    Seeding.Agree lack ((m.withKernel k b t).computeFit p x weights : Seeding σ ω (Fit (E p) ω))
      ((m.withKernel k' b' t').computeFit p x weights) := by
  unfold computeFit
  refine (Seeding.agree_attempt_self _).bind_of_yields (Seeding.yields_attempt _) fun array ha => ?_
  refine (Seeding.agree_attempt_self _).bind_of_yields (Seeding.yields_attempt _) fun _ hx => ?_
  refine (Seeding.agree_attempt_self _).bind fun _ => ?_
  refine (Seeding.agree_attempt_self _).bind fun _ => ?_
  refine (Seeding.agree_record _ _).bind fun _ => Seeding.Agree.reportingLack ?_ _ _
  rw [he, he', Seeding.attempt_ok, Seeding.attempt_ok, pure_bind, pure_bind]
  have hruns : Seeding.Agree lack
      (Seeding.bestRun (m.params.withKernel k b t) e x.table weights array :
        Seeding σ ω (Fit (E p) ω))
      (Seeding.bestRun (m.params.withKernel k' b' t') e' x.table weights array) := by
    rw [Seeding.bestRun_withKernel, Seeding.bestRun_withKernel]
    exact Seeding.agree_bestRun (h array ha hx)
  exact hruns.bind fun f => (Seeding.agree_attempt_self _).bind fun _ => Seeding.agree_pure f

end Computation

end Model

end Clustering
