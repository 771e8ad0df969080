import Clustering.Model.Answer
import Clustering.Proofs.Fits

/-!
# Predictions on the data of a fit

A refinement ends with an assignment of the rows to the centroids that it returns.  To assign the
rows to these centroids once more passes the same checks, asks for the same buffers and adds up the
same terms in the same order (`Refiner.assign_of_run`).  So a model that was just fitted answers
with the labels and the inertia of the fit (`Model.predict_after_fit`).

No law of arithmetic is used here, save that a value survives being kept as a total.
-/

namespace Clustering

/-! ### The last assignment of a refinement -/

namespace Refiner

variable {α ω : Type} [Scalar α] [Memory]

theorem labelBuffer_of_admission {r : Refiner ω} {x start : Matrix α}
    (h : r.admission x start = .ok ()) :
    Memory.buffer "label buffer" labelBytes x.rows = .ok () := by
  obtain ⟨hcols, -, -⟩ := shapes_of_admission h
  unfold admission prepare at h
  rw [if_neg (not_not.mpr hcols)] at h
  cases hbuffer : Memory.buffer "label buffer" labelBytes x.rows with
  | error f => rw [hbuffer] at h; cases h
  | ok u => rfl

variable [Scalar ω] [Widening α ω] [BlockProduct α]

/-- The rows assigned to the centroids that a refinement returns carry its labels, with its
inertia. -/
theorem assign_of_run {r : Refiner ω} {x start : Matrix α} {weights : Option (List α)}
    {res : Refined α ω} (h : (r.run x weights start).1 = .ok res) :
    r.kernel.assign x res.centroids weights = .ok ⟨res.labels, res.inertia⟩ := by
  obtain ⟨hadm, m, phase, -, rfl⟩ := r.eq_outcome_of_run x weights start h
  obtain ⟨hcols, -, hkernel⟩ := shapes_of_admission hadm
  have hwidth : x.cols = (r.kernel.orbit x weights start m).cols := by
    rw [Kernel.cols_orbit, hcols]
  have hsweep : r.kernel.sweep x (r.kernel.orbit x weights start m) =
      .ok (r.kernel.delivered x (r.kernel.orbit x weights start m)) := by
    rw [Kernel.sweep_eq, Kernel.admission_orbit, hkernel]
    rfl
  show r.kernel.assign x (r.kernel.orbit x weights start m) weights = _
  rw [Kernel.assign, if_neg (not_not.mpr hwidth), labelBuffer_of_admission hadm, hsweep]
  rfl

end Refiner

/-! ### Models -/

namespace Model

/-- Data that a fit accepts are accepted by the model that keeps the fit. -/
theorem checkData_of_fit {α : Type} {x : Dataset α} {op : String}
    (h : checkData "fit" none x = .ok ()) : checkData op (some x.table.cols) x = .ok () := by
  unfold checkData at h ⊢
  split_ifs at h ⊢
  exact if_pos rfl

theorem checkWeights_of_ok {α : Type} [Scalar α] {weights : Option (List α)} {op op' : String}
    (h : checkWeights op weights = .ok ()) : checkWeights op' weights = .ok () := by
  cases weights with
  | none => rfl
  | some ws =>
    unfold checkWeights at h ⊢
    dsimp only at h ⊢
    cases hfind : ws.findIdx? (!isWeight ·) with
    | some i => rw [hfind] at h; cases h
    | none => rfl

variable {E : Precision → Type} {ω σ : Type} [∀ p, Scalar (E p)] [Scalar ω]
  [∀ p, Widening (E p) ω] [∀ p, BlockProduct (E p)] [Memory] [Source σ ω]

/-- A model that was just fitted answers for the data of the fit with the labels and the inertia
that the fit returned, and holds its centroids and its inertia. -/
theorem predict_after_fit (m : Model E ω) (p : Precision)
    (hkeep : ∀ v : E p, narrow (widen v : ω) = v) (x : Dataset (E p))
    (weights : Option (List (E p))) {f : Fit (E p) ω}
    (h : (m.fit σ p x weights).result = .ok f) :
    (m.fit σ p x weights).model.predict p x weights = .ok ⟨f.labels, f.inertia⟩ ∧
      (m.fit σ p x weights).model.stored p = f.centroids ∧
      (m.fit σ p x weights).model.centroids p = .ok f.centroids ∧
      (m.fit σ p x weights).model.inertia p = .ok f.inertia := by
  rw [m.fit_of_ok p x weights h]
  refine ⟨?_, m.stored_commit .., m.centroidsFor_commit .., m.inertia_commit p _ f hkeep⟩
  rw [result_fit] at h
  obtain ⟨hdata, hweights, e, he, r, c, rfl, -, hrun⟩ := yields_computeFit (C := fun _ => True)
    (fun _ _ _ _ => .of_forall fun _ => trivial) _ f h
  have hassign : r.kernel.assign x.table f.centroids weights = .ok ⟨f.labels, f.inertia⟩ :=
    Refiner.assign_of_run hrun
  rw [predict, centroidsFor_commit, features_commit, kernel_commit, he]
  simp only [bind, Except.bind, checkData_of_fit hdata, checkWeights_of_ok hweights, hassign]

end Model

/-! ### Four points in machine numbers -/

namespace Model

/-- Two clusters from random starts, the better of two runs. -/
def duo : Model Precision.Machine Float where
  params := { Params.standard with
    clusters := 2, method := .random, runs := 2, maxIterations := 3
    metric := .expanded, batchRows := 2, tileRows := 1 }
  start := none
  fitted := none

/-- Four points on a line. -/
def fourPoints : Dataset (Precision.double.Machine) := ⟨⟨4, 1, [0, 1, 5, 7]⟩, true⟩

/-- The fit to the four points returns, and the model then gives the same answer for them. -/
theorem predict_after_fit_duo :
    ∃ f, (duo.fit (Counter Float) .double fourPoints none).result = .ok f ∧
      (duo.fit (Counter Float) .double fourPoints none).model.predict .double fourPoints none =
        .ok ⟨f.labels, f.inertia⟩ := by
  have hok : (duo.fit (Counter Float) .double fourPoints none).result.isOk = true := by
    decide +kernel
  cases hfit : (duo.fit (Counter Float) .double fourPoints none).result with
  | error e => rw [hfit] at hok; cases hok
  | ok f =>
    exact ⟨f, rfl, (predict_after_fit duo .double (fun _ => rfl) fourPoints none hfit).1⟩

end Model

end Clustering
