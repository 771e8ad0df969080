import Clustering.Model.Basic

/-!
# Fitting

A fit makes one or more independent runs, each from a seed of its own, and keeps the first of those
with the least inertia.  The model changes only when the fit succeeds: `Model.fit` builds the new
state from the finished result, and after a failure returns the model that it was given.
-/

namespace Clustering

section Runs

variable {α σ ω : Type} [Scalar α] [Scalar ω] [Widening α ω] [Source σ ω] [Memory]
  [BlockProduct α]

/-- How many runs a fit makes.  Supplied centroids leave nothing to chance, so one run will do. -/
def Params.fitRuns (p : Params ω) : Nat := if p.method = .array then 1 else p.runs

namespace Seeding

/-- The run with number `r`, counted from zero: seeding from a seed of its own, and refinement. -/
def fitRun (p : Params ω) (e : Kernel) (x : Matrix α) (weights : Option (List α))
    (array : Matrix α) (r : Nat) : Seeding σ ω (Fit α ω) := do
  restart (Source.seed (p.seed + r.toUInt64))
  let (c, stats) ← start p e x weights array
  let refiner ← attempt (Refiner.new? e p.maxIterations p.tolerance p.checkInertia)
  let refined ← refine refiner x weights c
  record [.runEnded (r + 1) p.fitRuns refined.phase refined.iterations (widen refined.inertia)]
  return { refined with seeding := stats, run := r }

/-- Makes `left` more runs from number `r` on, and keeps a run only if its inertia is less than
that of the best one before it. -/
def keepBest (p : Params ω) (e : Kernel) (x : Matrix α) (weights : Option (List α))
    (array : Matrix α) : (left r : Nat) → Fit α ω → Seeding σ ω (Fit α ω)
  | 0, _, best => return best
  | left + 1, r, best => do
    let f ← fitRun p e x weights array r
    keepBest p e x weights array left (r + 1) (if f.inertia < best.inertia then f else best)

/-- All runs of a fit. -/
def bestRun (p : Params ω) (e : Kernel) (x : Matrix α) (weights : Option (List α))
    (array : Matrix α) : Seeding σ ω (Fit α ω) := do
  let first ← fitRun p e x weights array 0
  let best ← keepBest p e x weights array (p.fitRuns - 1) 1 first
  if 1 < p.fitRuns then
    record [.runKept (best.run + 1) p.fitRuns (widen best.inertia)]
  return best

/-- Reports a failure of a fit if it is for a lack of resources, and passes it on.  Exhausted memory
is a failure of the fit as a whole. -/
def reportLack {β : Type} (x : Matrix α) (clusters : Nat) (f : Failure) : Seeding σ ω β :=
  match f.kind with
  | .resource => do
    record [.fitFailed f]
    throw f
  | .memory => do
    record [.fitExhausted x.rows x.cols clusters]
    throw (.fitMemory x.rows x.cols clusters)
  | _ => throw f

/-- A fit whose lack of resources is reported. -/
def reportingLack {β : Type} (x : Matrix α) (clusters : Nat) (fit : Seeding σ ω β) :
    Seeding σ ω β :=
  tryCatch fit (reportLack x clusters)

end Seeding

end Runs

/-- The result of a call that may change a model: the result proper, the model after the call, and
the notices recorded. -/
structure Outcome (E : Precision → Type) (ω β : Type) where
  result : Except Failure β
  model : Model E ω
  notices : List (Notice ω)

namespace Outcome

/-- The outcome with another result. -/
def map {E : Precision → Type} {ω β γ : Type} (f : β → γ) (o : Outcome E ω β) :
    Outcome E ω γ := ⟨o.result.map f, o.model, o.notices⟩

end Outcome

namespace Model

variable {E : Precision → Type} {ω : Type} [∀ p, Scalar (E p)] [Scalar ω]
  [∀ p, Widening (E p) ω] [∀ p, BlockProduct (E p)] [Memory]

/-- The fit of a model to data, without the change of the model.  The caller gets the centroids that
were found, and the model is to keep a copy of them; if there is no memory for it, the fit fails. -/
def computeFit {σ : Type} [Source σ ω] (m : Model E ω) (p : Precision) (x : Dataset (E p))
    (weights : Option (List (E p))) : Seeding σ ω (Fit (E p) ω) := do
  let array ← Seeding.attempt (m.startFor p)
  Seeding.attempt (checkData "fit" none x)
  Seeding.attempt (checkWeights "fit" weights)
  Seeding.attempt (checkTotal "fit" weights)
  Seeding.record [.fitStarted x.table.rows x.table.cols m.clusters m.params.method
    m.params.metric m.params.batchRows m.params.tileRows p]
  Seeding.reportingLack x.table m.clusters do
    let e ← Seeding.attempt m.kernel
    let f ← Seeding.bestRun m.params e x.table weights array
    let _ ← Seeding.attempt f.centroids.copy?
    return f

/-- The model that keeps a fit to data of a given width. -/
def commit (m : Model E ω) (p : Precision) (features : Nat) (f : Fit (E p) ω) : Model E ω :=
  { m with fitted := some ⟨p, f.centroids, features, f.iterations, widen f.inertia⟩ }

/-- Fits a model to data, with draws from sources of type `σ`. -/
def fit (σ : Type) [Source σ ω] (m : Model E ω) (p : Precision) (x : Dataset (E p))
    (weights : Option (List (E p))) : Outcome E ω (Fit (E p) ω) :=
  let session : Session σ ω := ⟨Source.seed m.params.seed, []⟩
  match (m.computeFit p x weights).run session with
  | (.ok f, s) => ⟨.ok f, m.commit p x.table.cols f, s.notices⟩
  | (.error e, s) => ⟨.error e, m, s.notices⟩

/-- Fits a model to data and gives the labels of the rows. -/
def fitPredict (σ : Type) [Source σ ω] (m : Model E ω) (p : Precision) (x : Dataset (E p))
    (weights : Option (List (E p))) : Outcome E ω (List Nat) :=
  (m.fit σ p x weights).map (·.labels)

end Model

end Clustering
