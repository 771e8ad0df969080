import Clustering.Model.Fit

/-!
# Questions to a fitted model

Labels, distances, scores and statistics of data with respect to the centroids of the last fit.
These leave the model as it is.  Each question first asks for a fitted model of the right
precision, and then for data of the right width.
-/

namespace Clustering

namespace Model

variable {E : Precision → Type} {ω : Type} [∀ p, Scalar (E p)] [Scalar ω]
  [∀ p, Widening (E p) ω] [∀ p, BlockProduct (E p)] [Memory]

/-- Assigns every row to the nearest centroid. -/
def predict (m : Model E ω) (p : Precision) (x : Dataset (E p))
    (weights : Option (List (E p))) : Except Failure (Assignment (E p)) := do
  let c ← m.centroidsFor "predict" p
  checkData "predict" (some m.features) x
  checkWeights "predict" weights
  let answer := m.kernel.bind fun e => e.assign x.table c weights
  match answer with
  | .error .outOfMemory => throw (.predictMemory x.table.rows)
  | answer => answer

/-- The Euclidean distance from every row to every centroid. -/
def transform (m : Model E ω) (p : Precision) (x : Dataset (E p)) :
    Except Failure (Matrix (E p)) := do
  let c ← m.centroidsFor "transform" p
  checkData "transform" (some m.features) x
  (← m.kernel).distanceMatrix x.table c

/-- The negated inertia of the data: the higher, the better. -/
def score (m : Model E ω) (p : Precision) (x : Dataset (E p))
    (weights : Option (List (E p))) : Except Failure (E p) := do
  return -(← m.predict p x weights).inertia

/-- The statistics of each cluster over the data. -/
def clusterStats (m : Model E ω) (p : Precision) (x : Dataset (E p)) :
    Except Failure (List (ClusterStats ω)) := do
  let a ← m.predict p x none
  let labels : List Int := a.labels.map fun (l : Nat) => (l : Int)
  ClusterStats.ofLabels? x.table labels (m.stored p)

/-- The centroids of the last fit. -/
def centroids (m : Model E ω) (p : Precision) : Except Failure (Matrix (E p)) :=
  m.centroidsFor "centroids" p

/-- The inertia of the last fit. -/
def inertia (m : Model E ω) (p : Precision) : Except Failure (E p) := do
  let _ ← m.centroidsFor "inertia" p
  return narrow ((m.fitted.map (·.inertia)).getD 0)

/-- Fits a model to data and gives the distances of the rows to the centroids.  The model keeps the
fit even if there is no memory for the distances. -/
def fitTransform (σ : Type) [Source σ ω] (m : Model E ω) (p : Precision) (x : Dataset (E p))
    (weights : Option (List (E p))) : Outcome E ω (Matrix (E p)) :=
  let o := m.fit σ p x weights
  { o with result := o.result.bind fun _ => o.model.transform p x }

end Model

end Clustering
