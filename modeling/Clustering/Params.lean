import Clustering.Failure
import Clustering.Level
import Clustering.Scalar

/-!
# Parameters

The parameters of a clustering, and what makes them acceptable.
-/

namespace Clustering

/-- What a caller chooses for a clustering. -/
structure Params (ω : Type) where
  clusters : Nat
  method : SeedMethod
  maxIterations : Nat
  /-- The relative improvement of the inertia below which a run has converged. -/
  tolerance : ω
  seed : UInt64
  /-- Candidates that an oversampling round expects to find, per cluster. -/
  oversampling : ω
  batchRows : Nat
  /-- The number of centroids in a tile; zero puts all of them into one. -/
  tileRows : Nat
  /-- Whether a run may end before all its iterations are made. -/
  checkInertia : Bool
  metric : Metric
  /-- How many runs are made, each from a seed of its own. -/
  runs : Nat
  verbosity : Level

namespace Params

variable {ω : Type} [Scalar ω]

/-- The parameters of a caller who chooses none. -/
def standard : Params ω where
  clusters := 8
  method := .scalable
  maxIterations := 300
  tolerance := 1 / ((10000 : Nat) : ω)
  seed := 0
  oversampling := ((2 : Nat) : ω)
  batchRows := 32768
  tileRows := 0
  checkInertia := true
  metric := .unexpanded
  runs := 1
  verbosity := .warn

/-- The first fault, in the order that faults are reported. -/
def fault? (p : Params ω) : Option ParamFault :=
  if p.clusters < 1 then some .clusters
  else if p.maxIterations < 1 then some .iterations
  else if !Scalar.isFinite p.tolerance || p.tolerance < 0 then some .tolerance
  else if !Scalar.isFinite p.oversampling || p.oversampling ≤ 0 then some .oversampling
  else if p.batchRows < 1 then some .batchRows
  else if p.runs < 1 then some .runs
  else if p.method = .unsupported then some .method
  else if p.metric = .unsupported then some .metric
  else none

/-- Accepts parameters without a fault. -/
def validate (p : Params ω) : Except Failure Unit :=
  match p.fault? with
  | none => .ok ()
  | some fault => .error (.invalidParam fault)

end Params

end Clustering
