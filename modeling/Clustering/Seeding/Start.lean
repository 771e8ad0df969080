import Clustering.Seeding.Oversampling

/-!
# Starting centroids

The three ways to the centroids that a refinement starts from: a matrix that the caller supplies,
rows drawn uniformly, and oversampled seeding.
-/

namespace Clustering

/-- A supplied matrix, which has to have `k` rows of the width of the data. -/
def startFromArray {α : Type} [Scalar α] [Memory] (k : Nat) (x array : Matrix α) :
    Except Failure (Matrix α) :=
  if array.rows ≠ k then .error (.startRows array.rows k)
  else if array.cols ≠ x.cols then .error (.startWidth array.cols x.cols)
  else array.copy?

namespace Seeding

variable {α σ ω : Type} [Scalar α] [Scalar ω] [Widening α ω] [Source σ ω] [Memory]

/-- Bytes that a stored index takes. -/
def indexBytes : Nat := 8

/-- Uniformly drawn rows. -/
def startFromRows (k : Nat) (x : Matrix α) : Seeding σ ω (Matrix α) := do
  attempt (Memory.reserve indexBytes k)
  let indices ← sampleRows x.rows k
  attempt (x.pick? indices)

variable [BlockProduct α]

/-- Starting centroids by the chosen method.  The array is read by that method only. -/
def start (p : Params ω) (e : Kernel) (x : Matrix α) (weights : Option (List α))
    (array : Matrix α) : Seeding σ ω (Matrix α × SeedStats) :=
  match p.method with
  | .array => do return (← attempt (startFromArray p.clusters x array), .none)
  | .random => do return (← startFromRows p.clusters x, .none)
  | .scalable => oversample p e x weights
  | .unsupported => throw (.invalidParam .method)

end Seeding

end Clustering
