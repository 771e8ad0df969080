import Clustering.Kernel

/-!
# Assignments

Rows assigned to their nearest centroids.  The inertia of an assignment is the weighted sum of the
squared distances, added up in row order while the kernel's batches come in.
-/

namespace Clustering

/-- A label for each row, and the weighted sum of the squared distances. -/
structure Assignment (α : Type) where
  labels : List Nat
  inertia : α
deriving DecidableEq

section Assignment

variable {α : Type} [Scalar α]

/-- The weights of the rows of each batch; without weights every row counts once. -/
def batchWeights (weights : Option (List α)) (bs : List Batch) : List (List α) :=
  match weights with
  | none => bs.map fun b => List.replicate b.size 1
  | some ws => Batch.deal bs ws

/-- The batches of a sweep, each with the weights of its rows. -/
def weightedBatches (weights : Option (List α)) (sweep : List (NearestBatch α)) :
    List (List α × List (Nearest α)) :=
  (batchWeights weights (sweep.map (·.batch))).zip (sweep.map (·.rows))

/-- Adds the weighted squared distances of a batch to a sum. -/
def addInertia (sum : α) (batch : List α × List (Nearest α)) : α :=
  (List.zipWith (fun w n => w * n.dist) batch.1 batch.2).foldl (· + ·) sum

namespace Assignment

/-- The assignment that a sweep of the kernel delivers. -/
def ofSweep (weights : Option (List α)) (sweep : List (NearestBatch α)) : Assignment α where
  labels := sweep.flatMap fun nb => nb.rows.map (·.label)
  inertia := (weightedBatches weights sweep).foldl addInertia 0

end Assignment

namespace Kernel

variable [Memory] [BlockProduct α]

/-- Assigns every row to its nearest centroid.  The widths have to agree even without rows. -/
def assign (e : Kernel) (x c : Matrix α) (weights : Option (List α)) :
    Except Failure (Assignment α) := do
  if x.cols ≠ c.cols then throw (.fittedWidth "predict" x.cols c.cols)
  Memory.buffer "label buffer" labelBytes x.rows
  return .ofSweep weights (← e.sweep x c)

/-- The Euclidean distance from every row to every centroid. -/
def distanceMatrix (e : Kernel) (x c : Matrix α) : Except Failure (Matrix α) := do
  if x.cols ≠ c.cols then throw (.fittedWidth "transform" x.cols c.cols)
  Memory.storageOr (.distanceMatrix x.rows c.rows) (Scalar.bytes α) (sizeWord (x.rows * c.rows))
  return ⟨x.rows, c.rows, (← e.pairwise x c true).flatten⟩

end Kernel

end Assignment

end Clustering
