import Clustering.Assignment

/-!
# Tallies

What one pass over the data collects for the update of the centroids: for each cluster its weight
and the weighted sum of its rows.  Rows are added in row order, so that every entry of a tally is a
sum in row order whatever the batches are.

A cluster without weight keeps its centroid; every other centroid moves to the weighted mean.
-/

namespace Clustering

/-- Weight and weighted row sum of each cluster. -/
structure Tally (α : Type) where
  weights : List α
  sums : List (List α)
deriving DecidableEq

namespace Tally

section Collect

variable {α : Type} [Scalar α]

/-- The tally of no rows, for `k` clusters of vectors with `dim` coordinates. -/
def zero (k dim : Nat) : Tally α :=
  ⟨List.replicate k 0, List.replicate k (List.replicate dim 0)⟩

/-- Adds a row of some weight to the cluster with a given label. -/
def addRow (t : Tally α) (label : Nat) (w : α) (row : List α) : Tally α where
  weights := t.weights.modify label (· + w)
  sums := t.sums.modify label fun sum => List.zipWith (fun s v => s + w * v) sum row

/-- Adds the rows of a batch. -/
def addBatch (t : Tally α) (batch : List (List α) × List α × List (Nearest α)) : Tally α :=
  (batch.1.zip (batch.2.1.zip batch.2.2)).foldl (fun t (row, w, n) => t.addRow n.label w row) t

/-- The tally of a whole sweep. -/
def ofSweep (k dim : Nat) (rows : List (List α)) (weights : Option (List α))
    (sweep : List (NearestBatch α)) : Tally α :=
  let dealt := Batch.deal (sweep.map (·.batch)) rows
  (dealt.zip (weightedBatches weights sweep)).foldl addBatch (zero k dim)

/-! ### The update -/

/-- Each cluster's weight with its weighted row sum. -/
def clusters (t : Tally α) : List (α × List α) := t.weights.zip t.sums

/-- The weighted mean of a cluster, or its old centroid if it has no weight. -/
def moved (old : List α) (cluster : α × List α) : List α :=
  if cluster.1 ≤ 0 then old else cluster.2.map (· / cluster.1)

/-- The centroids after the update. -/
def centroids (t : Tally α) (old : List (List α)) : List (List α) :=
  List.zipWith moved old t.clusters

/-- How many clusters have no weight. -/
def emptyClusters (t : Tally α) : Nat := t.weights.countP (· ≤ 0)

end Collect

section Shift

variable {α ω : Type} [Scalar α] [Scalar ω] [Widening α ω]

/-- Adds the squared movement of one centroid, coordinate by coordinate.  A cluster without weight
adds nothing. -/
def addShift (shift : ω) (old : List α) (cluster : α × List α) : ω :=
  if cluster.1 ≤ 0 then shift
  else
    (List.zipWith
      (fun v s =>
        let d : ω := widen (s / cluster.1) - widen v
        d * d)
      old cluster.2).foldl (· + ·) shift

/-- The sum of the squared movements of all centroids. -/
def shift (t : Tally α) (old : List (List α)) : ω :=
  (old.zip t.clusters).foldl (fun sum (c, cluster) => addShift sum c cluster) 0

end Shift

end Tally

end Clustering
