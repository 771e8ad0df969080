import Clustering.Distance
import Clustering.Matrix
import Clustering.Quality.Sizes

/-!
# Spread of clusters

Measures of how far the rows of a data set lie from the centroids that their labels name.  Rows
whose label names no centroid are left out.

Nothing here checks the width of the centroids.  A row is compared with as many stored values as it
has itself, starting with the first of its centroid.
-/

namespace Clustering

section Inertia

variable {α : Type} [Scalar α]

/-- The squared distance of a row to the centroid with number `l`. -/
def centroidDist (c : Matrix α) (row : List α) (l : Nat) : α := sqDist row (c.rowOnwards l)

/-- Adds the squared distance of a row to the centroid of its label. -/
def addSquare (c : Matrix α) (sum : α) (row : List α × Int) : α :=
  match clusterOf? c.rows row.2 with
  | some l => sum + centroidDist c row.1 l
  | none => sum

/-- The sum of the squared distances of all rows to the centroids of their labels. -/
def inertiaOf (x : Matrix α) (labels : List Int) (c : Matrix α) : α :=
  (x.rowList.zip labels).foldl (addSquare c) 0

end Inertia

/-! ### Statistics of each cluster -/

/-- How far the rows of a cluster lie from its centroid. -/
structure ClusterStats (ω : Type) where
  minDist : ω
  maxDist : ω
  meanDist : ω
  /-- The largest distance divided by the mean one; large where a few rows lie far out. -/
  radiusRatio : ω
  count : Nat
deriving DecidableEq

namespace ClusterStats

section Collect

variable {ω : Type} [Scalar ω]

/-- No distances collected yet.  While distances are collected, the mean holds their sum. -/
def start : ClusterStats ω := ⟨Scalar.largest, 0, 0, 0, 0⟩

/-- Adds a distance. -/
def add (s : ClusterStats ω) (dist : ω) : ClusterStats ω :=
  { s with
    minDist := if dist < s.minDist then dist else s.minDist
    maxDist := if s.maxDist < dist then dist else s.maxDist
    meanDist := s.meanDist + dist
    count := s.count + 1 }

/-- The statistics of the distances that were collected. -/
def finish (s : ClusterStats ω) : ClusterStats ω :=
  if 0 < s.count then
    let mean := s.meanDist / (s.count : ω)
    { s with meanDist := mean, radiusRatio := if 0 < mean then s.maxDist / mean else 0 }
  else { s with minDist := 0 }

end Collect

section Statistics

variable {α ω : Type} [Scalar α] [Scalar ω] [Widening α ω]

/-- Adds the distance of a row to the statistics of its cluster. -/
def addRow (c : Matrix α) (stats : List (ClusterStats ω)) (row : List α × Int) :
    List (ClusterStats ω) :=
  match clusterOf? c.rows row.2 with
  | some l => stats.modify l (·.add (Scalar.sqrt (widen (centroidDist c row.1 l))))
  | none => stats

/-- The statistics of each cluster. -/
def ofLabels (x : Matrix α) (labels : List Int) (c : Matrix α) : List (ClusterStats ω) :=
  ((x.rowList.zip labels).foldl (addRow c) (List.replicate c.rows start)).map finish

/-- Bytes that the statistics of one cluster take. -/
def storedBytes : Nat := 40

/-- The statistics of each cluster, in storage of their own. -/
def ofLabels? [Memory] (x : Matrix α) (labels : List Int) (c : Matrix α) :
    Except Failure (List (ClusterStats ω)) := do
  Memory.storage storedBytes c.rows
  return ofLabels x labels c

end Statistics

end ClusterStats

end Clustering
