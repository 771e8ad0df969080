import Clustering.Memory
import Clustering.Scalar

/-!
# Cluster sizes and purity

Measures of a labelling that do not look at the data.  Labels may be any integers; those that are
not the number of a cluster are left out of all counts.
-/

namespace Clustering

/-- The cluster that a label names, out of `k`. -/
def clusterOf? (k : Nat) (label : Int) : Option Nat :=
  if 0 ≤ label ∧ label < k then some label.toNat else none

section Sizes

/-- Counts one label. -/
def countLabel (sizes : List Nat) (label : Int) : List Nat :=
  match clusterOf? sizes.length label with
  | some c => sizes.modify c (· + 1)
  | none => sizes

/-- How many labels name each of `k` clusters. -/
def clusterSizes (labels : List Int) (k : Nat) : List Nat :=
  labels.foldl countLabel (List.replicate k 0)

/-- The counts of `k` clusters, in storage of their own. -/
def clusterSizes? [Memory] (labels : List Int) (k : Nat) : Except Failure (List Nat) := do
  Memory.storage 8 k
  return clusterSizes labels k

/-- How many clusters no label names. -/
def emptyClusterCount (sizes : List Nat) : Nat := sizes.countP (· = 0)

variable {ω : Type} [Scalar ω]

/-- The largest size divided by the smallest, or zero if a cluster is empty. -/
def imbalanceRatio (sizes : List Nat) : ω :=
  if sizes.isEmpty then 0
  else
    let smallest := sizes.foldl min 0xffff_ffff_ffff_ffff
    let largest := sizes.foldl max 0
    if smallest = 0 then 0 else (largest : ω) / (smallest : ω)

/-- The standard deviation of the sizes. -/
def sizeDeviation (sizes : List Nat) : ω :=
  if sizes.isEmpty then 0
  else
    let count : ω := (sizes.length : ω)
    let mean := total (sizes.map fun (s : Nat) => (s : ω)) / count
    let variance := total (sizes.map fun (s : Nat) =>
      let d := (s : ω) - mean
      d * d)
    Scalar.sqrt (variance / count)

end Sizes

/-! ### Purity -/

/-- Counts one row in the table of predicted against true clusters. -/
def countPair (classes : Nat) (table : List (List Nat)) (pair : Int × Int) : List (List Nat) :=
  match clusterOf? table.length pair.1, clusterOf? classes pair.2 with
  | some p, some t => table.modify p fun row => row.modify t (· + 1)
  | _, _ => table

/-- For each of `k` predicted and each of `classes` true clusters the number of rows in both. -/
def contingency (k classes : Nat) (pairs : List (Int × Int)) : List (List Nat) :=
  pairs.foldl (countPair classes) (List.replicate k (List.replicate classes 0))

/-- How many rows lie in the most frequent true cluster of their predicted one. -/
def majorityCount (k classes : Nat) (pairs : List (Int × Int)) : Nat :=
  ((contingency k classes pairs).map fun row => row.foldl max 0).foldl (· + ·) 0

/-- The share of rows that lie in the most frequent true cluster of their predicted one. -/
def purity {ω : Type} [Scalar ω] [Memory] (k classes : Nat) (pairs : List (Int × Int)) :
    Except Failure ω := do
  if pairs.isEmpty ∨ k = 0 ∨ classes = 0 then return 0
  Memory.storage 8 classes
  Memory.storage 24 k
  return (majorityCount k classes pairs : ω) / (pairs.length : ω)

end Clustering
