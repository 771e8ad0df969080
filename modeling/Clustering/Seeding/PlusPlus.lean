import Clustering.Seeding.Sampling

/-!
# Greedy seeding

Seeding by k-means++: the first pick is drawn in proportion to the weights, and each later one in
proportion to weight times squared distance to the nearest pick so far.  These distances are the
gaps; a pick lowers the gaps of the rows that are closer to it than to the earlier picks.
-/

namespace Clustering

section Gap

variable {α : Type} [Scalar α]

/-- The smaller of a gap and a distance. -/
def closer (gap dist : α) : α := if dist < gap then dist else gap

/-- The gaps after the first pick. -/
def openGaps (rows : List (List α)) (pick : List α) : List α := rows.map (sqDist · pick)

/-- The gaps after one more pick. -/
def closeGaps (rows : List (List α)) (gaps : List α) (pick : List α) : List α :=
  List.zipWith (fun row gap => closer gap (sqDist row pick)) rows gaps

end Gap

/-- The picks made so far. -/
structure Picks (α : Type) where
  indices : List Nat
  /-- For each row its squared distance to the nearest pick. -/
  gaps : List α
deriving DecidableEq

namespace Seeding

variable {α σ ω : Type} [Scalar α] [Scalar ω] [Widening α ω] [Source σ ω]

/-- The first pick, in proportion to the weights. -/
def firstPick (x : Matrix α) (weights : List α) : Seeding σ ω (Picks α) := do
  let i ← proportional weights
  return ⟨[i], openGaps x.rowList (x.row i)⟩

/-- One more pick, in proportion to weight times gap. -/
def nextPick (x : Matrix α) (weights : List α) (s : Picks α) : Seeding σ ω (Picks α) := do
  let i ← proportional (List.zipWith (· * ·) weights s.gaps)
  return ⟨s.indices ++ [i], closeGaps x.rowList s.gaps (x.row i)⟩

/-- A number of further picks. -/
def morePicks (x : Matrix α) (weights : List α) :
    (count : Nat) → Picks α → Seeding σ ω (Picks α)
  | 0, s => return s
  | count + 1, s => do morePicks x weights count (← nextPick x weights s)

/-- The weights of all rows; without weights every row counts once. -/
def pickWeights (x : Matrix α) (weights : Option (List α)) : List α :=
  (weights.getD (List.replicate x.rows 1)).take x.rows

variable [Memory]

/-- Picks `k` rows. -/
def plusPlus (x : Matrix α) (weights : Option (List α)) (k : Nat) :
    Seeding σ ω (Matrix α) := do
  attempt (Memory.storage (Scalar.bytes α) (sizeWord (k * x.cols)))
  attempt (Memory.storage (Scalar.bytes α) x.rows)
  let ws := pickWeights x weights
  let first ← firstPick x ws
  attempt (Memory.storage (Scalar.bytes α) x.rows)
  let picks ← morePicks x ws (k - 1) first
  return x.pick (picks.indices.take k)

end Seeding

end Clustering
