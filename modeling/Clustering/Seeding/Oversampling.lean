import Clustering.Params
import Clustering.Seeding.PlusPlus

/-!
# Oversampled seeding

Seeding by k-means||.  A uniformly drawn row is the first candidate.  In each of a fixed number of
rounds every row tosses a coin, and becomes a candidate with a chance in proportion to its weight
and to its gap, the squared distance to the nearest candidate so far; about as many rows as the
oversampling factor asks for are expected to.  A round whose rows all have gap zero, or whose tosses
all fail, is skipped.

A candidate set that is larger than wanted is reduced: each candidate is given the weight of the
rows nearest to it, and the weighted candidates are seeded greedily and refined.  One that is too
small is padded with uniformly drawn rows.

Gaps are computed with the direct metric, so that a row that coincides with a candidate has gap
zero.
-/

namespace Clustering

/-- What oversampled seeding did. -/
structure SeedStats where
  roundsSampled : Nat
  roundsSkipped : Nat
  /-- The size of the candidate set before it was reduced or padded. -/
  candidates : Nat
  /-- How many rows the candidate set was padded with. -/
  padded : Nat
  /-- The iterations that the reduction took. -/
  reductionIterations : Nat
deriving DecidableEq

namespace SeedStats

/-- Seeding that did not oversample. -/
def none : SeedStats := ⟨0, 0, 0, 0, 0⟩

end SeedStats

/-- The candidates after some rounds. -/
structure Candidates (α : Type) where
  indices : List Nat
  /-- For each row its squared distance to the nearest candidate. -/
  gaps : List α
  sampled : Nat
  skipped : Nat
deriving DecidableEq

/-- A candidate set that is to be reduced. -/
structure Reduction (α : Type) where
  rows : Matrix α
  weights : List α
  start : Matrix α
deriving DecidableEq

namespace Oversampling

/-- The number of rounds. -/
def rounds : Nat := 8

/-- The largest number of iterations that a reduction takes. -/
def reductionIterations : Nat := 20

section Chance

variable {α ω : Type} [Scalar α] [Scalar ω] [Widening α ω]

/-- The weights of `n` rows, in the type that totals are kept in. -/
def rowWeights (weights : Option (List α)) (n : Nat) : List ω :=
  match weights with
  | none => List.replicate n 1
  | some ws => ws.map widen

/-- The weighted sum of the gaps. -/
def potential (weights : List ω) (gaps : List α) : ω :=
  total (List.zipWith (fun w gap => w * widen gap) weights gaps)

/-- The chance of a row to become a candidate. -/
def chance (expected potential weight : ω) (gap : α) : ω :=
  let p := expected * weight * widen gap / potential
  if p < 1 then p else 1

/-- Adds the weights of the rows of a batch to those of the candidates that they are nearest
to. -/
def addWeights (sums : List α) (batch : List α × List (Nearest α)) : List α :=
  (batch.1.zip batch.2).foldl (fun sums (w, n) => sums.modify n.label (· + w)) sums

/-- For each of `k` candidates the weight of the rows that are nearest to it. -/
def candidateWeights (k : Nat) (weights : Option (List α)) (sweep : List (NearestBatch α)) :
    List α :=
  (weightedBatches weights sweep).foldl addWeights (List.replicate k 0)

end Chance

end Oversampling

namespace Seeding

open Oversampling

variable {α σ ω : Type} [Scalar α] [Scalar ω] [Widening α ω] [Source σ ω]

/-- Tosses the coins of one round, given each row's index, weight and gap.  Rows of gap zero, and
rows without a chance, do not toss. -/
def tossRows (expected potential : ω) (taken : List Nat) :
    List (Nat × ω × α) → Seeding σ ω (List Nat)
  | [] => return []
  | (i, weight, gap) :: rows => do
    if gap ≤ 0 then tossRows expected potential taken rows
    else
      let p := chance expected potential weight gap
      if 0 < p then
        let u ← coin
        let later ← tossRows expected potential taken rows
        return if u < p ∧ i ∉ taken then i :: later else later
      else tossRows expected potential taken rows

variable [Memory] [BlockProduct α]

/-- One round: the rows that win their toss become candidates, and the gaps are closed to them. -/
def sampleRound (e : Kernel) (x : Matrix α) (weights : List ω) (expected : ω)
    (c : Candidates α) (number : Nat) : Seeding σ ω (Candidates α) := do
  let phi := potential weights c.gaps
  let found ←
    if 0 < phi then
      tossRows expected phi c.indices ((List.range x.rows).zip (weights.zip c.gaps))
    else pure []
  if found.isEmpty then
    record [.roundSkipped number phi]
    return { c with skipped := c.skipped + 1 }
  else
    let added ← attempt (x.pick? found)
    let near ← attempt (e.direct.nearest x added)
    let indices := c.indices ++ found
    record [.roundSampled number found.length indices.length phi]
    return ⟨indices, List.zipWith (fun gap n => closer gap n.dist) c.gaps near, c.sampled + 1,
      c.skipped⟩

/-- The first candidate, and the gaps to it. -/
def firstCandidate (e : Kernel) (x : Matrix α) : Seeding σ ω (Candidates α) := do
  let first ← index (lastIndex x.rows)
  attempt (Memory.buffer "k-means|| distance buffer" (Scalar.bytes α) x.rows)
  let start ← attempt (x.pick? [first])
  let near ← attempt (e.direct.nearest x start)
  return ⟨[first], near.map (·.dist), 0, 0⟩

/-- The candidates after `count` rounds. -/
def sampleRounds (e : Kernel) (x : Matrix α) (weights : List ω) (expected : ω) (c : Candidates α)
    (count : Nat) : Seeding σ ω (Candidates α) :=
  (List.range count).foldlM (fun c i => sampleRound e x weights expected c (i + 1)) c

/-- The candidates after all rounds. -/
def candidates (e : Kernel) (x : Matrix α) (weights : Option (List α)) (expected : ω) :
    Seeding σ ω (Candidates α) := do
  let first ← firstCandidate e x
  sampleRounds e x (rowWeights weights x.rows) expected first rounds

/-- The weighted candidates and the greedy seeds among them, from which a reduction starts. -/
def weighCandidates (e : Kernel) (x : Matrix α) (weights : Option (List α)) (k : Nat)
    (indices : List Nat) : Seeding σ ω (Reduction α) := do
  let rows ← attempt (x.pick? indices)
  attempt (Memory.buffer "candidate weight buffer" (Scalar.bytes α) rows.rows)
  let ws := candidateWeights rows.rows weights (← attempt (e.direct.sweep x rows))
  return ⟨rows, ws, ← plusPlus rows (some ws) k⟩

/-- Reduces candidates to `k` centroids: greedy seeding of the weighted candidates, refined. -/
def reduce (e : Kernel) (x : Matrix α) (weights : Option (List α)) (tolerance : ω) (k : Nat)
    (indices : List Nat) : Seeding σ ω (Refined α ω) := do
  let r ← weighCandidates e x weights k indices
  let refiner ← attempt (Refiner.new? e reductionIterations tolerance true)
  let refined ← refine refiner r.rows (some r.weights) r.start
  record [.reduced r.rows.rows k refined.iterations]
  return refined

/-- Oversampled seeding. -/
def oversample (p : Params ω) (e : Kernel) (x : Matrix α) (weights : Option (List α)) :
    Seeding σ ω (Matrix α × SeedStats) := do
  let k := p.clusters
  let c ← candidates e x weights (p.oversampling * (k : ω))
  let stats : SeedStats := ⟨c.sampled, c.skipped, c.indices.length, 0, 0⟩
  if c.indices.length < k then
    record [.padding c.indices.length k]
    let padding := k - c.indices.length
    let more ← pad x.rows padding (.ofList c.indices)
    return (← attempt (x.pick? (c.indices ++ more)), { stats with padded := padding })
  else if c.indices.length = k then
    return (← attempt (x.pick? c.indices), stats)
  else
    let refined ← reduce e x weights p.tolerance k c.indices
    return (refined.centroids, { stats with reductionIterations := refined.iterations })

end Seeding

end Clustering
