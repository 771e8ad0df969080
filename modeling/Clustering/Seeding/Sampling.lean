import Clustering.Seeding.Session
import Std.Data.TreeSet.Lemmas

/-!
# Sampling rows

Row indices drawn uniformly without repetition, by Floyd's method, and with repetition where there
are not enough rows; further indices for a set that is too small; and an index drawn in proportion
to masses.
-/

namespace Clustering

/-! ### Floyd's method -/

/-- Picks one index for each top with its draw: the index drawn, or the top if that index is picked
already. -/
def floydFrom (picked : Std.TreeSet Nat) : List (Nat × Nat) → List Nat
  | [] => []
  | (top, drawn) :: later =>
    let i := if drawn ∈ picked then top else drawn
    i :: floydFrom (picked.insert i) later

/-- The largest index that each draw of a sample of `k` out of `n` may give. -/
def floydTops (n k : Nat) : List Nat := List.range' (n - k) k

/-- The sample of `k` out of `n` that a list of draws stands for. -/
def floyd (n k : Nat) (draws : List Nat) : List Nat :=
  floydFrom ∅ ((floydTops n k).zip draws)

namespace Seeding

variable {σ ω : Type} [Source σ ω]

/-- Indices of `k` rows out of `n`: all different if there are so many, and otherwise every row
once and the rest with repetition. -/
def sampleRows (n k : Nat) : Seeding σ ω (List Nat) := do
  if k ≤ n then
    return floyd n k (← (floydTops n k).mapM index)
  else
    let more ← (List.replicate (k - n) (lastIndex n)).mapM index
    record [.duplicatesDrawn k n]
    return List.range n ++ more

/-! ### Further indices -/

/-- An index that is not used yet. -/
def unused (top : Nat) (used : Std.TreeSet Nat) : (tries : Nat) → Seeding σ ω Nat
  | 0 => throw .stalled
  | tries + 1 => do
    let r ← index top
    if r ∈ used then unused top used tries else return r

/-- Draws `count` further row indices out of `n`, unused ones as long as there are any. -/
def pad (n : Nat) : (count : Nat) → (used : Std.TreeSet Nat) → Seeding σ ω (List Nat)
  | 0, _ => return []
  | count + 1, used => do
    if used.size < n then
      let r ← unused (lastIndex n) used Uniform.patience
      return r :: (← pad n count (used.insert r))
    else
      let r ← index (lastIndex n)
      return r :: (← pad n count used)

/-! ### Masses -/

/-- An index in proportion to masses, or any index if they do not sum to a positive number. -/
def proportional {α : Type} [Scalar ω] [Widening α ω] (mass : List α) : Seeding σ ω Nat :=
  let masses := mass.map widen
  if 0 < total masses then pick masses else index (lastIndex mass.length)

end Seeding

end Clustering
