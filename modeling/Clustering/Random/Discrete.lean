import Clustering.Scalar

/-!
# Proportional draws

An index drawn in proportion to given masses: the first index whose cumulative share is not below
a number of the unit interval.  The search halves the range of candidates; with shares that are not
numbers its answer depends on the order of its comparisons, which is therefore fixed here.
-/

namespace Clustering.Discrete

variable {ω : Type} [Scalar ω]

/-- Continues a running sum through a list. -/
def runningFrom (sum : ω) : List ω → List ω
  | [] => []
  | p :: ps => (sum + p) :: runningFrom (sum + p) ps

/-- The sums of the initial segments of a list. -/
def runningSums : List ω → List ω
  | [] => []
  | p :: ps => p :: runningFrom p ps

/-- The cumulative shares of the masses.  The last one is one. -/
def shares (masses : List ω) : List ω :=
  let sum := total masses
  (runningSums (masses.map (· / sum))).dropLast ++ [1]

/-- The first of `count` positions from `first` on that holds no value below `u`, if the values are
in order. -/
def lowerBound (cs : List ω) (u : ω) (first count : Nat) : Nat :=
  if count = 0 then first
  else if cs.getD (first + count / 2) 0 < u then
    lowerBound cs u (first + count / 2 + 1) (count - count / 2 - 1)
  else lowerBound cs u first (count / 2)
termination_by count

/-- The index that a number of the unit interval stands for. -/
def index (masses : List ω) (u : ω) : Nat := lowerBound (shares masses) u 0 masses.length

/-- Draws an index in proportion to the masses.  With fewer than two masses there is nothing to
draw. -/
def draw {σ : Type} (coin : σ → ω × σ) (masses : List ω) (s : σ) : Nat × σ :=
  if masses.length < 2 then (0, s)
  else
    let (u, s) := coin s
    (index masses u, s)

end Clustering.Discrete
