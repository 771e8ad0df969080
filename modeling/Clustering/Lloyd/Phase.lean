/-!
# Phases of a refinement

Where a refinement stands: it starts by initializing, alternates between assigning and updating,
and ends converged or exhausted.
-/

namespace Clustering

/-- Where a refinement stands. -/
inductive Phase where
  | initializing
  | assigning
  | updating
  /-- The inertia stopped improving. -/
  | converged
  /-- The allowed number of iterations was made. -/
  | exhausted
deriving DecidableEq

namespace Phase

/-- The name that a phase is reported by. -/
def name : Phase → String
  | initializing => "initializing"
  | assigning => "assigning"
  | updating => "updating"
  | converged => "converged"
  | exhausted => "exhausted"

/-- The phase with a given code. -/
def ofCode? : Nat → Option Phase
  | 0 => some initializing
  | 1 => some assigning
  | 2 => some updating
  | 3 => some converged
  | 4 => some exhausted
  | _ => none

/-- The name of the phase with a given code, or a placeholder for a code that has no phase. -/
def nameOfCode (code : Nat) : String := ((ofCode? code).map name).getD "unknown"

end Phase

end Clustering
