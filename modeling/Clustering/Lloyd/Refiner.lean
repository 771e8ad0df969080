import Clustering.Lloyd.Phase
import Clustering.Lloyd.Tally

/-!
# Lloyd's refinement

One iteration assigns every row to its nearest centroid and moves each centroid to the weighted
mean of its rows.  A refiner repeats this until the inertia stops improving, or as often as it may,
and then assigns the rows once more to the centroids it ended with: labels and inertia of the
result belong to the returned centroids.

`Refiner.iterate` makes one iteration, `Refiner.course` a run of them, and `Refiner.trace` adds the
checks, the buffers and the last assignment.  What is recorded of an iteration is put at the end of
a history, for which memory may be lacking too.  `Refiner.run` is what a caller sees: the result,
and the refiner, which remembers the phase that its last run ended in, also when that run failed.
-/

namespace Clustering

/-- What is recorded of one iteration. -/
structure Iteration (ω : Type) where
  /-- Counted from one. -/
  number : Nat
  /-- Measured against the centroids that the iteration started with. -/
  inertia : ω
  /-- The sum of the squared movements of the centroids. -/
  shift : ω
  /-- How many clusters had no weight and kept their centroid. -/
  emptyClusters : Nat
deriving DecidableEq

/-- The size of a record in storage. -/
def Iteration.bytes : Nat := 32

/-- Refined centroids, with the assignment to them and the history of the run. -/
structure Refined (α ω : Type) where
  centroids : Matrix α
  labels : List Nat
  inertia : α
  iterations : Nat
  phase : Phase
  history : List (Iteration ω)
deriving DecidableEq

/-- The outcome of one iteration. -/
structure Stride (α ω : Type) where
  centroids : Matrix α
  inertia : α
  record : Iteration ω

/-- The outcome of a run of iterations. -/
structure Course (α ω : Type) where
  centroids : Matrix α
  iterations : Nat
  phase : Phase
  history : List (Iteration ω)

/-- A run of iterations that failed. -/
structure Halt (ω : Type) where
  failure : Failure
  /-- The phase that it failed in. -/
  phase : Phase
  /-- What was recorded up to then. -/
  history : List (Iteration ω)

/-- The same failure, one iteration later. -/
def Halt.after {ω : Type} (record : Iteration ω) (h : Halt ω) : Halt ω :=
  { h with history := record :: h.history }

/-- What a run leaves, whether it returns or fails. -/
structure Trace (α ω : Type) where
  result : Except Failure (Refined α ω)
  /-- The phase that the run ended in. -/
  phase : Phase
  /-- What was recorded of its iterations. -/
  history : List (Iteration ω)

/-- A kernel with the rule by which a run ends. -/
structure Refiner (ω : Type) where
  kernel : Kernel
  maxIterations : Nat
  /-- The relative improvement of the inertia below which a run has converged. -/
  tolerance : ω
  /-- Whether a run may end before all its iterations are made. -/
  checkInertia : Bool
  /-- The phase that the last run ended in. -/
  phase : Phase

namespace Refiner

section Run

variable {α ω : Type} [Scalar α] [Scalar ω] [Widening α ω]

/-- A refiner that has not run yet. -/
def new? (kernel : Kernel) (maxIterations : Nat) (tolerance : ω) (checkInertia : Bool) :
    Except Failure (Refiner ω) :=
  if maxIterations = 0 then .error .zeroIterations
  else .ok ⟨kernel, maxIterations, tolerance, checkInertia, .initializing⟩

/-- Whether the inertia has stopped improving.  Before the second iteration there is nothing to
compare with. -/
def settled (r : Refiner ω) (previous : Option α) (inertia : α) : Bool :=
  match previous with
  | none => false
  | some p => r.checkInertia && decide (widen (p - inertia) ≤ r.tolerance * widen p)

variable [Memory] [BlockProduct α]

/-- One iteration from the given centroids. -/
def iterate (r : Refiner ω) (x : Matrix α) (weights : Option (List α)) (number : Nat)
    (c : Matrix α) : Except Failure (Stride α ω) := do
  let sweep ← r.kernel.sweep x c
  let inertia := (Assignment.ofSweep weights sweep).inertia
  let tally := Tally.ofSweep c.rows x.cols x.rowList weights sweep
  return {
    centroids := .ofRows c.cols (tally.centroids c.rowList)
    inertia
    record := ⟨number, widen inertia, tally.shift c.rowList, tally.emptyClusters⟩ }

/-- Iterations from number `number` on, `left` of them at most, after one of inertia `previous`.
Each of them is recorded before it is decided whether it is the last one. -/
def course (r : Refiner ω) (x : Matrix α) (weights : Option (List α)) :
    (left : Nat) → (number : Nat) → (previous : Option α) → Matrix α →
      Except (Halt ω) (Course α ω)
  | 0, number, _, c => .ok ⟨c, number - 1, .exhausted, []⟩
  | left + 1, number, previous, c => do
    let s ← (r.iterate x weights number c).mapError (⟨·, .assigning, []⟩)
    (Memory.grow Iteration.bytes (number - 1)).mapError (⟨·, .updating, []⟩)
    if r.settled previous s.inertia then
      return ⟨s.centroids, number, .converged, [s.record]⟩
    else
      let later ← (r.course x weights left (number + 1) (some s.inertia) s.centroids).mapError
        (Halt.after s.record)
      return { later with history := s.record :: later.history }

/-- The width of the start has to be that of the data, and there has to be memory for the labels
and for the tally. -/
def prepare (x start : Matrix α) : Except Failure Unit := do
  if start.cols ≠ x.cols then throw .refinerWidth
  Memory.buffer "label buffer" labelBytes x.rows
  Memory.buffer "centroid accumulator" (Scalar.bytes α) (sizeWord (start.rows * x.cols))
  Memory.buffer "cluster weight accumulator" (Scalar.bytes α) start.rows

/-- The assignment to the centroids that a course ended with. -/
def conclude (r : Refiner ω) (x : Matrix α) (weights : Option (List α)) (c : Course α ω) :
    Except Failure (Refined α ω) := do
  let last := Assignment.ofSweep weights (← r.kernel.sweep x c.centroids)
  return ⟨c.centroids, last.labels, last.inertia, c.iterations, c.phase, c.history⟩

/-- Refines the start on the data. -/
def trace (r : Refiner ω) (x : Matrix α) (weights : Option (List α)) (start : Matrix α) :
    Trace α ω :=
  match prepare x start with
  | .error f => ⟨.error f, .initializing, []⟩
  | .ok () =>
    match r.course x weights r.maxIterations 1 none start with
    | .error h => ⟨.error h.failure, h.phase, h.history⟩
    | .ok c => ⟨r.conclude x weights c, c.phase, c.history⟩

/-- A run that returns leaves the history of its result. -/
theorem history_trace {r : Refiner ω} {x start : Matrix α} {weights : Option (List α)}
    {res : Refined α ω} (h : (r.trace x weights start).result = .ok res) :
    (r.trace x weights start).history = res.history := by
  unfold trace at h ⊢
  cases hprepare : prepare x start with
  | error f => rw [hprepare] at h; cases h
  | ok u =>
    cases hcourse : r.course x weights r.maxIterations 1 none start with
    | error halt => simp [hprepare, hcourse] at h
    | ok c =>
      simp only [hprepare, hcourse, conclude] at h ⊢
      cases hsweep : r.kernel.sweep x c.centroids with
      | error f => rw [hsweep] at h; cases h
      | ok sweep => rw [hsweep] at h; cases h; rfl

/-- Refines the start on the data.  The refiner that is returned is in the phase that the run ended
in. -/
def run (r : Refiner ω) (x : Matrix α) (weights : Option (List α)) (start : Matrix α) :
    Except Failure (Refined α ω) × Refiner ω :=
  let t := r.trace x weights start
  (t.result, { r with phase := t.phase })

end Run

end Refiner

end Clustering
