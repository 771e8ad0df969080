import Clustering.Notice
import Clustering.Random.Source

/-!
# Seeding sessions

A seeding computation draws from a source, records notices, and may fail.  Source and notices are
threaded through failures: after a failed call the source stands where the call left it, and what
was recorded up to then is kept.
-/

namespace Clustering

/-- Where a state is kept below failures, it passes from step to step up to the first failure. -/
theorem run_bind {τ β γ : Type} (a : ExceptT Failure (StateM τ) β)
    (f : β → ExceptT Failure (StateM τ) γ) (s : τ) :
    (a >>= f).run s =
      match a.run s with
      | (.ok b, t) => (f b).run t
      | (.error e, t) => (.error e, t) := by
  show (a >>= f) s = _
  simp only [bind, ExceptT.bind, ExceptT.mk, StateT.bind, ExceptT.run]
  cases a s with
  | mk r t => cases r <;> rfl

/-- The state of a seeding computation. -/
structure Session (σ ω : Type) where
  source : σ
  /-- In the order that they were recorded in. -/
  notices : List (Notice ω)

/-- Computations that draw, record and may fail. -/
abbrev Seeding (σ ω : Type) := ExceptT Failure (StateM (Session σ ω))

namespace Seeding

variable {σ ω β : Type}

/-- Records notices. -/
def record (ns : List (Notice ω)) : Seeding σ ω Unit :=
  ExceptT.mk fun s => (.ok (), { s with notices := s.notices ++ ns })

/-- A result that does not depend on the session. -/
def attempt (result : Except Failure β) : Seeding σ ω β := ExceptT.mk fun s => (result, s)

/-- Goes on with another source. -/
def restart (source : σ) : Seeding σ ω Unit := ExceptT.mk fun s => (.ok (), { s with source })

section Draws

variable [Source σ ω]

/-- Draws an index from `0` to `top`. -/
def index (top : Nat) : Seeding σ ω Nat :=
  ExceptT.mk fun s =>
    let (i, source) := Source.index top s.source
    (match i with | some i => .ok i | none => .error .stalled, { s with source })

/-- Draws a number of the unit interval. -/
def coin : Seeding σ ω ω :=
  ExceptT.mk fun s =>
    let (u, source) := Source.coin s.source
    (.ok u, { s with source })

/-- Draws an index in proportion to masses. -/
def pick (masses : List ω) : Seeding σ ω Nat :=
  ExceptT.mk fun s =>
    let (i, source) := Source.pick masses s.source
    (.ok i, { s with source })

end Draws

/-! ### Running -/

section Running

variable {γ : Type} (s : Session σ ω)

@[simp] theorem run_pure (b : β) : (pure b : Seeding σ ω β).run s = (.ok b, s) := rfl

@[simp] theorem run_throw (f : Failure) : (throw f : Seeding σ ω β).run s = (.error f, s) := rfl

@[simp] theorem run_record (ns : List (Notice ω)) :
    (record ns : Seeding σ ω Unit).run s = (.ok (), { s with notices := s.notices ++ ns }) := rfl

@[simp] theorem run_attempt (r : Except Failure β) :
    (attempt r : Seeding σ ω β).run s = (r, s) := rfl

@[simp] theorem run_restart (source : σ) :
    (restart source : Seeding σ ω Unit).run s = (.ok (), { s with source }) := rfl

/-- A computation after one that succeeds starts where that one left the session. -/
theorem run_bind_of_ok {m : Seeding σ ω β} {f : β → Seeding σ ω γ} {b : β} {t : Session σ ω}
    (h : m.run s = (.ok b, t)) : (m >>= f).run s = (f b).run t := by
  rw [run_bind, h]

/-- Nothing runs after a computation that fails. -/
theorem run_bind_of_error {m : Seeding σ ω β} {f : β → Seeding σ ω γ} {e : Failure}
    {t : Session σ ω} (h : m.run s = (.error e, t)) : (m >>= f).run s = (.error e, t) := by
  rw [run_bind, h]

end Running

/-- Refines a start, and records a notice of each iteration, those of a refinement that fails
included. -/
def refine {α : Type} [Scalar α] [Scalar ω] [Widening α ω] [Memory] [BlockProduct α]
    (r : Refiner ω) (x : Matrix α) (weights : Option (List α)) (start : Matrix α) :
    Seeding σ ω (Refined α ω) := do
  let trace := r.trace x weights start
  record trace.notices
  attempt trace.result

theorem run_refine {α : Type} [Scalar α] [Scalar ω] [Widening α ω] [Memory] [BlockProduct α]
    (r : Refiner ω) (x : Matrix α) (weights : Option (List α)) (start : Matrix α)
    (s : Session σ ω) :
    (refine r x weights start).run s = ((r.run x weights start).1,
      { s with notices := s.notices ++ (r.trace x weights start).notices }) := rfl

/-- A refinement that returns records the notices of its history, and draws nothing. -/
theorem run_refine_of_ok {α : Type} [Scalar α] [Scalar ω] [Widening α ω] [Memory] [BlockProduct α]
    {r : Refiner ω} {x start : Matrix α} {weights : Option (List α)} {res : Refined α ω}
    (h : (r.run x weights start).1 = .ok res) (s : Session σ ω) :
    (refine r x weights start).run s =
      (.ok res, { s with notices := s.notices ++ res.notices }) := by
  rw [run_refine, h, Refiner.notices_trace h]

end Seeding

end Clustering
