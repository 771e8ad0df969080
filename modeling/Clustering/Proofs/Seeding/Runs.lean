import Clustering.Model.Fit
import Clustering.Proofs.Seeding.Agreement

/-!
# The runs of a fit

A fit keeps one of its runs as it is, so that what every run yields is what the best run yields
(`yields_bestRun_numbered`): its number, and the outcome of a refinement of its start.  The best
runs of two fits are in step if their runs are, one by one (`agree_bestRun`).
-/

namespace Clustering

/-- The fit is what a refiner with the kernel makes of the data from a start of a class. -/
def Fit.RefinedFrom {α ω : Type} [Scalar α] [Scalar ω] [Widening α ω] [Memory] [BlockProduct α]
    (C : Matrix α → Prop) (e : Kernel) (x : Matrix α) (weights : Option (List α)) (f : Fit α ω) :
    Prop :=
  ∃ (r : Refiner ω) (c : Matrix α), r.kernel = e ∧ C c ∧ (r.run x weights c).1 = .ok f.toRefined

/-- The refiner that the parameters ask for. -/
def Params.refiner {ω : Type} (p : Params ω) (e : Kernel) : Refiner ω :=
  ⟨e, p.maxIterations, p.tolerance, p.checkInertia, .initializing⟩

/-- The fit is run `r`: what the refiner of the parameters makes of the data from a start of a
class. -/
def Fit.IsRun {α ω : Type} [Scalar α] [Scalar ω] [Widening α ω] [Memory] [BlockProduct α]
    (C : Matrix α → Prop) (p : Params ω) (e : Kernel) (x : Matrix α) (weights : Option (List α))
    (r : ℕ) (f : Fit α ω) : Prop :=
  f.run = r ∧ ∃ c : Matrix α, C c ∧ ((p.refiner e).run x weights c).1 = .ok f.toRefined

namespace Seeding

/-! ### Failures that are reported -/

section Lack

variable {lack : Prop} {α σ ω β : Type}

/-- A failure that is reported remains a failure. -/
theorem yields_reportLack (x : Matrix α) (clusters : ℕ) (f : Failure) :
    Yields (reportLack x clusters f : Seeding σ ω β) fun _ => False := by
  unfold reportLack
  cases f.kind with
  | resource => exact yields_andThen fun _ => yields_throw _
  | memory => exact yields_andThen fun _ => yields_throw _
  | _ => exact yields_throw _

theorem Yields.reportingLack {a : Seeding σ ω β} {Q : β → Prop} (h : Yields a Q)
    (x : Matrix α) (clusters : ℕ) : Yields (reportingLack x clusters a) Q := by
  intro s v hv
  rw [Seeding.reportingLack, run_tryCatch] at hv
  cases ha : a.run s with
  | mk r t =>
    rw [ha] at hv
    cases r with
    | ok u =>
      cases hv
      exact h s v (congrArg Prod.fst ha)
    | error f => exact (yields_reportLack x clusters f t v hv).elim

theorem agree_reportLack (x : Matrix α) (clusters : ℕ) (f : Failure) :
    Agree lack (reportLack x clusters f : Seeding σ ω β) (reportLack x clusters f) := by
  unfold reportLack
  cases f.kind with
  | resource => exact (agree_record _ _).bind fun _ => agree_throw _
  | memory => exact (agree_record _ _).bind fun _ => agree_throw _
  | _ => exact agree_throw _

theorem Agree.reportingLack {a b : Seeding σ ω β} (hab : Agree lack a b) (x : Matrix α)
    (clusters : ℕ) : Agree lack (reportingLack x clusters a) (reportingLack x clusters b) :=
  hab.tryCatch (agree_reportLack x clusters) (yields_reportLack x clusters)
    (yields_reportLack x clusters)

end Lack

variable {lack : Prop} {α σ ω : Type} [Scalar α] [Scalar ω] [Widening α ω] [Source σ ω] [Memory]
  [BlockProduct α] {p : Params ω} {e e' : Kernel} {x : Matrix α} {weights : Option (List α)}
  {array : Matrix α}

/-! ### What a run yields -/

/-- A run yields its own number, and what the refiner of the parameters makes of its start. -/
theorem yields_fitRun_numbered {C : Matrix α → Prop}
    (h : Yields (start p e x weights array : Seeding σ ω (Matrix α × SeedStats)) fun cs => C cs.1)
    (r : ℕ) :
    Yields (fitRun p e x weights array r : Seeding σ ω (Fit α ω))
      (Fit.IsRun C p e x weights r) := by
  unfold fitRun
  refine yields_andThen fun _ => h.bind fun cs hc => (yields_attempt _).bind fun refiner hnew => ?_
  have hrefiner : refiner = p.refiner e := by
    unfold Refiner.new? at hnew
    split_ifs at hnew
    cases hnew
    rfl
  refine (yields_refine refiner x weights cs.1).bind fun refined hrun =>
    yields_andThen fun _ => yields_pure ⟨rfl, cs.1, hc, ?_⟩
  rw [← hrefiner]
  exact hrun

theorem yields_fitRun {C : Matrix α → Prop}
    (h : Yields (start p e x weights array : Seeding σ ω (Matrix α × SeedStats)) fun cs => C cs.1)
    (r : ℕ) :
    Yields (fitRun p e x weights array r : Seeding σ ω (Fit α ω))
      (Fit.RefinedFrom C e x weights) :=
  (yields_fitRun_numbered h r).mono fun _ hf => ⟨p.refiner e, hf.2.choose, rfl, hf.2.choose_spec⟩

/-- What is kept after `left` more runs is one of the runs so far. -/
theorem yields_keepBest {Q : ℕ → Fit α ω → Prop}
    (h : ∀ r, Yields (fitRun p e x weights array r : Seeding σ ω (Fit α ω)) (Q r)) :
    ∀ (left r : ℕ) {best : Fit α ω}, (∃ i < r, Q i best) →
      Yields (keepBest p e x weights array left r best : Seeding σ ω (Fit α ω)) fun f =>
        ∃ i < r + left, Q i f
  | 0, _, _, hbest => yields_pure hbest
  | left + 1, r, best, ⟨i, hi, hbest⟩ => by
    have hcount : r + (left + 1) = r + 1 + left := by omega
    unfold keepBest
    rw [hcount]
    refine (h r).bind fun f hf => yields_keepBest h left (r + 1) ?_
    split_ifs
    · exact ⟨r, Nat.lt_succ_self r, hf⟩
    · exact ⟨i, Nat.lt_succ_of_lt hi, hbest⟩

/-- The best run is one of the runs. -/
theorem yields_bestRun_numbered {Q : ℕ → Fit α ω → Prop}
    (h : ∀ r, Yields (fitRun p e x weights array r : Seeding σ ω (Fit α ω)) (Q r)) :
    Yields (bestRun p e x weights array : Seeding σ ω (Fit α ω)) fun f =>
      ∃ r < 1 + (p.fitRuns - 1), Q r f := by
  unfold bestRun
  refine (h 0).bind fun first hfirst => ?_
  refine (yields_keepBest h (p.fitRuns - 1) 1 ⟨0, Nat.one_pos, hfirst⟩).bind fun best hbest => ?_
  split_ifs
  · exact yields_andThen fun _ => yields_pure hbest
  · exact yields_pure hbest

theorem yields_bestRun {Q : Fit α ω → Prop}
    (h : ∀ r, Yields (fitRun p e x weights array r : Seeding σ ω (Fit α ω)) Q) :
    Yields (bestRun p e x weights array : Seeding σ ω (Fit α ω)) Q :=
  (yields_bestRun_numbered h).mono fun _ ⟨_, _, hf⟩ => hf

/-! ### Runs in step -/

theorem agree_fitRun (hd : Kernel.Alike α lack e.direct e'.direct)
    (hreduce : ReducesAlike lack σ e e' p x weights)
    (hstart : Yields (start p e x weights array : Seeding σ ω (Matrix α × SeedStats)) fun cs =>
      Kernel.RefineAlike lack ω e e' x weights cs.1) (r : ℕ) :
    Agree lack (fitRun p e x weights array r : Seeding σ ω (Fit α ω))
      (fitRun p e' x weights array r) := by
  unfold fitRun
  refine (agree_restart _).bind fun _ =>
    (agree_start hd hreduce array).bind_of_yields hstart fun cs hc => ?_
  have hrefine := agree_refine (σ := σ) hc p.maxIterations p.tolerance p.checkInertia
  simpa only [bind_assoc] using hrefine.bind fun refined =>
    (agree_record [.runEnded (r + 1) p.fitRuns refined.phase refined.iterations
      (widen refined.inertia)] _).bind fun _ =>
        agree_pure ({ refined with seeding := cs.2, run := r } : Fit α ω)

section Best

variable (h : ∀ r, Agree lack (fitRun p e x weights array r : Seeding σ ω (Fit α ω))
  (fitRun p e' x weights array r))
include h

theorem agree_keepBest : ∀ (left r : ℕ) (best : Fit α ω),
    Agree lack (keepBest p e x weights array left r best : Seeding σ ω (Fit α ω))
      (keepBest p e' x weights array left r best)
  | 0, _, best => agree_pure best
  | left + 1, r, _ => (h r).bind fun _ => agree_keepBest left (r + 1) _

theorem agree_bestRun :
    Agree lack (bestRun p e x weights array : Seeding σ ω (Fit α ω))
      (bestRun p e' x weights array) := by
  unfold bestRun
  refine (h 0).bind fun first => (agree_keepBest h _ 1 first).bind fun best => ?_
  split_ifs
  · exact (agree_record _ _).bind fun _ => agree_pure best
  · exact agree_pure best

end Best

end Seeding

end Clustering
