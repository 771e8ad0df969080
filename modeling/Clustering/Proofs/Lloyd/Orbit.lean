import Clustering.Proofs.Sweeps

/-!
# The orbit of a refinement

One iteration, once admitted, is a plain function of the centroids: it assigns the rows
(`Kernel.assignment`), tallies them (`Kernel.tally`) and moves the centroids (`Kernel.update`).
The centroids of a run are the orbit of the start under `update`.  Checks and buffers depend on
shapes alone, and no iteration changes a shape, so that they refuse a run before its first
assignment (`run_refused`) or not at all.  What is left to refuse is room for the history, which
grows with every iteration (`historyRoom`).

`run_admitted`: a run that is admitted follows the orbit up to the first iteration that passes the
stopping test, or for as long as it may (`Ends`), and its result is the point that it has reached,
with the assignment to that point, if there is room for that many records (`Refiner.keeping`).
-/

namespace Clustering

variable {α ω : Type} [Scalar α]

/-! ### Admission -/

theorem Memory.buffer_of_granted [Memory] {width count : ℕ} (h : refuse width count = none)
    (what : String) : buffer what width count = .ok () := by
  rw [buffer, h]

namespace Memory

variable [Memory] {width held : ℕ}

/-- Storage that has `held` elements already takes `count` more, one after the other. -/
def growFrom (width : ℕ) : (held count : ℕ) → Except Failure Unit
  | _, 0 => .ok ()
  | held, count + 1 => do
    grow width held
    growFrom width (held + 1) count

theorem eq_outOfMemory_of_grow {f : Failure} (h : grow width held = .error f) :
    f = .outOfMemory := by
  unfold grow at h
  split_ifs at h
  cases h
  rfl

theorem eq_outOfMemory_of_growFrom {f : Failure} : ∀ {held n : ℕ},
    growFrom width held n = .error f → f = .outOfMemory
  | _, 0, h => nomatch h
  | held, n + 1, h => by
    unfold growFrom at h
    cases hgrow : grow width held with
    | error g =>
      rw [hgrow] at h
      cases h
      exact eq_outOfMemory_of_grow hgrow
    | ok u =>
      rw [hgrow] at h
      exact eq_outOfMemory_of_growFrom (n := n) h

/-- Storage that takes a number of elements takes fewer. -/
theorem growFrom_of_le : ∀ {held m n : ℕ}, m ≤ n → growFrom width held n = .ok () →
    growFrom width held m = .ok ()
  | _, 0, _, _, _ => rfl
  | held, m + 1, n + 1, hle, h => by
    unfold growFrom at h ⊢
    cases hgrow : grow width held with
    | error f => rw [hgrow] at h; cases h
    | ok u =>
      rw [hgrow] at h
      exact growFrom_of_le (m := m) (n := n) (Nat.le_of_succ_le_succ hle) h

theorem growFrom_of_granted (h : ∀ width count, refuse width count = none) (width : ℕ) :
    ∀ held count : ℕ, growFrom width held count = .ok ()
  | _, 0 => rfl
  | held, count + 1 => by
    have hgrow : grow width held = .ok () := by simp [grow, h]
    rw [growFrom, hgrow]
    exact growFrom_of_granted h width (held + 1) count

end Memory

/-- Shapes of one width within the index limit are enough for a sweep, if memory is granted. -/
theorem Kernel.admission_of_granted [Memory] (e : Kernel) {x c : Matrix α} (hcols : x.cols = c.cols)
    (hrows : 0 < c.rows) (hpos : 0 < c.cols) (hrows' : c.rows ≤ indexLimit)
    (hcols' : c.cols ≤ indexLimit) (hmem : ∀ width count, Memory.refuse width count = none) :
    e.admission x c = .ok () := by
  have hbuffers : e.sweepBuffers α x.rows c.rows = .ok () := by
    simp only [sweepBuffers, normBuffers, Memory.buffer_of_granted (hmem _ _)]
    split_ifs <;> rfl
  rw [admission_of_sweepBuffers hbuffers,
    checkShapes_eq_ok "nearest" hrows hrows' hcols hpos hcols']

namespace Refiner

variable [Memory]

/-- The requests for a history of `m` iterations. -/
def historyRoom (m : ℕ) : Except Failure Unit := Memory.growFrom Iteration.bytes 0 m

theorem historyRoom_of_le {m n : ℕ} (h : historyRoom n = .ok ()) (hle : m ≤ n) :
    historyRoom m = .ok () := Memory.growFrom_of_le hle h

theorem historyRoom_of_granted (hmem : ∀ width count, Memory.refuse width count = none) (m : ℕ) :
    historyRoom m = .ok () := Memory.growFrom_of_granted hmem _ 0 m

/-- The checks and requests that a run has to pass before its first assignment. -/
def admission (r : Refiner ω) (x start : Matrix α) : Except Failure Unit := do
  prepare x start
  r.kernel.admission x start

/-- Only shapes count. -/
theorem admission_congr (r : Refiner ω) (x : Matrix α) {c d : Matrix α} (hr : c.rows = d.rows)
    (hc : c.cols = d.cols) : r.admission x c = r.admission x d := by
  unfold admission prepare
  rw [r.kernel.admission_congr x hr hc, hr, hc]

/-- Shapes of one width within the index limit are enough, if memory is granted. -/
theorem admission_of_granted (r : Refiner ω) {x start : Matrix α} (hcols : start.cols = x.cols)
    (hrows : 0 < start.rows) (hpos : 0 < start.cols) (hrows' : start.rows ≤ indexLimit)
    (hcols' : start.cols ≤ indexLimit) (hmem : ∀ width count, Memory.refuse width count = none) :
    r.admission x start = .ok () := by
  have hprepare : prepare x start = .ok () := by
    simp only [prepare, Memory.buffer_of_granted (hmem _ _), if_neg (not_not.mpr hcols)]
    rfl
  rw [admission, hprepare]
  exact r.kernel.admission_of_granted hcols.symm hrows hpos hrows' hcols' hmem

theorem shapes_of_admission {r : Refiner ω} {x start : Matrix α}
    (h : r.admission x start = .ok ()) :
    start.cols = x.cols ∧ 0 < start.rows ∧ r.kernel.admission x start = .ok () := by
  unfold admission at h
  cases hprep : prepare x start with
  | error f => rw [hprep] at h; cases h
  | ok u =>
    rw [hprep] at h
    replace h : r.kernel.admission x start = .ok () := h
    refine ⟨?_, Kernel.rows_pos_of_admission h, h⟩
    by_contra hcols
    rw [prepare, if_pos hcols] at hprep
    cases hprep

end Refiner

variable [BlockProduct α]

/-! ### One iteration -/

namespace Kernel

/-- The rows assigned to the nearest of the given centroids. -/
def assignment (e : Kernel) (x : Matrix α) (weights : Option (List α)) (c : Matrix α) :
    Assignment α :=
  .ofSweep weights (e.delivered x c)

/-- What the pass of an iteration collects for the clusters. -/
def tally (e : Kernel) (x : Matrix α) (weights : Option (List α)) (c : Matrix α) : Tally α :=
  .ofSweep c.rows x.cols x.rowList weights (e.delivered x c)

/-- The centroids after an iteration. -/
def update (e : Kernel) (x : Matrix α) (weights : Option (List α)) (c : Matrix α) : Matrix α :=
  .ofRows c.cols ((e.tally x weights c).centroids c.rowList)

/-- The centroids after a number of iterations. -/
def orbit (e : Kernel) (x : Matrix α) (weights : Option (List α)) (start : Matrix α) :
    ℕ → Matrix α
  | 0 => start
  | t + 1 => e.update x weights (e.orbit x weights start t)

/-- What is recorded of an iteration. -/
def entry [Scalar ω] [Widening α ω] (e : Kernel) (x : Matrix α) (weights : Option (List α))
    (number : ℕ) (c : Matrix α) : Iteration ω :=
  ⟨number, widen (e.assignment x weights c).inertia, (e.tally x weights c).shift c.rowList,
    (e.tally x weights c).emptyClusters⟩

theorem length_tally (e : Kernel) (x : Matrix α) (weights : Option (List α)) (c : Matrix α) :
    (e.tally x weights c).weights.length = c.rows ∧ (e.tally x weights c).sums.length = c.rows := by
  have key : ∀ (ps : List (List α × α × Nearest α)) (t : Tally α),
      t.weights.length = c.rows ∧ t.sums.length = c.rows →
        (ps.foldl (fun t p => t.addRow p.2.2.label p.2.1 p.1) t).weights.length = c.rows ∧
          (ps.foldl (fun t p => t.addRow p.2.2.label p.2.1 p.1) t).sums.length = c.rows := by
    intro ps
    induction ps with
    | nil => exact fun t h => h
    | cons p ps ih => exact fun t h => ih _ (by simpa [Tally.addRow] using h)
  rw [tally, tally_delivered]
  exact key _ _ (by simp [Tally.zero])

@[simp] theorem rows_update (e : Kernel) (x : Matrix α) (weights : Option (List α))
    (c : Matrix α) : (e.update x weights c).rows = c.rows := by
  obtain ⟨hw, hs⟩ := e.length_tally x weights c
  show (List.zipWith Tally.moved c.rowList (List.zip _ _)).length = c.rows
  rw [List.length_zipWith, List.length_zip, hw, hs, Matrix.length_rowList, Nat.min_self,
    Nat.min_self]

@[simp] theorem cols_update (e : Kernel) (x : Matrix α) (weights : Option (List α))
    (c : Matrix α) : (e.update x weights c).cols = c.cols := rfl

section Orbit

variable (e : Kernel) (x : Matrix α) (weights : Option (List α)) (start : Matrix α)

theorem orbit_update (t : ℕ) :
    e.orbit x weights (e.update x weights start) t = e.orbit x weights start (t + 1) := by
  induction t with
  | zero => rfl
  | succ t ih => rw [orbit, ih]; rfl

@[simp] theorem rows_orbit (t : ℕ) : (e.orbit x weights start t).rows = start.rows := by
  induction t with
  | zero => rfl
  | succ t ih => rw [orbit, rows_update, ih]

@[simp] theorem cols_orbit (t : ℕ) : (e.orbit x weights start t).cols = start.cols := by
  induction t with
  | zero => rfl
  | succ t ih => rw [orbit, cols_update, ih]

/-- A point that an iteration does not move is the rest of the orbit. -/
theorem orbit_of_fixed {s : ℕ}
    (h : e.update x weights (e.orbit x weights start s) = e.orbit x weights start s) :
    ∀ t, s ≤ t → e.orbit x weights start t = e.orbit x weights start s := by
  intro t ht
  induction t, ht using Nat.le_induction with
  | base => rfl
  | succ t _ ih => rw [orbit, ih, h]

theorem admission_orbit [Memory] (t : ℕ) :
    e.admission x (e.orbit x weights start t) = e.admission x start :=
  e.admission_congr x (by simp) (by simp)

end Orbit

end Kernel

/-! ### A loop with a budget -/

/-- A loop that ends after the first pass that passes the test `stop`, and after `limit` passes at
the latest: it makes a number of passes and ends in a phase.  Passes are counted from zero. -/
inductive Ends (stop : ℕ → Prop) (limit : ℕ) : ℕ → Phase → Prop
  | converged {t : ℕ} (lt : t < limit) (stops : stop t) (first : ∀ s < t, ¬ stop s) :
      Ends stop limit (t + 1) .converged
  | exhausted (never : ∀ s < limit, ¬ stop s) : Ends stop limit limit .exhausted

theorem Ends.succ {stop : ℕ → Prop} {limit m : ℕ} {phase : Phase} (h0 : ¬ stop 0)
    (h : Ends (fun t => stop (t + 1)) limit m phase) : Ends stop (limit + 1) (m + 1) phase := by
  cases h with
  | converged lt stops first =>
    refine .converged (by omega) stops fun s hs => ?_
    cases s with
    | zero => exact h0
    | succ s => exact first s (by omega)
  | exhausted never =>
    refine .exhausted fun s hs => ?_
    cases s with
    | zero => exact h0
    | succ s => exact never s (by omega)

/-- The first pass that passes the test is the last one. -/
theorem Ends.eq_of_first {stop : ℕ → Prop} {limit m t : ℕ} {phase : Phase}
    (h : Ends stop limit m phase) (ht : t < limit) (hstop : stop t) (hfirst : ∀ s < t, ¬ stop s) :
    m = t + 1 ∧ phase = .converged := by
  cases h with
  | @converged s lt stops first =>
    rcases Nat.lt_trichotomy s t with hst | rfl | hts
    · exact absurd stops (hfirst s hst)
    · exact ⟨rfl, rfl⟩
    · exact absurd hstop (first t hts)
  | exhausted never => exact absurd hstop (never t ht)

/-- A loop with a budget ends in one way. -/
theorem Ends.unique {stop : ℕ → Prop} {limit m m' : ℕ} {phase phase' : Phase}
    (h : Ends stop limit m phase) (h' : Ends stop limit m' phase') : m = m' ∧ phase = phase' := by
  cases h with
  | converged lt stops first =>
    obtain ⟨rfl, rfl⟩ := h'.eq_of_first lt stops first
    exact ⟨rfl, rfl⟩
  | exhausted never =>
    cases h' with
    | converged lt stops first => exact absurd stops (never _ lt)
    | exhausted never' => exact ⟨rfl, rfl⟩

/-! ### Runs -/

namespace Refiner

section Course

variable [Scalar ω] [Widening α ω] (r : Refiner ω) (x : Matrix α) (weights : Option (List α))

/-- The inertia that iteration `t` compares with; `previous` for the first one. -/
def compared (previous : Option α) (c : Matrix α) : ℕ → Option α
  | 0 => previous
  | t + 1 => some (r.kernel.assignment x weights (r.kernel.orbit x weights c t)).inertia

/-- Whether iteration `t`, counted from zero, passes the stopping test. -/
def Settles (previous : Option α) (c : Matrix α) (t : ℕ) : Prop :=
  r.settled (r.compared x weights previous c t)
    (r.kernel.assignment x weights (r.kernel.orbit x weights c t)).inertia = true

theorem not_settles_none_zero (c : Matrix α) : ¬ r.Settles x weights none c 0 := by
  simp [Settles, compared, settled]

/-- Without the test no iteration stops the run. -/
theorem not_settles_of_unchecked (c : Matrix α) (h : r.checkInertia = false) (previous : Option α)
    (t : ℕ) : ¬ r.Settles x weights previous c t := by
  unfold Settles settled
  rw [h]
  split <;> exact Bool.false_ne_true

/-- The history of the first `m` iterations, the first of which has the given number. -/
def historyFrom (number : ℕ) (c : Matrix α) (m : ℕ) : List (Iteration ω) :=
  (List.range m).map fun t =>
    r.kernel.entry x weights (number + t) (r.kernel.orbit x weights c t)

theorem historyFrom_succ (number : ℕ) (c : Matrix α) (m : ℕ) :
    r.historyFrom x weights number c (m + 1) =
      r.kernel.entry x weights number c ::
        r.historyFrom x weights (number + 1) (r.kernel.update x weights c) m := by
  simp only [historyFrom, List.range_succ_eq_map, List.map_cons, List.map_map, Kernel.orbit_update]
  refine congrArg₂ _ rfl (List.map_congr_left fun t _ => ?_)
  show r.kernel.entry x weights (number + (t + 1)) _ = _
  rw [Nat.add_assoc, Nat.add_comm 1 t]

theorem getElem?_historyFrom (number : ℕ) (c : Matrix α) {t m : ℕ} (ht : t < m) :
    (r.historyFrom x weights number c m)[t]? =
      some (r.kernel.entry x weights (number + t) (r.kernel.orbit x weights c t)) := by
  rw [historyFrom, List.getElem?_map, List.getElem?_range ht, Option.map_some]

@[simp] theorem length_historyFrom (number : ℕ) (c : Matrix α) (m : ℕ) :
    (r.historyFrom x weights number c m).length = m := by
  simp [historyFrom]

/-- The result after `m` iterations. -/
def outcome (start : Matrix α) (m : ℕ) (phase : Phase) : Refined α ω :=
  let c := r.kernel.orbit x weights start m
  ⟨c, (r.kernel.assignment x weights c).labels, (r.kernel.assignment x weights c).inertia, m,
    phase, r.historyFrom x weights 1 start m⟩

theorem history_outcome (start : Matrix α) {m t : ℕ} {phase : Phase} {a : Iteration ω}
    (h : (r.outcome x weights start m phase).history[t]? = some a) :
    t < m ∧ a = r.kernel.entry x weights (t + 1) (r.kernel.orbit x weights start t) := by
  have ht : t < m := by
    have hlt := (List.getElem?_eq_some_iff.mp h).1
    rwa [outcome, length_historyFrom] at hlt
  have hget := r.getElem?_historyFrom x weights 1 start ht
  rw [Nat.add_comm 1 t] at hget
  exact ⟨ht, Option.some.inj (h.symm.trans hget)⟩

variable [Memory]

theorem iterate_eq (number : ℕ) (c : Matrix α) :
    r.iterate x weights number c = (r.kernel.admission x c).map fun _ =>
      (⟨r.kernel.update x weights c, (r.kernel.assignment x weights c).inertia,
        r.kernel.entry x weights number c⟩ : Stride α ω) := by
  unfold iterate
  rw [Kernel.sweep_eq]
  cases r.kernel.admission x c with
  | error f => rfl
  | ok u => rfl

variable {r x weights} in
/-- An iteration that returns was admitted. -/
theorem eq_of_iterate {number : ℕ} {c : Matrix α} {s : Stride α ω}
    (h : r.iterate x weights number c = .ok s) :
    r.kernel.admission x c = .ok () ∧
      s = ⟨r.kernel.update x weights c, (r.kernel.assignment x weights c).inertia,
        r.kernel.entry x weights number c⟩ := by
  rw [iterate_eq] at h
  cases hadm : r.kernel.admission x c with
  | error f => rw [hadm] at h; cases h
  | ok u => rw [hadm] at h; cases h; exact ⟨rfl, rfl⟩

variable {r x} in
/-- An iteration returns if its sweep does. -/
theorem exists_of_sweep {c : Matrix α} {sweep : List (NearestBatch α)}
    (h : r.kernel.sweep x c = .ok sweep) (number : ℕ) :
    ∃ s : Stride α ω, r.iterate x weights number c = .ok s := by
  rw [iterate_eq, (Kernel.eq_delivered_of_sweep h).1]
  exact ⟨_, rfl⟩

/-- Iterations follow the orbit until one passes the test, or until none is left, if there is room
for what is recorded of them besides the `held` records that there are already. -/
theorem course_eq : ∀ (left held : ℕ) (previous : Option α) (c : Matrix α),
    r.kernel.admission x c = .ok () →
      ∃ m phase, Ends (r.Settles x weights previous c) left m phase ∧
        (Memory.growFrom Iteration.bytes held m = .ok () →
          r.course x weights left (held + 1) previous c =
            .ok ⟨r.kernel.orbit x weights c m, held + m, phase,
              r.historyFrom x weights (held + 1) c m⟩) ∧
        ∀ f, Memory.growFrom Iteration.bytes held m = .error f →
          ∃ done, r.course x weights left (held + 1) previous c = .error ⟨f, .updating, done⟩
  | 0, _, _, _, _ => ⟨0, .exhausted, .exhausted nofun, fun _ => rfl, nofun⟩
  | left + 1, held, previous, c, hadm => by
    unfold course
    rw [iterate_eq, hadm]
    simp only [Except.map, Except.mapError, bind, Except.bind, pure, Except.pure,
      Nat.add_sub_cancel]
    by_cases hstop : r.settled previous (r.kernel.assignment x weights c).inertia = true
    · refine ⟨1, .converged, .converged (Nat.succ_pos _) hstop nofun, ?_⟩
      rw [if_pos hstop, Memory.growFrom]
      cases Memory.grow Iteration.bytes held with
      | error g => exact ⟨nofun, fun f h => by cases h; exact ⟨_, rfl⟩⟩
      | ok u => exact ⟨fun _ => rfl, nofun⟩
    · have hadm' : r.kernel.admission x (r.kernel.update x weights c) = .ok () := by
        rw [← hadm]
        exact r.kernel.admission_congr x (by simp) (by simp)
      obtain ⟨m, phase, hends, hroom, hrefused⟩ := course_eq left (held + 1)
        (some (r.kernel.assignment x weights c).inertia) (r.kernel.update x weights c) hadm'
      refine ⟨m + 1, phase, Ends.succ hstop ?_, ?_⟩
      · -- the orbit of the moved centroids is the orbit from the second point on
        convert hends using 2 with t
        cases t with
        | zero => rfl
        | succ t => simp only [Settles, compared, Kernel.orbit_update]
      · rw [if_neg hstop, Memory.growFrom]
        cases Memory.grow Iteration.bytes held with
        | error g => exact ⟨nofun, fun f h => by cases h; exact ⟨_, rfl⟩⟩
        | ok u =>
          refine ⟨fun h => ?_, fun f h => ?_⟩
          · simp only [hroom h, Kernel.orbit_update, historyFrom_succ]
            rw [Nat.add_right_comm, Nat.add_assoc]
          · obtain ⟨done, hcourse⟩ := hrefused f h
            simp only [hcourse]
            exact ⟨_, rfl⟩

/-- The failure of a course, without the phase and the history that it leaves. -/
theorem failure_course_succ (left number : ℕ) (previous : Option α) (c : Matrix α) :
    (r.course x weights (left + 1) number previous c).mapError Halt.failure = (do
      let s ← r.iterate x weights number c
      Memory.grow Iteration.bytes (number - 1)
      if r.settled previous s.inertia then
        return ⟨s.centroids, number, .converged, [s.record]⟩
      else
        let later ← (r.course x weights left (number + 1) (some s.inertia) s.centroids).mapError
          Halt.failure
        return { later with history := s.record :: later.history }) := by
  rw [course]
  cases r.iterate x weights number c with
  | error f => rfl
  | ok s =>
    cases Memory.grow Iteration.bytes (number - 1) with
    | error f => rfl
    | ok u =>
      simp only [Except.mapError, bind, Except.bind]
      split_ifs
      · rfl
      · cases r.course x weights left (number + 1) (some s.inertia) s.centroids <;> rfl

end Course

section Run

variable [Memory] [Scalar ω] [Widening α ω] (r : Refiner ω)
  (x : Matrix α) (weights : Option (List α)) (start : Matrix α)

/-- The iterations of a run make the steps of the orbit. -/
theorem iterate_orbit (h : r.admission x start = .ok ()) (number t : ℕ) :
    r.iterate x weights number (r.kernel.orbit x weights start t) =
      .ok ⟨r.kernel.orbit x weights start (t + 1),
        (r.kernel.assignment x weights (r.kernel.orbit x weights start t)).inertia,
        r.kernel.entry x weights number (r.kernel.orbit x weights start t)⟩ := by
  rw [iterate_eq, Kernel.admission_orbit, (shapes_of_admission h).2.2]
  rfl

/-- A run with the outcome `res`, unless there is no room for its history. -/
def keeping (r : Refiner ω) (res : Refined α ω) : Except Failure (Refined α ω) × Refiner ω :=
  match historyRoom res.iterations with
  | .ok () => (.ok res, { r with phase := res.phase })
  | .error f => (.error f, { r with phase := .updating })

omit [Scalar α] [BlockProduct α] [Scalar ω] [Widening α ω] in
theorem keeping_of_room {res : Refined α ω} (h : historyRoom res.iterations = .ok ()) :
    r.keeping res = (.ok res, { r with phase := res.phase }) := by
  rw [keeping, h]

omit [Scalar α] [BlockProduct α] [Scalar ω] [Widening α ω] in
theorem keeping_of_refused {res : Refined α ω} {f : Failure}
    (h : historyRoom res.iterations = .error f) :
    r.keeping res = (.error f, { r with phase := .updating }) := by
  rw [keeping, h]

/-- Checks, course and last assignment, one after the other. -/
theorem result_run : (r.run x weights start).1 = (do
    prepare x start
    r.conclude x weights (← (r.course x weights r.maxIterations 1 none start).mapError
      Halt.failure)) := by
  unfold run trace
  cases prepare x start with
  | error f => rfl
  | ok u => cases r.course x weights r.maxIterations 1 none start <;> rfl

theorem run_admitted (h : r.admission x start = .ok ()) :
    ∃ m phase, Ends (r.Settles x weights none start) r.maxIterations m phase ∧
      r.run x weights start = r.keeping (r.outcome x weights start m phase) := by
  unfold admission at h
  unfold run trace
  cases hprep : prepare x start with
  | error f => rw [hprep] at h; cases h
  | ok u =>
    rw [hprep] at h
    replace h : r.kernel.admission x start = .ok () := h
    obtain ⟨m, phase, hends, hroom, hrefused⟩ :=
      r.course_eq x weights r.maxIterations 0 none start h
    refine ⟨m, phase, hends, ?_⟩
    cases hhist : historyRoom m with
    | error f =>
      obtain ⟨done, hcourse⟩ := hrefused f hhist
      rw [keeping_of_refused r hhist]
      simp only [hcourse]
    | ok u =>
      -- the last assignment asks for what the iterations were granted
      have hlast : r.conclude x weights (⟨r.kernel.orbit x weights start m, 0 + m, phase,
          r.historyFrom x weights 1 start m⟩ : Course α ω) =
            .ok (r.outcome x weights start m phase) := by
        rw [conclude, Kernel.sweep_eq, Kernel.admission_orbit, h, Nat.zero_add]
        rfl
      rw [keeping_of_room r hhist]
      simp only [hroom hhist, hlast]
      rfl

variable {x start} in
/-- There is a result if memory is granted to centroids of the width of the data. -/
theorem run_of_granted (hcols : start.cols = x.cols) (hrows : 0 < start.rows)
    (hpos : 0 < start.cols) (hrows' : start.rows ≤ indexLimit) (hcols' : start.cols ≤ indexLimit)
    (hmem : ∀ width count, Memory.refuse width count = none) :
    ∃ res, (r.run x weights start).1 = .ok res := by
  have hadm := r.admission_of_granted hcols hrows hpos hrows' hcols' hmem
  obtain ⟨m, phase, -, hrun⟩ := r.run_admitted x weights start hadm
  rw [keeping_of_room r (historyRoom_of_granted hmem _)] at hrun
  exact ⟨_, congrArg Prod.fst hrun⟩

theorem run_refused {f : Failure} (h : r.admission x start = .error f) :
    (r.run x weights start).1 = .error f := by
  unfold admission at h
  rw [result_run]
  cases hprep : prepare x start with
  | error g =>
    rw [hprep] at h
    cases h
    rfl
  | ok u =>
    rw [hprep] at h
    replace h : r.kernel.admission x start = .error f := h
    cases hm : r.maxIterations with
    | zero =>
      -- with no iteration to make, the closing sweep is the one that is refused
      show r.conclude x weights ⟨start, 0, .exhausted, []⟩ = _
      rw [conclude, Kernel.sweep_eq, h]
      rfl
    | succ left =>
      show (r.course x weights (left + 1) 1 none start).mapError _ >>= _ = _
      rw [failure_course_succ, iterate_eq, h]
      rfl

/-- A run that returns was admitted, and its result is a point of the orbit. -/
theorem eq_outcome_of_run {res : Refined α ω} (h : (r.run x weights start).1 = .ok res) :
    r.admission x start = .ok () ∧ ∃ m phase,
      Ends (r.Settles x weights none start) r.maxIterations m phase ∧
        res = r.outcome x weights start m phase := by
  cases hadm : r.admission x start with
  | error f =>
    rw [r.run_refused x weights start hadm] at h
    cases h
  | ok u =>
    obtain ⟨m, phase, hends, hrun⟩ := r.run_admitted x weights start hadm
    refine ⟨rfl, m, phase, hends, ?_⟩
    cases hhist : historyRoom m with
    | error f =>
      rw [hrun, keeping_of_refused r hhist] at h
      cases h
    | ok u =>
      rw [hrun, keeping_of_room r hhist] at h
      cases h
      rfl

/-- A run that returns had room for its history. -/
theorem historyRoom_of_run {res : Refined α ω} (h : (r.run x weights start).1 = .ok res) :
    historyRoom res.iterations = .ok () := by
  obtain ⟨hadm, -⟩ := r.eq_outcome_of_run x weights start h
  obtain ⟨m, phase, -, hrun⟩ := r.run_admitted x weights start hadm
  cases hhist : historyRoom m with
  | error f =>
    rw [hrun, keeping_of_refused r hhist] at h
    cases h
  | ok u =>
    rw [hrun, keeping_of_room r hhist] at h
    cases h
    exact hhist

end Run

end Refiner

end Clustering
