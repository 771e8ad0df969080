import Clustering.Proofs.Fits
import Clustering.Proofs.MachineOrder

/-!
# The best of several runs

The runs of a fit share nothing.  Each one restarts the source from a seed of its own, so that what
it returns does not depend on the session that the runs before it leave, and is what the only run
of a fit from that seed returns (`Seeding.result_fitRun`).  Of these the fit keeps the first with
the least inertia (`Seeding.returns_bestRun`), and returns all of it: a fit of several runs is the
fit of its best run, with the number of the run (`Model.fit_best_run`).
-/

namespace Clustering

namespace Seeding

variable {σ ω β γ : Type}

/-! ### Computations that return -/

theorem exists_run_eq {a : Seeding σ ω β} {r : Except Failure β} {s : Session σ ω}
    (h : (a.run s).1 = r) : ∃ t, a.run s = (r, t) :=
  ⟨_, Prod.ext h rfl⟩

/-- From every session the computation returns this value. -/
def Returns (a : Seeding σ ω β) (v : β) : Prop := ∀ s : Session σ ω, (a.run s).1 = .ok v

theorem returns_pure (v : β) : Returns (pure v : Seeding σ ω β) v := fun _ => rfl

theorem returns_record (ns : List (Notice ω)) : Returns (record ns : Seeding σ ω Unit) () :=
  fun _ => rfl

theorem returns_attempt {r : Except Failure β} {v : β} (h : r = .ok v) :
    Returns (attempt r : Seeding σ ω β) v :=
  fun _ => h

theorem Returns.bind {a : Seeding σ ω β} {f : β → Seeding σ ω γ} {v : β} {w : γ}
    (ha : Returns a v) (hf : Returns (f v) w) : Returns (a >>= f) w := by
  intro s
  obtain ⟨t, hrun⟩ := exists_run_eq (ha s)
  rw [run_bind_of_ok s hrun]
  exact hf t

theorem Returns.reportingLack {α : Type} {a : Seeding σ ω β} {v : β} (h : Returns a v)
    (x : Matrix α) (clusters : ℕ) : Returns (reportingLack x clusters a) v := by
  intro s
  obtain ⟨t, hrun⟩ := exists_run_eq (h s)
  rw [Seeding.reportingLack, run_tryCatch, hrun]

/-- After a restart the result does not depend on the session before it. -/
theorem result_restart {a b : Seeding σ ω β} (h : Agree False a b) (source : σ)
    (s t : Session σ ω) :
    ((restart source >>= fun _ => a).run s).1 = ((restart source >>= fun _ => b).run t).1 := by
  rw [run_bind_of_ok s (run_restart s source), run_bind_of_ok t (run_restart t source)]
  exact ((h { s with source } { t with source } rfl).resolve_right fun hlack => hlack.1).1

theorem result_map (a : Seeding σ ω β) (g : β → γ) (s : Session σ ω) :
    ((do return g (← a) : Seeding σ ω γ).run s).1 = ((a.run s).1).map g := by
  rw [run_bind]
  cases a.run s with
  | mk r t => cases r <;> rfl

end Seeding

/-- The parameters of run `r` alone: a single run, from the seed of that run. -/
def Params.single {ω : Type} (p : Params ω) (r : ℕ) : Params ω :=
  { p with runs := 1, seed := p.seed + r.toUInt64 }

/-! ### Runs -/

namespace Seeding

variable {α σ ω : Type} [Scalar α] [Scalar ω] [Widening α ω] [Source σ ω] [Memory]
  [BlockProduct α] (p : Params ω) (e : Kernel) (x : Matrix α) (weights : Option (List α))
  (array : Matrix α)

/-- A run returns what it returns alone, whatever the runs before it did, but for its number. -/
theorem result_fitRun (r : ℕ) (s t : Session σ ω) :
    ((fitRun p e x weights array r).run s).1 =
      ((fitRun (p.single r) e x weights array 0).run t).1.map fun f => { f with run := r } := by
  have hself : ∀ (y : Matrix α) (ws : Option (List α)) (c : Matrix α),
      Kernel.RefineAlike False ω e e y ws c := fun _ _ _ _ _ _ => .of_eq rfl
  have hstart : Agree False (start p e x weights array : Seeding σ ω (Matrix α × SeedStats))
      (start (p.single r) e x weights array) :=
    agree_start ⟨fun _ _ => .of_eq rfl, fun _ _ => rfl⟩
      (.of_forall fun _ => .of_forall fun _ => hself _ _ _) array
  have hseed : (p.single r).seed + (0 : ℕ).toUInt64 = p.seed + r.toUInt64 := UInt64.add_zero _
  rw [← result_map]
  unfold fitRun
  rw [hseed, bind_assoc]
  refine result_restart ?_ _ s t
  rw [bind_assoc]
  refine hstart.bind fun cs => ?_
  have hrefine := agree_refine (σ := σ) (hself x weights cs.1) p.maxIterations p.tolerance
    p.checkInertia
  have hrest := hrefine.bind fun refined =>
    (agree_record [.runEnded (r + 1) p.fitRuns refined.phase refined.iterations
      (widen refined.inertia)]
      [.runEnded (0 + 1) (p.single r).fitRuns refined.phase refined.iterations
        (widen refined.inertia)]).bind fun _ =>
          agree_pure ({ refined with seeding := cs.2, run := r } : Fit α ω)
  simp only [bind_assoc] at hrest
  simp only [bind_assoc, pure_bind]
  exact hrest

/-- The inertias of the first `n` of some fits. -/
def inertias (F : ℕ → Fit α ω) (n : ℕ) : List α := (List.range n).map fun r => (F r).inertia

omit [Scalar α] [Scalar ω] [Widening α ω] [Memory] [BlockProduct α] in
theorem inertias_succ (F : ℕ → Fit α ω) (n : ℕ) :
    inertias F (n + 1) = inertias F n ++ [(F n).inertia] := by
  simp [inertias, List.range_succ]

/-- A fit of one run is that run. -/
theorem bestRun_single (r : ℕ) :
    (bestRun (p.single r) e x weights array : Seeding σ ω (Fit α ω)) =
      fitRun (p.single r) e x weights array 0 := by
  have hone : (p.single r).fitRuns = 1 := ite_self _
  unfold bestRun
  rw [hone]
  exact bind_pure _

section Best

variable {p e x weights array} [Scalar.Ordered α] {F : ℕ → Fit α ω}

/-- If the best of the first `r` runs is kept, then after `left` more it is the best of all. -/
theorem returns_keepBest : ∀ (left r : ℕ) {b : ℕ},
    (∀ i < r + left, Returns (fitRun p e x weights array i : Seeding σ ω (Fit α ω)) (F i)) →
    (∀ i < r + left, Scalar.IsNumber (F i).inertia) →
    FirstLeast (inertias F r) b (F b).inertia →
    ∃ b', FirstLeast (inertias F (r + left)) b' (F b').inertia ∧
      Returns (keepBest p e x weights array left r (F b) : Seeding σ ω (Fit α ω)) (F b')
  | 0, _, b, _, _, hbest => ⟨b, hbest, returns_pure _⟩
  | left + 1, r, b, hruns, hnum, hbest => by
    have hnext : ∃ b', FirstLeast (inertias F (r + 1)) b' (F b').inertia ∧
        (if (F r).inertia < (F b).inertia then F r else F b) = F b' := by
      rw [inertias_succ]
      split_ifs with hless
      · refine ⟨r, ?_, rfl⟩
        have hall : ∀ v ∈ inertias F r, Scalar.IsNumber v := by
          intro v hv
          obtain ⟨i, hi, rfl⟩ := List.mem_map.mp hv
          exact hnum i (Nat.lt_add_right _ (List.mem_range.mp hi))
        simpa [inertias] using hbest.concat_of_lt hall hless
      · exact ⟨b, hbest.concat_of_not_lt hless, rfl⟩
    obtain ⟨b', hbest', hkept⟩ := hnext
    have hcount : r + (left + 1) = r + 1 + left := by omega
    rw [hcount] at hruns hnum ⊢
    obtain ⟨b'', hbest'', hkeep⟩ := returns_keepBest left (r + 1) hruns hnum hbest'
    refine ⟨b'', hbest'', (hruns r (by omega)).bind ?_⟩
    rw [hkept]
    exact hkeep

/-- The best of all runs is kept. -/
theorem returns_bestRun (hpos : 0 < p.fitRuns)
    (hruns : ∀ r < p.fitRuns,
      Returns (fitRun p e x weights array r : Seeding σ ω (Fit α ω)) (F r))
    (hnum : ∀ r < p.fitRuns, Scalar.IsNumber (F r).inertia) :
    ∃ b, FirstLeast (inertias F p.fitRuns) b (F b).inertia ∧
      Returns (bestRun p e x weights array : Seeding σ ω (Fit α ω)) (F b) := by
  have hfirst : FirstLeast (inertias F 1) 0 (F 0).inertia := by
    refine ⟨rfl, fun {i v} hv => ?_, fun _ hi => absurd hi (Nat.not_lt_zero _)⟩
    obtain rfl : v = (F 0).inertia := by simpa [inertias] using List.mem_of_getElem? hv
    exact Scalar.not_lt_self _
  have hcount : 1 + (p.fitRuns - 1) = p.fitRuns := by omega
  obtain ⟨b, hbest, hkeep⟩ := returns_keepBest (p.fitRuns - 1) 1 (by rwa [hcount])
    (by rwa [hcount]) hfirst
  rw [hcount] at hbest
  refine ⟨b, hbest, (hruns 0 hpos).bind (hkeep.bind ?_)⟩
  split_ifs
  · exact (returns_record _).bind (returns_pure _)
  · exact returns_pure _

end Best

end Seeding

/-! ### Fits -/

namespace Model

variable {E : Precision → Type} {ω σ : Type}

/-- A new model for run `r` alone. -/
def single (m : Model E ω) (r : ℕ) : Model E ω := ⟨m.params.single r, m.start, none⟩

variable [∀ p, Scalar (E p)] [Scalar ω] [∀ p, Widening (E p) ω] [∀ p, BlockProduct (E p)]
  [Memory] [Source σ ω]

variable {m : Model E ω} {p : Precision} {x : Dataset (E p)} {weights : Option (List (E p))}

/-- A fit that returns was ready, and had memory for a copy of the centroids of its best run. -/
theorem yields_computeFit_ready :
    Seeding.Yields (m.computeFit p x weights : Seeding σ ω (Fit (E p) ω)) fun f =>
      ∃ array e, m.Ready p x weights array e ∧ f.centroids.copy? = .ok f.centroids ∧
        ∃ s, ((Seeding.bestRun m.params e x.table weights array : Seeding σ ω _).run s).1 =
          .ok f := by
  unfold computeFit
  refine (Seeding.yields_attempt _).bind fun array hstart => ?_
  refine (Seeding.yields_attempt _).bind fun _ hdata => ?_
  refine (Seeding.yields_attempt _).bind fun _ hweights => ?_
  refine (Seeding.yields_attempt _).bind fun _ htotal => Seeding.yields_andThen fun _ => ?_
  refine Seeding.Yields.reportingLack ((Seeding.yields_attempt _).bind fun e he => ?_) _ _
  have hruns : Seeding.Yields
      (Seeding.bestRun m.params e x.table weights array : Seeding σ ω (Fit (E p) ω)) fun f =>
        ∃ s, ((Seeding.bestRun m.params e x.table weights array : Seeding σ ω _).run s).1 =
          .ok f := fun s f hf => ⟨s, hf⟩
  refine hruns.bind fun f hf => (Seeding.yields_attempt _).bind fun c hc => ?_
  rw [Matrix.eq_of_copy? hc] at hc
  exact Seeding.yields_pure ⟨array, e, ⟨hstart, hdata, hweights, htotal, he⟩, hc, hf⟩

/-- What a fit returns is one of its runs. -/
theorem isRun_of_fit [Source.InRange σ] {f : Fit (E p) ω}
    (h : (m.fit σ p x weights).result = .ok f) :
    ∃ array e, m.Ready p x weights array e ∧ ∃ r < 1 + (m.params.fitRuns - 1),
      f.IsRun (Seeding.StartOf m.params e x.table weights array) m.params e x.table weights r := by
  rw [result_fit] at h
  obtain ⟨array, e, hready, -, s, hbest⟩ := yields_computeFit_ready _ _ h
  have hrows := (present_of_checkData hready.data).1
  have hstart := Seeding.yields_startOf (σ := σ) hrows m.params e weights array
  have hfit := Seeding.yields_fitRun_numbered hstart
  exact ⟨array, e, hready, Seeding.yields_bestRun_numbered hfit s f hbest⟩

/-- A fit that is ready, and has memory for a copy of the centroids, returns its best run. -/
theorem Ready.returns_computeFit {array : Matrix (E p)} {e : Kernel} {f : Fit (E p) ω}
    (h : m.Ready p x weights array e) (hcopy : f.centroids.copy? = .ok f.centroids)
    (hbest : Seeding.Returns
      (Seeding.bestRun m.params e x.table weights array : Seeding σ ω (Fit (E p) ω)) f) :
    Seeding.Returns (m.computeFit p x weights : Seeding σ ω (Fit (E p) ω)) f := by
  unfold computeFit
  refine (Seeding.returns_attempt h.start).bind ((Seeding.returns_attempt h.data).bind ?_)
  refine (Seeding.returns_attempt h.weighed).bind ((Seeding.returns_attempt h.total).bind ?_)
  refine (Seeding.returns_record _).bind (Seeding.Returns.reportingLack ?_ _ _)
  refine (Seeding.returns_attempt h.kernel).bind (hbest.bind ?_)
  exact (Seeding.returns_attempt hcopy).bind (Seeding.returns_pure f)

/-- If the model for one run alone has a fit, that run of the fit of all runs returns it, from any
session. -/
theorem ready_of_single {r : ℕ} {f : Fit (E p) ω}
    (h : ((m.single r).fit σ p x weights).result = .ok f) :
    ∃ array e, m.Ready p x weights array e ∧ f.centroids.copy? = .ok f.centroids ∧
      Seeding.Returns
        (Seeding.fitRun m.params e x.table weights array r : Seeding σ ω (Fit (E p) ω))
        { f with run := r } := by
  rw [result_fit] at h
  obtain ⟨array, e, hready, hcopy, s, hs⟩ := yields_computeFit_ready _ _ h
  refine ⟨array, e, ⟨hready.start, hready.data, hready.weighed, hready.total, hready.kernel⟩,
    hcopy, fun t => ?_⟩
  rw [single, Seeding.bestRun_single] at hs
  rw [Seeding.result_fitRun _ _ _ _ _ r t s, hs]
  rfl

/-- Where a new model for each run alone has a fit, the fit of all runs is, up to the number of the
run, that of the first run with the least inertia, and this fit is kept. -/
theorem fit_best_run [∀ p, Scalar.Ordered (E p)] (m : Model E ω)
    (hmethod : m.params.method ≠ .array) (hpos : 0 < m.params.runs) (x : Dataset (E p))
    (weights : Option (List (E p))) (F : ℕ → Fit (E p) ω)
    (hfit : ∀ r < m.params.runs, ((m.single r).fit σ p x weights).result = .ok (F r))
    (hnum : ∀ r < m.params.runs, Scalar.IsNumber (F r).inertia) :
    ∃ b, FirstLeast ((List.range m.params.runs).map fun r => (F r).inertia) b (F b).inertia ∧
      (m.fit σ p x weights).result = .ok { F b with run := b } ∧
      (m.fit σ p x weights).model.fitted = ((m.single b).fit σ p x weights).model.fitted := by
  have hruns : m.params.fitRuns = m.params.runs := if_neg hmethod
  obtain ⟨array, e, hready, -, -⟩ := ready_of_single (hfit 0 hpos)
  -- every run alone starts from the same array and uses the same kernel
  have hreturns : ∀ r < m.params.runs, Seeding.Returns
      (Seeding.fitRun m.params e x.table weights array r : Seeding σ ω (Fit (E p) ω))
      { F r with run := r } := by
    intro r hr
    obtain ⟨array', e', hready', -, hrun⟩ := ready_of_single (hfit r hr)
    obtain rfl : array' = array := Except.ok.inj (hready'.start.symm.trans hready.start)
    obtain rfl : e' = e := Except.ok.inj (hready'.kernel.symm.trans hready.kernel)
    exact hrun
  obtain ⟨b, hbest, hall⟩ := Seeding.returns_bestRun (F := fun r => { F r with run := r })
    (by rwa [hruns]) (by rwa [hruns]) (by rwa [hruns])
  rw [hruns] at hbest
  have hb : b < m.params.runs := by simpa [Seeding.inertias] using hbest.lt_length
  obtain ⟨_, _, -, hcopy, -⟩ := ready_of_single (hfit b hb)
  have hresult : (m.fit σ p x weights).result = .ok { F b with run := b } := by
    rw [result_fit]
    exact hready.returns_computeFit (f := { F b with run := b }) hcopy hall _
  refine ⟨b, hbest, hresult, ?_⟩
  rw [fit_of_ok m p x weights hresult, fit_of_ok (m.single b) p x weights (hfit b hb)]
  rfl

end Model

/-! ### The corners of a rectangle -/

namespace Model

/-- Two clusters, the best of four runs. -/
def quartet : Model Precision.Machine Float where
  params := { Params.standard with clusters := 2, method := .random, runs := 4, maxIterations := 2 }
  start := none
  fitted := none

/-- The corners of a rectangle that is wider than it is high. -/
def rectangle : Dataset (Precision.double.Machine) := ⟨⟨4, 2, [0, 0, 0, 2, 6, 0, 6, 2]⟩, true⟩

/-- The runs split the corners by height and by side in turn; the sides are the better clusters. -/
def quartetFit (r : ℕ) : Fit (Precision.double.Machine) Float :=
  if r % 2 = 0 then
    ⟨⟨⟨2, 2, [3, 0, 3, 2]⟩, [0, 1, 0, 1], (36 : Float), 2, .exhausted,
      [⟨1, 72, 18, 0⟩, ⟨2, 36, 0, 0⟩]⟩, .none, 0⟩
  else
    ⟨⟨⟨2, 2, [0, 1, 6, 1]⟩, [0, 0, 1, 1], (4 : Float), 2, .exhausted,
      [⟨1, 8, 2, 0⟩, ⟨2, 4, 0, 0⟩]⟩, .none, 0⟩

/-- Of the two runs that find the sides the fit keeps the earlier one. -/
theorem fit_best_run_quartet :
    (∀ r < 4, ((quartet.single r).fit (Counter Float) .double rectangle none).result =
        .ok (quartetFit r)) ∧
      (quartet.fit (Counter Float) .double rectangle none).result =
        .ok { quartetFit 1 with run := 1 } ∧
      (quartet.fit (Counter Float) .double rectangle none).model.fitted =
        ((quartet.single 1).fit (Counter Float) .double rectangle none).model.fitted := by
  have hfit : ∀ r < 4, ((quartet.single r).fit (Counter Float) .double rectangle none).result =
      .ok (quartetFit r) := by
    decide +kernel
  have hnum : ∀ r < 4, Scalar.IsNumber (quartetFit r).inertia := fun r _ => by
    unfold quartetFit
    split_ifs <;> exact Or.inl (by decide +kernel)
  obtain ⟨b, hbest, hresult, hfitted⟩ :=
    fit_best_run quartet (by decide) (by decide) rectangle none quartetFit hfit hnum
  have hb : b < 4 := by simpa [quartet] using hbest.lt_length
  have hkept : b = 1 := by
    interval_cases b
    · exact absurd (by decide +kernel) (hbest.least (i := 1) rfl)
    · rfl
    · exact absurd (hbest.first (i := 1) rfl (by decide)) (by decide +kernel)
    · exact absurd (hbest.first (i := 1) rfl (by decide)) (by decide +kernel)
  subst hkept
  exact ⟨hfit, hresult, hfitted⟩

end Model

end Clustering
