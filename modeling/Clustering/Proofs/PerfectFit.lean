import Clustering.Proofs.Lloyd.FixedPoint
import Clustering.Proofs.Failures
import Clustering.Proofs.Hull

/-!
# Clusters enough for every row

If there are no fewer clusters than rows, every row is among the starting centroids
(`Seeding.StartOf.mem_rowList_iff`).  Each row then has distance zero to the centroid of its label,
and an assignment without error is a fixed point (`Kernel.update_of_inertia_eq_zero`): every run of
a fit returns the centroids that it started with, and as all runs are equally good, the fit returns
the first one (`Model.fit_perfect`).
-/

namespace Clustering

variable {K : Type} [ExactScalar K]

/-! ### Starts -/

namespace Seeding

/-- With clusters enough the rows of the data are the starting centroids. -/
theorem StartOf.mem_rowList_iff {α ω : Type} [Scalar α] [Scalar ω] [Widening α ω] [Memory]
    [BlockProduct α] {p : Params ω} {e : Kernel} {x : Matrix α} {weights : Option (List α)}
    {array c : Matrix α} (h : StartOf p e x weights array c) (hmethod : p.method ≠ .array)
    (hk : x.rows ≤ p.clusters) (hx : x.Full) (v : List α) :
    v ∈ c.rowList ↔ v ∈ x.rowList := by
  cases h with
  | supplied method => exact absurd method hmethod
  | picked _ indices covers =>
    rw [Matrix.rowList_pick hx indices.lt, List.mem_map, Matrix.mem_rowList]
    exact ⟨fun ⟨i, hi, hrow⟩ => ⟨i, indices.lt i hi, hrow⟩,
      fun ⟨i, hi, hrow⟩ => ⟨i, covers hk i hi, hrow⟩⟩
  | reduced _ crowded => exact absurd hk (by omega)

end Seeding

/-! ### Refinements -/

/-- A vector that is a centroid is labelled with one that equals it. -/
theorem Kernel.row_labelOf {c : Matrix K} (hc : c.Full) {v : List K} (hv : v ∈ c.rowList) :
    labelOf c v < c.rows ∧ c.row (labelOf c v) = v := by
  obtain ⟨j, hj, rfl⟩ := Matrix.mem_rowList.mp hv
  obtain ⟨hlt, hnear⟩ := (Nearest.among_spec c (Nat.zero_lt_of_lt hj) (c.row j)).1
  have hle := (hnear j hj).1
  rw [sqDist_self] at hle
  have hsame := eq_of_sqDist_eq_zero (Matrix.length_row hc hj) (Matrix.length_row hc hlt)
    (le_antisymm hle (sqDist_nonneg _ _))
  exact ⟨hlt, hsame.symm⟩

/-- A result without error: the centroids are the given ones, and each row of the data is the
centroid of its label. -/
structure Refined.Perfect (res : Refined K K) (x c : Matrix K) : Prop where
  centroids : res.centroids = c
  inertia : res.inertia = 0
  rows : ∀ i < x.rows, ∃ l < c.rows, res.labels[i]? = some l ∧ res.centroids.row l = x.row i

section Refinements

variable {x c : Matrix K} {weights : Option (List K)} (h : Kernel.Sound x weights c)
include h

/-- Where there is no error there is nothing to gain. -/
theorem Kernel.update_of_inertia_eq_zero (e : Kernel)
    (hzero : (e.assignment x weights c).inertia = 0) : e.update x weights c = c := by
  have hgain := e.gain_le h
  have hnext := e.inertia_nonneg (h.update e)
  exact e.update_eq_of_gain_le h (by linarith)

variable (hcovers : ∀ v ∈ x.rowList, v ∈ c.rowList)
include hcovers

theorem Kernel.inertia_of_covers (e : Kernel) : (e.assignment x weights c).inertia = 0 := by
  rw [e.inertia_exact weights h.fits h.nonempty]
  refine List.sum_eq_zero fun v hv => ?_
  obtain ⟨p, hp, rfl⟩ := List.mem_map.mp hv
  have hrow := hcovers p.1 (List.of_mem_zip hp).1
  rw [(row_labelOf h.fits.full_centroids hrow).2, sqDist_self, mul_zero]

/-- A refinement from centroids among which are all rows of the data never leaves them. -/
theorem Kernel.orbit_of_covers (e : Kernel) (t : ℕ) : e.orbit x weights c t = c :=
  e.orbit_of_fixed (s := 0) x weights c
    (e.update_of_inertia_eq_zero h (e.inertia_of_covers h hcovers)) t (Nat.zero_le t)

theorem Refiner.perfect_outcome (r : Refiner K) (m : ℕ) (phase : Phase) :
    (r.outcome x weights c m phase).Perfect x c := by
  have horbit := r.kernel.orbit_of_covers h hcovers m
  refine ⟨horbit, ?_, fun i hi => ?_⟩
  · rw [outcome, horbit]
    exact r.kernel.inertia_of_covers h hcovers
  · have hmem := hcovers _ (Matrix.mem_rowList.mpr ⟨i, hi, rfl⟩)
    obtain ⟨hlt, hrow⟩ := Kernel.row_labelOf h.fits.full_centroids hmem
    rw [outcome, horbit]
    exact ⟨_, hlt, r.kernel.getElem?_labels weights h.fits hi, hrow⟩

/-- There is nothing to improve on, so that every iteration passes the test that may. -/
theorem Refiner.settles_of_covers (r : Refiner K) :
    r.Settles x weights none c = fun t => 0 < t ∧ r.checkInertia = true := by
  funext t
  cases t with
  | zero => simpa using r.not_settles_none_zero x weights c
  | succ t =>
    rw [settles_succ_iff]
    simp [r.kernel.orbit_of_covers h hcovers, r.kernel.inertia_of_covers h hcovers]

/-- How many iterations such a refinement makes does not depend on the centroids. -/
theorem Refiner.run_of_covers [Memory] {r : Refiner K} (hadm : r.admission x c = .ok ()) {m : ℕ}
    {phase : Phase}
    (hends : Ends (fun t => 0 < t ∧ r.checkInertia = true) r.maxIterations m phase) :
    r.run x weights c = r.keeping (r.outcome x weights c m phase) := by
  obtain ⟨m', phase', hends', hrun⟩ := r.run_admitted x weights c hadm
  rw [r.settles_of_covers h hcovers] at hends'
  obtain ⟨rfl, rfl⟩ := hends.unique hends'
  exact hrun

end Refinements

/-! ### Computations that fail -/

/-- A lack of room: of memory, or of indices. -/
def Failure.OfRoom (f : Failure) : Prop := f.kind = .resource ∨ f.kind = .length ∨ f.kind = .memory

theorem Refiner.failsAs_admission {ω α : Type} [Scalar α] [Memory] (r : Refiner ω)
    {x start : Matrix α} (hwidth : start.cols = x.cols) (hrows : 0 < start.rows)
    (hcols : 0 < start.cols) : FailsAs Failure.OfRoom (r.admission x start) := by
  have hshapes : FailsAs Failure.OfRoom (Kernel.checkShapes "nearest" x start) := by
    unfold Kernel.checkShapes
    rw [if_neg hrows.ne', if_neg hcols.ne', if_neg (by omega)]
    split_ifs
    · exact .error (Or.inl rfl)
    · exact .ok _
  have hbuffers : ∀ f, Memory.Refuses f → f.OfRoom := fun _ hf => Or.inl hf.kind_eq
  refine ((failsAs_prepare hwidth).mono hbuffers).bind fun _ _ => hshapes.bind fun _ _ => ?_
  split_ifs
  · exact .ok _
  · exact (r.kernel.failsAs_sweepBuffers _ _).mono hbuffers

theorem Matrix.failsAs_copy? {α : Type} [Scalar α] [Memory] (m : Matrix α) :
    FailsAs Failure.OfRoom m.copy? := by
  unfold copy? Memory.storage Memory.storageOr
  refine FailsAs.bind ?_ fun _ _ => .ok _
  split
  · exact .ok _
  · exact .error (Or.inr (Or.inl rfl))
  · exact .error (Or.inr (Or.inr rfl))

namespace Seeding

section Rules

variable {σ ω β γ : Type}

/-- From every session the computation ends in a lack of room. -/
def LacksRoom (a : Seeding σ ω β) : Prop :=
  ∃ f : Failure, f.OfRoom ∧ ∀ s : Session σ ω, (a.run s).1 = .error f

theorem lacksRoom_attempt {r : Except Failure β} {f : Failure} (h : r = .error f)
    (hf : f.OfRoom) : LacksRoom (attempt r : Seeding σ ω β) :=
  ⟨f, hf, fun _ => h⟩

theorem LacksRoom.bind {a : Seeding σ ω β} (h : LacksRoom a) (g : β → Seeding σ ω γ) :
    LacksRoom (a >>= g) := by
  obtain ⟨f, hf, ha⟩ := h
  refine ⟨f, hf, fun s => ?_⟩
  obtain ⟨t, hrun⟩ := exists_run_eq (ha s)
  rw [run_bind_of_error s hrun]

theorem Returns.bind_lacksRoom {a : Seeding σ ω β} {g : β → Seeding σ ω γ} {v : β}
    (ha : Returns a v) (hg : LacksRoom (g v)) : LacksRoom (a >>= g) := by
  obtain ⟨f, hf, hg⟩ := hg
  refine ⟨f, hf, fun s => ?_⟩
  obtain ⟨t, hrun⟩ := exists_run_eq (ha s)
  rw [run_bind_of_ok s hrun]
  exact hg t

/-- A lack of room is reported as one. -/
theorem LacksRoom.reportingLack {α : Type} {a : Seeding σ ω β} (h : LacksRoom a)
    (x : Matrix α) (clusters : ℕ) : LacksRoom (reportingLack x clusters a) := by
  obtain ⟨f, hf, ha⟩ := h
  have hreport : ∃ f' : Failure, f'.OfRoom ∧ ∀ s : Session σ ω,
      ((reportLack x clusters f : Seeding σ ω β).run s).1 = .error f' := by
    unfold reportLack
    rcases hf with hf | hf | hf
    · exact ⟨f, Or.inl hf, fun s => by rw [hf]; rfl⟩
    · exact ⟨f, Or.inr (Or.inl hf), fun s => by rw [hf]; rfl⟩
    · exact ⟨.fitMemory x.rows x.cols clusters, Or.inl rfl, fun s => by rw [hf]; rfl⟩
  obtain ⟨f', hf', hreport⟩ := hreport
  refine ⟨f', hf', fun s => ?_⟩
  obtain ⟨t, hrun⟩ := exists_run_eq (ha s)
  rw [Seeding.reportingLack, run_tryCatch, hrun]
  exact hreport t

end Rules

/-! ### Runs -/

section Runs

variable {α σ ω : Type} [Scalar α] [Scalar ω] [Widening α ω] [Source σ ω] [Memory] [BlockProduct α]
  (p : Params ω) (e : Kernel) (x : Matrix α) (weights : Option (List α)) (array : Matrix α) (r : ℕ)

/-- The starting centroids of run `r`, from a seed of its own. -/
def seeded : Seeding σ ω (Matrix α × SeedStats) := do
  restart (Source.seed (p.seed + r.toUInt64))
  start p e x weights array

variable {p e x weights array r}

theorem returns_fitRun {c : Matrix α × SeedStats} {res : Refined α ω}
    (hseeded : Returns (seeded p e x weights array r : Seeding σ ω _) c)
    (hmax : p.maxIterations ≠ 0) (hrun : ((p.refiner e).run x weights c.1).1 = .ok res) :
    Returns (fitRun p e x weights array r : Seeding σ ω (Fit α ω))
      { res with seeding := c.2, run := r } := by
  have hnew : Refiner.new? e p.maxIterations p.tolerance p.checkInertia = .ok (p.refiner e) :=
    if_neg hmax
  unfold fitRun
  rw [← bind_assoc]
  refine hseeded.bind ((returns_attempt hnew).bind ?_)
  have hrefine : Returns (refine (p.refiner e) x weights c.1 : Seeding σ ω (Refined α ω)) res :=
    (returns_record _).bind (returns_attempt hrun)
  exact hrefine.bind ((returns_record _).bind (returns_pure _))

theorem lacksRoom_fitRun {c : Matrix α × SeedStats} {f : Failure}
    (hseeded : Returns (seeded p e x weights array r : Seeding σ ω _) c)
    (hmax : p.maxIterations ≠ 0) (hrun : ((p.refiner e).run x weights c.1).1 = .error f)
    (hf : f.OfRoom) : LacksRoom (fitRun p e x weights array r : Seeding σ ω (Fit α ω)) := by
  have hnew : Refiner.new? e p.maxIterations p.tolerance p.checkInertia = .ok (p.refiner e) :=
    if_neg hmax
  unfold fitRun
  rw [← bind_assoc]
  refine hseeded.bind_lacksRoom ((returns_attempt hnew).bind_lacksRoom ?_)
  exact ((returns_record _).bind_lacksRoom (lacksRoom_attempt hrun hf)).bind _

end Runs

end Seeding

/-! ### Fits -/

namespace Model

variable {σ : Type} [Source σ K] [Memory] {m : Model (fun _ => K) K} {p : Precision}
  {x : Dataset K} {weights : Option (List K)} {array : Matrix K} {e : Kernel}

theorem Ready.lacksRoom_computeFit (h : m.Ready p x weights array e)
    (hrest : Seeding.LacksRoom (do
      let f ← (Seeding.bestRun m.params e x.table weights array : Seeding σ K (Fit K K))
      let _ ← Seeding.attempt f.centroids.copy?
      return f)) :
    Seeding.LacksRoom (m.computeFit p x weights : Seeding σ K (Fit K K)) := by
  unfold computeFit
  refine (Seeding.returns_attempt h.start).bind_lacksRoom ?_
  refine (Seeding.returns_attempt h.data).bind_lacksRoom ?_
  refine (Seeding.returns_attempt h.weighed).bind_lacksRoom ?_
  refine (Seeding.returns_attempt h.total).bind_lacksRoom ?_
  refine (Seeding.returns_record _).bind_lacksRoom (Seeding.LacksRoom.reportingLack ?_ _ _)
  exact (Seeding.returns_attempt h.kernel).bind_lacksRoom hrest

/-- A first run that lacks room is the end of the fit. -/
theorem Ready.lacksRoom_of_first (h : m.Ready p x weights array e)
    (hmax : m.params.maxIterations ≠ 0) {c : Matrix K × SeedStats}
    (hseeded : Seeding.Returns
      (Seeding.seeded m.params e x.table weights array 0 : Seeding σ K (Matrix K × SeedStats)) c)
    {f : Failure} (hf : f.OfRoom)
    (hrun : ((m.params.refiner e).run x.table weights c.1).1 = .error f) :
    Seeding.LacksRoom (m.computeFit p x weights : Seeding σ K (Fit K K)) := by
  have hfirst := Seeding.lacksRoom_fitRun hseeded hmax hrun hf
  exact h.lacksRoom_computeFit ((hfirst.bind _).bind _)

/-- Of runs that are all without error the first one is kept. -/
theorem returns_bestRun_zero (hmethod : m.params.method ≠ .array) (hruns : 0 < m.params.runs)
    {F : ℕ → Fit K K} (hzero : ∀ r < m.params.runs, (F r).inertia = 0)
    (hF : ∀ r < m.params.runs, Seeding.Returns
      (Seeding.fitRun m.params e x.table weights array r : Seeding σ K (Fit K K)) (F r)) :
    Seeding.Returns
      (Seeding.bestRun m.params e x.table weights array : Seeding σ K (Fit K K)) (F 0) := by
  have hcount : m.params.fitRuns = m.params.runs := if_neg hmethod
  rw [← hcount] at hruns hzero hF
  obtain ⟨b, hleast, hbest⟩ := Seeding.returns_bestRun hruns hF fun r _ => Or.inl rfl
  have hlt : b < m.params.fitRuns := by simpa [Seeding.inertias] using hleast.lt_length
  rcases Nat.eq_zero_or_pos b with rfl | hpos
  · exact hbest
  · have hfirst := hleast.first (i := 0) (v := (F 0).inertia)
      (by simp [Seeding.inertias, hruns]) hpos
    rw [hzero 0 hruns, hzero b hlt] at hfirst
    exact absurd hfirst (lt_irrefl _)

section Perfect

variable [Source.InRange σ] (hvalid : m.params.validate = .ok ())
  (hmethod : m.params.method ≠ .array) (hx : x.Complete) (hready : m.Ready p x weights array e)
  (hk : x.table.rows ≤ m.params.clusters) {C : ℕ → Matrix K × SeedStats}
  (hC : ∀ r < m.params.runs, Seeding.Returns
    (Seeding.seeded m.params e x.table weights array r : Seeding σ K (Matrix K × SeedStats)) (C r))
include hmethod hx hready hk hC

/-- The starting centroids of each run are the rows of the data. -/
theorem seeds_of_enough {r : ℕ} (hr : r < m.params.runs) :
    (C r).1.rows = m.params.clusters ∧ x.table.Fits (C r).1 ∧
      ∀ v, v ∈ (C r).1.rowList ↔ v ∈ x.table.rowList := by
  obtain ⟨hrows, -, hpresent⟩ := present_of_checkData hready.data
  have hfull := hx hpresent
  have hyields : Seeding.Yields
      (Seeding.seeded m.params e x.table weights array r : Seeding σ K (Matrix K × SeedStats))
        fun cs => Seeding.StartOf m.params e x.table weights array cs.1 :=
    Seeding.yields_andThen fun _ => Seeding.yields_startOf hrows m.params e weights array
  have hstart := hyields ⟨Source.seed 0, []⟩ _ (hC r hr _)
  have hfits := hstart.fits hfull fun h => absurd h hmethod
  exact ⟨hfits.1, hfits.2, hstart.mem_rowList_iff hmethod hk hfull⟩

/-- A run is sound, and is admitted if the first one is. -/
theorem sound_of_enough (hpos : 0 < m.params.clusters) {r : ℕ} (hr : r < m.params.runs) :
    Kernel.Sound x.table weights (C r).1 ∧
      (m.params.refiner e).admission x.table (C r).1 =
        (m.params.refiner e).admission x.table (C 0).1 := by
  obtain ⟨hrows, hfits, -⟩ := seeds_of_enough hmethod hx hready hk hC hr
  obtain ⟨hrows', hfits', -⟩ := seeds_of_enough hmethod hx hready hk hC (Nat.zero_lt_of_lt hr)
  exact ⟨⟨hfits, hrows ▸ hpos, nonneg_of_checkWeights hready.weighed⟩,
    Refiner.admission_congr _ _ (hrows.trans hrows'.symm) (hfits.cols.trans hfits'.cols.symm)⟩

include hvalid

/-- All runs make the same number of iterations, and where the first one is admitted and there is
room for that many records, each run is without error, and the first one is kept. -/
theorem perfect_runs (hadm : (m.params.refiner e).admission x.table (C 0).1 = .ok ()) {n : ℕ}
    {phase : Phase} (hends : Ends (fun t => 0 < t ∧ m.params.checkInertia = true)
      m.params.maxIterations n phase) (hroom : Refiner.historyRoom n = .ok ()) :
    ∃ F : ℕ → Fit K K, (∀ r < m.params.runs,
      Seeding.Returns
        (Seeding.fitRun m.params e x.table weights array r : Seeding σ K (Fit K K)) (F r) ∧
      (F r).toRefined.Perfect x.table (C r).1 ∧
      (m.params.checkInertia = true → 2 ≤ m.params.maxIterations →
        (F r).iterations = 2 ∧ (F r).phase = .converged)) ∧
      Seeding.Returns
        (Seeding.bestRun m.params e x.table weights array : Seeding σ K (Fit K K)) (F 0) := by
  have hfault := Params.fault?_of_validate hvalid
  have hruns := Params.runs_pos_of_valid hfault
  obtain ⟨hpos, hmax, -⟩ := Params.positive_of_valid hfault
  let res : ℕ → Refined K K := fun r =>
    (m.params.refiner e).outcome x.table weights (C r).1 n phase
  let F : ℕ → Fit K K := fun r => { res r with seeding := (C r).2, run := r }
  have hF : ∀ r < m.params.runs,
      Seeding.Returns
        (Seeding.fitRun m.params e x.table weights array r : Seeding σ K (Fit K K)) (F r) ∧
      (F r).toRefined.Perfect x.table (C r).1 := by
    intro r hr
    obtain ⟨-, -, hmem⟩ := seeds_of_enough hmethod hx hready hk hC hr
    obtain ⟨hsound, hsame⟩ := sound_of_enough hmethod hx hready hk hC hpos hr
    have hcovers : ∀ v ∈ x.table.rowList, v ∈ (C r).1.rowList := fun v => (hmem v).mpr
    have hrun := Refiner.run_of_covers hsound hcovers (hsame.trans hadm) hends
    rw [Refiner.keeping_of_room _ hroom] at hrun
    exact ⟨Seeding.returns_fitRun (hC r hr) hmax (congrArg Prod.fst hrun),
      Refiner.perfect_outcome hsound hcovers _ _ _⟩
  refine ⟨F, fun r hr => ⟨(hF r hr).1, (hF r hr).2, fun hcheck hmax => ?_⟩,
    returns_bestRun_zero hmethod hruns (fun r hr => (hF r hr).2.inertia) fun r hr => (hF r hr).1⟩
  -- the second iteration is the first one that is compared with anything
  exact hends.eq_of_first hmax ⟨Nat.one_pos, hcheck⟩ fun s hs h => by omega

/-- Clusters enough for every row give a fit without error.  The starting centroids of each run,
once its seeding has drawn them, are the rows of the data; each run returns them, every row the
centroid of its label, after two iterations if it may stop there; and the fit returns the first
run.  All that can prevent it is a lack of room, of which there is none if memory is granted and
the shapes are within the index limit. -/
theorem fit_perfect :
    (∀ r < m.params.runs, (C r).1.rows = m.params.clusters ∧
      ∀ v, v ∈ (C r).1.rowList ↔ v ∈ x.table.rowList) ∧
    ((∃ f : Failure, f.OfRoom ∧ (m.fit σ p x weights).result = .error f) ∨
      ∃ F : ℕ → Fit K K, (∀ r < m.params.runs,
        Seeding.Returns
          (Seeding.fitRun m.params e x.table weights array r : Seeding σ K (Fit K K)) (F r) ∧
        (F r).toRefined.Perfect x.table (C r).1 ∧
        (m.params.checkInertia = true → 2 ≤ m.params.maxIterations →
          (F r).iterations = 2 ∧ (F r).phase = .converged)) ∧
        (m.fit σ p x weights).result = .ok (F 0)) ∧
    ((∀ width count, Memory.refuse width count = none) → m.params.clusters ≤ indexLimit →
      x.table.cols ≤ indexLimit → (m.fit σ p x weights).result.isOk = true) := by
  have hfault := Params.fault?_of_validate hvalid
  have hruns := Params.runs_pos_of_valid hfault
  obtain ⟨hpos, hmax, -⟩ := Params.positive_of_valid hfault
  obtain ⟨-, hcols, -⟩ := present_of_checkData hready.data
  obtain ⟨hrows, hfits, hcovers⟩ := seeds_of_enough hmethod hx hready hk hC hruns
  have hrows_pos : 0 < (C 0).1.rows := hrows ▸ hpos
  have hcols_pos : 0 < (C 0).1.cols := hfits.cols ▸ hcols
  -- all runs pass the same tests, so that the first one says how many iterations each makes
  have hcourse : (m.params.refiner e).admission x.table (C 0).1 = .ok () → ∃ n phase,
      Ends (fun t => 0 < t ∧ m.params.checkInertia = true) m.params.maxIterations n phase ∧
        (m.params.refiner e).run x.table weights (C 0).1 = (m.params.refiner e).keeping
          ((m.params.refiner e).outcome x.table weights (C 0).1 n phase) := by
    intro hadm
    obtain ⟨hsound, -⟩ := sound_of_enough hmethod hx hready hk hC hpos hruns
    have hrun := (m.params.refiner e).run_admitted x.table weights _ hadm
    rw [(m.params.refiner e).settles_of_covers hsound fun v => (hcovers v).mpr] at hrun
    exact hrun
  refine ⟨fun r hr => ?_, ?_, fun hmem hrows_le hcols_le => ?_⟩
  · obtain ⟨hrows, -, hmem⟩ := seeds_of_enough hmethod hx hready hk hC hr
    exact ⟨hrows, hmem⟩
  · rw [result_fit]
    cases hadm : (m.params.refiner e).admission x.table (C 0).1 with
    | error f =>
      have hlack := Refiner.failsAs_admission _ hfits.cols hrows_pos hcols_pos f hadm
      obtain ⟨g, hg, hfit⟩ := hready.lacksRoom_of_first hmax (hC 0 hruns) hlack
        ((m.params.refiner e).run_refused x.table weights _ hadm)
      exact Or.inl ⟨g, hg, hfit _⟩
    | ok u =>
      -- past its admission a run can lack room for its history only, and the fit for its copy
      obtain ⟨n, phase, hends, hrun⟩ := hcourse hadm
      cases hhist : Refiner.historyRoom n with
      | error f =>
        have hlack : f.OfRoom := Or.inr (Or.inr (Memory.eq_outOfMemory_of_growFrom hhist ▸ rfl))
        rw [Refiner.keeping_of_refused _ hhist] at hrun
        obtain ⟨g, hg, hfit⟩ :=
          hready.lacksRoom_of_first hmax (hC 0 hruns) hlack (congrArg Prod.fst hrun)
        exact Or.inl ⟨g, hg, hfit _⟩
      | ok u =>
        obtain ⟨F, hF, hbest⟩ := perfect_runs hvalid hmethod hx hready hk hC hadm hends hhist
        cases hcopy : (F 0).centroids.copy? with
        | error f =>
          have hlack := (F 0).centroids.failsAs_copy? f hcopy
          have hlacks := Seeding.lacksRoom_attempt (σ := σ) (ω := K) hcopy hlack
          obtain ⟨g, hg, hfit⟩ :=
            hready.lacksRoom_computeFit (hbest.bind_lacksRoom (hlacks.bind _))
          exact Or.inl ⟨g, hg, hfit _⟩
        | ok c =>
          rw [Matrix.eq_of_copy? hcopy] at hcopy
          exact Or.inr ⟨F, hF, hready.returns_computeFit hcopy hbest _⟩
  · have hadm : (m.params.refiner e).admission x.table (C 0).1 = .ok () :=
      Refiner.admission_of_granted _ hfits.cols hrows_pos hcols_pos (hrows ▸ hrows_le)
        (hfits.cols ▸ hcols_le) hmem
    obtain ⟨n, phase, hends, -⟩ := hcourse hadm
    obtain ⟨F, -, hbest⟩ := perfect_runs hvalid hmethod hx hready hk hC hadm hends
      (Refiner.historyRoom_of_granted hmem n)
    have hcopy : (F 0).centroids.copy? = .ok (F 0).centroids := by
      rw [Matrix.copy?, Memory.storage, Memory.storageOr, hmem]
      rfl
    rw [result_fit, hready.returns_computeFit hcopy hbest]
    rfl

end Perfect

end Model

/-! ### Two points and three clusters -/

namespace Model

/-- Three clusters, the better of two runs. -/
def spare : Model (fun _ => ℚ) ℚ where
  params := { Params.standard with clusters := 3, method := .random, runs := 2 }
  start := none
  fitted := none

/-- Two points, the second of which has no weight. -/
def twoSpots : Dataset ℚ := ⟨⟨2, 1, [0, 2]⟩, true⟩

def spareKernel : Kernel := ⟨.unexpanded, 32768, 0, by decide⟩

theorem ready_spare : spare.Ready .double twoSpots (some [1, 0]) .empty spareKernel where
  start := rfl
  data := rfl
  weighed := by decide +kernel
  total := by decide +kernel
  kernel := rfl

/-- The first two centroids are the points; the third one is drawn. -/
def spareStart (r : ℕ) : Matrix ℚ × SeedStats :=
  (⟨3, 1, [0, 2, if r = 0 then 0 else 2]⟩, .none)

theorem seeded_spare : ∀ r < 2, Seeding.Returns
    (Seeding.seeded spare.params spareKernel twoSpots.table (some [1, 0]) .empty r :
      Seeding (Counter ℚ) ℚ (Matrix ℚ × SeedStats)) (spareStart r)
  | 0, _ => fun _ => rfl
  | 1, _ => fun _ => rfl

/-- The fit keeps the first start, in which both points have a centroid. -/
theorem fit_perfect_spare :
    ∃ f, (spare.fit (Counter ℚ) .double twoSpots (some [1, 0])).result = .ok f ∧
      f.toRefined.Perfect twoSpots.table ⟨3, 1, [0, 2, 0]⟩ ∧ f.iterations = 2 := by
  have hvalid : spare.params.validate = .ok () := by decide +kernel
  obtain ⟨-, hfit, -⟩ := fit_perfect (x := twoSpots) hvalid nofun (fun _ => rfl) ready_spare
    (by decide) seeded_spare
  rcases hfit with ⟨f, -, hfail⟩ | ⟨F, hF, hresult⟩
  · have hok : (spare.fit (Counter ℚ) .double twoSpots (some [1, 0])).result.isOk = true := by
      decide +kernel
    rw [hfail] at hok
    cases hok
  · obtain ⟨-, hperfect, hconverged⟩ := hF 0 (by decide)
    exact ⟨F 0, hresult, hperfect, (hconverged rfl (by decide)).1⟩

end Model

end Clustering
