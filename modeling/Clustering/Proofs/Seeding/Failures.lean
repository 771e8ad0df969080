import Clustering.Model.Fit
import Clustering.Proofs.Seeding.Shapes

/-!
# How seeding fails

`Seeding.Fails a P` says that every failure of the seeding computation `a` satisfies `P`; nothing
is said of the values that it returns.  It has a rule for each way in which computations are put
together.

Seeding uses kernels and refiners as they ask to be used: there are always centroids, and they have
the width of the data.  So a refused sweep or refinement has a class of failures of its own
(`Failure.Typed`), and what else seeding fails with is that draws do not end, that memory is
exhausted, or that a request for memory is longer than any sequence (`Failure.Regular`).  The
requests that count here are those whose refusal is passed on as it is (`Seeding.Asked`).
-/

namespace Clustering

/-! ### Failures of results -/

/-- Every failure of the result satisfies `P`. -/
def FailsAs {β : Type} (P : Failure → Prop) (r : Except Failure β) : Prop :=
  ∀ f, r = .error f → P f

namespace FailsAs

variable {β γ : Type} {P Q : Failure → Prop}

theorem ok (v : β) : FailsAs P (.ok v) := nofun

theorem error {f : Failure} (h : P f) : FailsAs P (.error f : Except Failure β) := by
  rintro _ ⟨⟩
  exact h

theorem mono {r : Except Failure β} (h : FailsAs P r) (hPQ : ∀ f, P f → Q f) : FailsAs Q r :=
  fun f hf => hPQ f (h f hf)

theorem bind {r : Except Failure β} {g : β → Except Failure γ} (hr : FailsAs P r)
    (hg : ∀ v, r = .ok v → FailsAs P (g v)) : FailsAs P (r >>= g) := by
  cases r with
  | error f => exact .error (hr f rfl)
  | ok v => exact hg v rfl

theorem map {r : Except Failure β} (hr : FailsAs P r) (g : β → γ) : FailsAs P (r.map g) := by
  cases r with
  | error f => exact .error (hr f rfl)
  | ok v => exact .ok _

end FailsAs

/-- The classes of failures that callers tell apart: faults of parameters and weights, of
precision, of shape, a model that is not fitted, and a lack of resources. -/
def FailureKind.isTyped : FailureKind → Bool
  | configuration | precision | dimension | notFitted | resource => true
  | argument | length | memory | stalled => false

/-- The failure is of a class that callers tell apart. -/
def Failure.Typed (f : Failure) : Prop := f.kind.isTyped = true

/-- How seeding fails, where `asked` are the requests for memory whose refusal is passed on. -/
inductive Failure.Regular [Memory] (asked : ℕ → ℕ → Prop) : Failure → Prop
  | typed {f : Failure} (h : f.Typed) : Regular asked f
  | stalled : Regular asked .stalled
  | exhausted : Regular asked .outOfMemory
  | overlong {f : Failure} (hf : f.kind = .length) {width count : ℕ} (ha : asked width count)
      (h : Memory.refuse width count = some .overlong) : Regular asked f

section Memory

variable [Memory] {asked : ℕ → ℕ → Prop}

/-- The failure stands for a buffer that is not granted. -/
def Memory.Refuses (f : Failure) : Prop :=
  ∃ what width count, Memory.buffer what width count = .error f

theorem Memory.Refuses.kind_eq {f : Failure} (h : Refuses f) : f.kind = .resource := by
  obtain ⟨what, width, count, h⟩ := h
  unfold buffer at h
  split at h <;> cases h <;> rfl

theorem FailsAs.typed {β : Type} {r : Except Failure β} (h : FailsAs Memory.Refuses r) :
    FailsAs Failure.Typed r :=
  h.mono fun f hf => by rw [Failure.Typed, hf.kind_eq]; rfl

theorem failsAs_buffer (what : String) (width count : ℕ) :
    FailsAs Memory.Refuses (Memory.buffer what width count) :=
  fun _ hf => ⟨what, width, count, hf⟩

theorem failsAs_storageOr {f : Failure} (hf : f.Regular asked) {width count : ℕ}
    (ha : asked width count) :
    FailsAs (Failure.Regular asked) (Memory.storageOr f width count) := by
  unfold Memory.storageOr
  split
  · exact .ok _
  · exact .error (.overlong rfl ha ‹_›)
  · exact .error hf

theorem failsAs_storage {width count : ℕ} (ha : asked width count) :
    FailsAs (Failure.Regular asked) (Memory.storage width count) :=
  failsAs_storageOr .exhausted ha

theorem failsAs_reserve {width count : ℕ} (ha : asked width count) :
    FailsAs (Failure.Regular asked) (Memory.reserve width count) := by
  unfold Memory.reserve
  split
  · exact .ok _
  · exact .error (.overlong rfl ha ‹_›)
  · exact .error .exhausted

variable {α ω : Type} [Scalar α]

theorem failsAs_copy? {m : Matrix α}
    (ha : asked (Scalar.bytes α) (spanWord (Scalar.bytes α) m.shapeSize)) :
    FailsAs (Failure.Regular asked) m.copy? :=
  (failsAs_storage ha).bind fun _ _ => .ok _

theorem failsAs_pick? {m : Matrix α} {indices : List ℕ}
    (ha : asked (Scalar.bytes α) (sizeWord (indices.length * m.cols))) :
    FailsAs (Failure.Regular asked) (m.pick? indices) :=
  (failsAs_storageOr (f := .candidateSet _) (.typed rfl) ha).bind fun _ _ => .ok _

/-! ### Kernels and refiners -/

namespace Kernel

variable (e : Kernel) {x c : Matrix α}

omit [Memory] [Scalar α] in
theorem failsAs_checkShapes (op : String) (hc : 0 < c.rows) :
    FailsAs Failure.Typed (checkShapes op x c) := by
  unfold checkShapes
  rw [if_neg (Nat.pos_iff_ne_zero.mp hc)]
  split_ifs
  · exact .error rfl
  · exact .error rfl
  · exact .error rfl
  · exact .ok _

theorem failsAs_normBuffers (n k : ℕ) : FailsAs Memory.Refuses (e.normBuffers α n k) := by
  unfold normBuffers
  split_ifs
  · exact (failsAs_buffer _ _ _).bind fun _ _ => failsAs_buffer _ _ _
  · exact .ok _

theorem failsAs_sweepBuffers (n k : ℕ) : FailsAs Memory.Refuses (e.sweepBuffers α n k) := by
  unfold sweepBuffers
  refine (failsAs_buffer _ _ _).bind fun _ _ => (failsAs_buffer _ _ _).bind fun _ _ => ?_
  split_ifs
  · exact (failsAs_buffer _ _ _).bind fun _ _ => e.failsAs_normBuffers n k
  · exact e.failsAs_normBuffers n k

/-- With centroids to compare with, a sweep is refused for shapes or for memory. -/
theorem failsAs_admission (hc : 0 < c.rows) : FailsAs Failure.Typed (e.admission x c) := by
  unfold admission
  refine (failsAs_checkShapes _ hc).bind fun _ _ => ?_
  split_ifs
  · exact .ok _
  · exact (e.failsAs_sweepBuffers _ _).typed

variable [BlockProduct α]

theorem failsAs_sweep (hc : 0 < c.rows) : FailsAs Failure.Typed (e.sweep x c) := by
  rw [sweep_eq]
  exact (e.failsAs_admission hc).map _

theorem failsAs_nearest (hc : 0 < c.rows) : FailsAs Failure.Typed (e.nearest x c) := by
  rw [nearest_eq]
  exact (e.failsAs_admission hc).map _

theorem failsAs_pairwise (hc : 0 < c.rows) (euclidean : Bool) :
    FailsAs Failure.Typed (e.pairwise x c euclidean) := by
  unfold pairwise
  refine (failsAs_checkShapes _ hc).bind fun _ _ => ?_
  split_ifs
  · exact .ok _
  · exact (e.failsAs_normBuffers _ _).typed.bind fun _ _ => .ok _
  · exact (e.failsAs_normBuffers _ _).typed.bind fun _ _ => .ok _

end Kernel

variable [Scalar ω] [Widening α ω] [BlockProduct α]

omit [Scalar ω] [Widening α ω] [BlockProduct α] in
theorem Refiner.failsAs_prepare {x start : Matrix α} (hcols : start.cols = x.cols) :
    FailsAs Memory.Refuses (prepare x start) := by
  unfold prepare
  rw [if_neg (not_not.mpr hcols)]
  exact (failsAs_buffer _ _ _).bind fun _ _ => (failsAs_buffer _ _ _).bind fun _ _ =>
    failsAs_buffer _ _ _

/-- A refinement from centroids of the width of the data is refused for shapes or for memory, that
for its history included. -/
theorem Refiner.failsAs_run (r : Refiner ω) {x start : Matrix α} (weights : Option (List α))
    (hrows : 0 < start.rows) (hcols : start.cols = x.cols) :
    FailsAs (Failure.Regular asked) (r.run x weights start).1 := by
  have hadmission : FailsAs Failure.Typed (r.admission x start) :=
    (failsAs_prepare hcols).typed.bind fun _ _ =>
      r.kernel.failsAs_admission hrows
  cases hadm : r.admission x start with
  | error f =>
    rw [r.run_refused x weights start hadm]
    exact .error (.typed (hadmission f hadm))
  | ok u =>
    obtain ⟨m, phase, -, hrun⟩ := r.run_admitted x weights start hadm
    cases hhist : historyRoom m with
    | error f =>
      rw [hrun, keeping_of_refused r hhist, Memory.eq_outOfMemory_of_growFrom hhist]
      exact .error .exhausted
    | ok u =>
      rw [hrun, keeping_of_room r hhist]
      exact .ok _

end Memory

/-! ### Rules -/

namespace Seeding

section Rules

variable {σ ω β γ : Type} {P Q : Failure → Prop} {a : Seeding σ ω β}

/-- Every failure of the computation satisfies `P`. -/
def Fails (a : Seeding σ ω β) (P : Failure → Prop) : Prop := ∀ s, FailsAs P (a.run s).1

/-- A computation returns, or fails. -/
theorem Yields.or_fails {R : β → Prop} (hR : Yields a R) (ha : Fails a P) (s : Session σ ω) :
    (∃ v, R v ∧ (a.run s).1 = .ok v) ∨ ∃ f, P f ∧ (a.run s).1 = .error f := by
  cases hrun : (a.run s).1 with
  | ok v => exact Or.inl ⟨v, hR s v hrun, rfl⟩
  | error f => exact Or.inr ⟨f, ha s f hrun, rfl⟩

theorem fails_pure (v : β) : Fails (pure v : Seeding σ ω β) P := fun _ => .ok v

theorem fails_throw {f : Failure} (h : P f) : Fails (throw f : Seeding σ ω β) P := fun _ => .error h

theorem fails_record (ns : List (Notice ω)) : Fails (record ns : Seeding σ ω Unit) P :=
  fun _ => .ok ()

theorem fails_restart (source : σ) : Fails (restart source : Seeding σ ω Unit) P := fun _ => .ok ()

theorem fails_attempt {r : Except Failure β} (h : FailsAs P r) :
    Fails (attempt r : Seeding σ ω β) P :=
  fun _ => h

theorem fails_attempt_typed [Memory] {asked : ℕ → ℕ → Prop} {r : Except Failure β}
    (h : FailsAs Failure.Typed r) :
    Fails (attempt r : Seeding σ ω β) (Failure.Regular asked) :=
  fun _ => h.mono fun _ => .typed

/-- What follows matters for the values only that the first computation may return. -/
theorem Fails.bind_of_yields {f : β → Seeding σ ω γ} {R : β → Prop} (ha : Fails a P)
    (hR : Yields a R) (hf : ∀ v, R v → Fails (f v) P) : Fails (a >>= f) P := by
  intro s
  cases hrun : a.run s with
  | mk r t =>
    cases r with
    | error e =>
      rw [run_bind_of_error s hrun]
      exact .error (ha s e (congrArg Prod.fst hrun))
    | ok v =>
      rw [run_bind_of_ok s hrun]
      exact hf v (hR s v (congrArg Prod.fst hrun)) t

theorem Fails.bind {f : β → Seeding σ ω γ} (ha : Fails a P) (hf : ∀ v, Fails (f v) P) :
    Fails (a >>= f) P :=
  ha.bind_of_yields (R := fun _ => True) (.of_forall fun _ => trivial) fun v _ => hf v

theorem Fails.mapM {f : γ → Seeding σ ω β} (h : ∀ v, Fails (f v) P) :
    ∀ vs : List γ, Fails (vs.mapM f) P
  | [] => by simpa only [List.mapM_nil] using fails_pure []
  | v :: vs => by
    simp only [List.mapM_cons]
    exact (h v).bind fun _ => (Fails.mapM h vs).bind fun _ => fails_pure _

theorem Fails.foldlM {f : β → γ → Seeding σ ω β} (h : ∀ b v, Fails (f b v) P) :
    ∀ (vs : List γ) (b : β), Fails (vs.foldlM f b) P
  | [], b => fails_pure b
  | v :: vs, b => (h b v).bind fun b' => Fails.foldlM h vs b'

/-- A handler changes the failures one by one. -/
theorem Fails.tryCatch (ha : Fails a P) {handler : Failure → Seeding σ ω β}
    (hh : ∀ f, P f → Fails (handler f) Q) : Fails (tryCatch a handler) Q := by
  intro s
  rw [run_tryCatch]
  cases hrun : a.run s with
  | mk r t =>
    cases r with
    | error f => exact hh f (ha s f (congrArg Prod.fst hrun)) t
    | ok v => exact .ok v

end Rules

/-! ### Draws -/

section Draws

variable {σ ω : Type} [Source σ ω] {P : Failure → Prop}

theorem fails_coin : Fails (coin : Seeding σ ω ω) P := fun _ => .ok _

theorem fails_pick (masses : List ω) : Fails (pick masses : Seeding σ ω ℕ) P := fun _ => .ok _

section GivesUp

variable (hP : Source.GivesUp σ → P .stalled)
include hP

theorem fails_index (top : ℕ) : Fails (index top : Seeding σ ω ℕ) P := by
  intro s
  dsimp only [index, ExceptT.run, ExceptT.mk]
  split
  · exact .ok _
  · exact .error (hP ⟨top, s.source, ‹_›⟩)

theorem fails_sampleRows (n k : ℕ) : Fails (sampleRows n k : Seeding σ ω (List ℕ)) P := by
  unfold sampleRows
  split_ifs
  · exact (Fails.mapM (fails_index hP) _).bind fun _ => fails_pure _
  · exact (Fails.mapM (fails_index hP) _).bind fun _ => (fails_record _).bind fun _ =>
      fails_pure _

variable {α : Type} [Scalar ω] [Widening α ω]

theorem fails_proportional (mass : List α) : Fails (proportional mass : Seeding σ ω ℕ) P := by
  unfold proportional
  dsimp only
  split_ifs
  · exact fails_pick _
  · exact fails_index hP _

variable [Scalar α]

theorem fails_morePicks (x : Matrix α) (weights : List α) : ∀ (count : ℕ) (s : Picks α),
    Fails (morePicks x weights count s : Seeding σ ω (Picks α)) P
  | 0, s => fails_pure s
  | count + 1, _ =>
    ((fails_proportional hP _).bind fun _ => fails_pure _).bind fun s' =>
      fails_morePicks x weights count s'

/-- Greedy seeding asks for its centroids, and for a weight and a gap for each row. -/
theorem fails_plusPlus [Memory] {x : Matrix α} {k : ℕ}
    (hvalues : FailsAs P (Memory.storage (Scalar.bytes α) (sizeWord (k * x.cols))))
    (hrows : FailsAs P (Memory.storage (Scalar.bytes α) x.rows)) (weights : Option (List α)) :
    Fails (plusPlus x weights k : Seeding σ ω (Matrix α)) P := by
  unfold plusPlus firstPick
  refine (fails_attempt hvalues).bind fun _ => (fails_attempt hrows).bind fun _ => ?_
  refine ((fails_proportional hP _).bind fun _ => fails_pure _).bind fun first => ?_
  exact (fails_attempt hrows).bind fun _ =>
    (fails_morePicks hP x _ _ first).bind fun _ => fails_pure _

end GivesUp

section Regular

variable [Memory] {asked : ℕ → ℕ → Prop}

theorem fails_unused (top : ℕ) (used : Std.TreeSet ℕ) :
    ∀ tries, Fails (unused top used tries : Seeding σ ω ℕ) (Failure.Regular asked)
  | 0 => fails_throw .stalled
  | tries + 1 => by
    unfold unused
    refine (fails_index (fun _ => .stalled) top).bind fun r => ?_
    split_ifs
    · exact fails_unused top used tries
    · exact fails_pure r

theorem fails_pad (n : ℕ) : ∀ (count : ℕ) (used : Std.TreeSet ℕ),
    Fails (pad n count used : Seeding σ ω (List ℕ)) (Failure.Regular asked)
  | 0, _ => fails_pure _
  | count + 1, used => by
    unfold pad
    split_ifs
    · exact (fails_unused _ _ _).bind fun r => (fails_pad n count _).bind fun _ => fails_pure _
    · exact (fails_index (fun _ => .stalled) _).bind fun r => (fails_pad n count _).bind fun _ =>
        fails_pure _

end Regular

variable {α : Type} [Scalar α] [Scalar ω] [Widening α ω]

theorem fails_tossRows (expected potential : ω) (taken : List ℕ) :
    ∀ rows : List (ℕ × ω × α),
      Fails (tossRows expected potential taken rows : Seeding σ ω (List ℕ)) P
  | [] => fails_pure _
  | (i, weight, gap) :: rows => by
    have ih := fails_tossRows expected potential taken rows
    unfold tossRows
    split_ifs
    · exact ih
    · dsimp only
      split_ifs
      · exact fails_coin.bind fun _ => ih.bind fun _ => fails_pure _
      · exact ih

theorem fails_foundRows (n : ℕ) (weights : List ω) (expected : ω) (c : Candidates α) :
    Fails (foundRows n weights expected c : Seeding σ ω (List ℕ)) P := by
  unfold foundRows
  split_ifs
  · exact fails_tossRows _ _ _ _
  · exact fails_pure _

end Draws

/-! ### Starts and runs -/

/-- The requests of a fit to `k` clusters of `n` rows with `d` columns whose refusal is passed on:
for indices, for rows and for the gaps of candidates, and for a copy of the centroids. -/
inductive Asked (α : Type) [Scalar α] (k n d : ℕ) : (width count : ℕ) → Prop
  | indices : Asked α k n d indexBytes k
  | values {rows : ℕ} (h : rows ≤ max k (candidateLimit n)) :
      Asked α k n d (Scalar.bytes α) (sizeWord (rows * d))
  | gaps {rows : ℕ} (h : rows ≤ candidateLimit n) : Asked α k n d (Scalar.bytes α) rows
  | copy : Asked α k n d (Scalar.bytes α) (spanWord (Scalar.bytes α) (sizeWord (k * d)))

section Starts

variable {α σ ω : Type} [Scalar α] [Scalar ω] [Widening α ω] [Source σ ω] [Memory]
  (e : Kernel) (x : Matrix α) (weights : Option (List α)) {k : ℕ}

/-- Storage for rows that were drawn. -/
theorem failsAs_pick?_asked {indices : List ℕ}
    (h : indices.length ≤ max k (candidateLimit x.rows)) :
    FailsAs (Failure.Regular (Asked α k x.rows x.cols)) (x.pick? indices) :=
  failsAs_pick? (.values h)

theorem failsAs_copy?_asked {c : Matrix α} (hc : c.HasShape k x.cols) :
    FailsAs (Failure.Regular (Asked α k x.rows x.cols)) c.copy? := by
  refine failsAs_copy? ?_
  rw [Matrix.shapeSize, hc.rows_eq, hc.cols_eq]
  exact .copy

variable [BlockProduct α]

theorem fails_sampleRound (ws : List ω) (expected : ω) (c : Candidates α) (number : ℕ) :
    Fails (sampleRound e x ws expected c number : Seeding σ ω (Candidates α))
      (Failure.Regular (Asked α k x.rows x.cols)) := by
  rw [sampleRound_eq]
  refine (fails_foundRows _ _ _ _).bind_of_yields (yields_length_foundRows x.rows ws expected c)
    fun found hlength => ?_
  unfold joinRound
  split_ifs with hfound
  · exact (fails_record _).bind fun _ => fails_pure _
  · have hlimit : found.length ≤ max k (candidateLimit x.rows) := by
      rw [candidateLimit, Oversampling.rounds]
      omega
    refine (fails_attempt (failsAs_pick?_asked x hlimit)).bind_of_yields (yields_pick? _ _) ?_
    rintro _ rfl
    have hpos : 0 < (x.pick found).rows := Matrix.rows_pick_pos (by simpa using hfound)
    exact (fails_attempt_typed (e.direct.failsAs_nearest hpos)).bind fun _ =>
      (fails_record _).bind fun _ => fails_pure _

theorem fails_candidates (expected : ω) :
    Fails (candidates e x weights expected : Seeding σ ω (Candidates α))
      (Failure.Regular (Asked α k x.rows x.cols)) := by
  have hfirst : Fails (firstCandidate e x : Seeding σ ω (Candidates α))
      (Failure.Regular (Asked α k x.rows x.cols)) := by
    unfold firstCandidate
    refine (fails_index (fun _ => .stalled) _).bind fun first =>
      (fails_attempt_typed (failsAs_buffer _ _ _).typed).bind fun _ => ?_
    refine (fails_attempt (failsAs_pick?_asked x (le_max_of_le_right ?_))).bind_of_yields
      (yields_pick? _ _) ?_
    · exact Nat.le_add_left _ _
    · rintro _ rfl
      exact (fails_attempt_typed (e.direct.failsAs_nearest (by simp))).bind fun _ => fails_pure _
  exact hfirst.bind fun first =>
    Fails.foldlM (fun c i => fails_sampleRound e x _ expected c (i + 1)) _ first

theorem fails_weighCandidates {indices : List ℕ} (hpos : 0 < indices.length)
    (hlimit : indices.length ≤ candidateLimit x.rows) :
    Fails (weighCandidates e x weights k indices : Seeding σ ω (Reduction α))
      (Failure.Regular (Asked α k x.rows x.cols)) := by
  unfold weighCandidates
  refine (fails_attempt (failsAs_pick?_asked x (le_max_of_le_right hlimit))).bind_of_yields
    (yields_pick? _ _) ?_
  rintro _ rfl
  have hrows : (x.pick indices).rows = indices.length := Matrix.rows_pick
  have hcols : (x.pick indices).cols = x.cols := Matrix.cols_pick
  have hseeds : ∀ ws, Fails (plusPlus (x.pick indices) ws k : Seeding σ ω (Matrix α))
      (Failure.Regular (Asked α k x.rows x.cols)) :=
    fails_plusPlus (fun _ => .stalled) (failsAs_storage (hcols.symm ▸ .values (le_max_left _ _)))
      (failsAs_storage (hrows.symm ▸ .gaps hlimit))
  exact (fails_attempt_typed (failsAs_buffer _ _ _).typed).bind fun _ =>
    (fails_attempt_typed (e.direct.failsAs_sweep (hrows.symm ▸ hpos))).bind fun _ =>
      (hseeds _).bind fun _ => fails_pure _

omit [Source σ ω] in
/-- A refinement by a new refiner that may make an iteration. -/
theorem fails_refine (asked : ℕ → ℕ → Prop) {start : Matrix α} (hk : 0 < k)
    (hstart : start.HasShape k x.cols) {maxIterations : ℕ} (hmax : maxIterations ≠ 0)
    (tolerance : ω) (checkInertia : Bool) :
    Fails (attempt (Refiner.new? e maxIterations tolerance checkInertia) >>= fun r =>
      refine r x weights start : Seeding σ ω (Refined α ω)) (Failure.Regular asked) := by
  unfold Refiner.new?
  rw [if_neg hmax]
  have hrun : ∀ r : Refiner ω, FailsAs (Failure.Regular asked) (r.run x weights start).1 :=
    fun r => r.failsAs_run weights (hstart.rows_eq.symm ▸ hk) hstart.cols_eq
  exact (fails_attempt (.ok _)).bind fun r =>
    (fails_record _).bind fun _ => fails_attempt (hrun r)

theorem fails_reduce (hk : 0 < k) {indices : List ℕ} (hpos : 0 < indices.length)
    (hlimit : indices.length ≤ candidateLimit x.rows) (tolerance : ω) :
    Fails (reduce e x weights tolerance k indices : Seeding σ ω (Refined α ω))
      (Failure.Regular (Asked α k x.rows x.cols)) := by
  unfold reduce
  refine (fails_weighCandidates e x weights hpos hlimit).bind_of_yields
    (yields_shape_weighCandidates e x weights _ _) fun r hr => ?_
  have hrefine := fails_refine (σ := σ) e r.rows (some r.weights) (Asked α k x.rows x.cols) hk
    (hr.1.cols_eq.symm ▸ hr.2) (by decide : Oversampling.reductionIterations ≠ 0) tolerance true
  simpa only [bind_assoc] using hrefine.bind fun refined =>
    (fails_record [.reduced r.rows.rows k refined.iterations]).bind fun _ => fails_pure refined

variable (p : Params ω) (hk : 0 < p.clusters)
include hk

theorem fails_oversample :
    Fails (oversample p e x weights : Seeding σ ω (Matrix α × SeedStats))
      (Failure.Regular (Asked α p.clusters x.rows x.cols)) := by
  unfold oversample
  refine (fails_candidates e x weights _).bind_of_yields
    (yields_length_candidates e x weights _) fun c hlimit => ?_
  dsimp only
  split_ifs with hless heq
  · refine (fails_record _).bind fun _ => (fails_pad _ _ _).bind_of_yields
      (yields_length_pad _ _ _) fun more hmore => ?_
    refine (fails_attempt (failsAs_pick?_asked x (le_max_of_le_left ?_))).bind fun _ => fails_pure _
    rw [List.length_append, hmore]
    omega
  · exact (fails_attempt (failsAs_pick?_asked x (le_max_of_le_left heq.le))).bind fun _ =>
      fails_pure _
  · exact (fails_reduce e x weights hk (by omega) hlimit _).bind fun _ => fails_pure _

theorem fails_start (array : Matrix α) :
    Fails (start p e x weights array : Seeding σ ω (Matrix α × SeedStats))
      (Failure.Regular (Asked α p.clusters x.rows x.cols)) := by
  unfold start
  cases p.method with
  | array =>
    refine Fails.bind (fails_attempt ?_) fun _ => fails_pure _
    unfold startFromArray
    split_ifs with hrows hcols
    · exact .error (.typed rfl)
    · exact .error (.typed rfl)
    · exact failsAs_copy?_asked x ⟨not_not.mp hrows, not_not.mp hcols⟩
  | random =>
    refine Fails.bind ?_ fun _ => fails_pure _
    unfold startFromRows
    refine (fails_attempt (failsAs_reserve .indices)).bind fun _ =>
      (fails_sampleRows (fun _ => .stalled) _ _).bind_of_yields (yields_length_sampleRows _ _)
        fun is his => ?_
    exact fails_attempt (failsAs_pick?_asked x (le_max_of_le_left his.le))
  | scalable => exact fails_oversample e x weights p hk
  | unsupported => exact fails_throw (.typed rfl)

variable (hmax : p.maxIterations ≠ 0)
include hmax

theorem fails_fitRun (array : Matrix α) (r : ℕ) :
    Fails (fitRun p e x weights array r : Seeding σ ω (Fit α ω))
      (Failure.Regular (Asked α p.clusters x.rows x.cols)) := by
  unfold fitRun
  refine (fails_restart _).bind fun _ => (fails_start e x weights p hk array).bind_of_yields
    (yields_shape_start p e x weights array) fun cs hc => ?_
  have hrefine := fails_refine (σ := σ) e x weights (Asked α p.clusters x.rows x.cols) hk hc hmax
    p.tolerance p.checkInertia
  simpa only [bind_assoc] using hrefine.bind fun refined =>
    (fails_record [.runEnded (r + 1) p.fitRuns refined.phase refined.iterations
      (widen refined.inertia)]).bind fun _ =>
        fails_pure ({ refined with seeding := cs.2, run := r } : Fit α ω)

theorem fails_keepBest (array : Matrix α) : ∀ (left r : ℕ) (best : Fit α ω),
    Fails (keepBest p e x weights array left r best : Seeding σ ω (Fit α ω))
      (Failure.Regular (Asked α p.clusters x.rows x.cols))
  | 0, _, best => fails_pure best
  | left + 1, r, _ => (fails_fitRun e x weights p hk hmax array r).bind fun _ =>
    fails_keepBest array left (r + 1) _

theorem fails_bestRun (array : Matrix α) :
    Fails (bestRun p e x weights array : Seeding σ ω (Fit α ω))
      (Failure.Regular (Asked α p.clusters x.rows x.cols)) := by
  unfold bestRun
  refine (fails_fitRun e x weights p hk hmax array 0).bind fun first =>
    (fails_keepBest e x weights p hk hmax array _ 1 first).bind fun best => ?_
  split_ifs
  · exact (fails_record _).bind fun _ => fails_pure best
  · exact fails_pure best

end Starts

end Seeding

end Clustering
