import Clustering.Proofs.Calls
import Clustering.Proofs.Seeding.Failures

/-!
# The failures that leave a call

A model that was built from valid parameters, and on which only calls were made, has valid
parameters and, once fitted, centroids (`Model.Reachable.sound`).  So the parts of a call are used
as they ask to be used, and a call fails in a class that callers are told of, with two exceptions
(`Failure.Leaves`): draws that do not end, where nothing leaves; and requests for memory that are
longer than any sequence, which fits and distances pass on as they are (`Model.Asks`).  Exhausted
memory never leaves as such.

The second exception is real: a fit that draws rows sets aside room for as many indices as there are
clusters, and passes the refusal on (`Model.Ready.fit_overlong`).
-/

namespace Clustering

/-- The failures that calls are documented to end in: those of a class of their own, and missing
values of the data. -/
def Failure.Documented (f : Failure) : Prop := f.Typed ∨ ∃ op, f = .missingData op

/-- How a call may fail, where `asked` are the requests for memory whose refusal it passes on. -/
inductive Failure.Leaves [Memory] (action : Action) (asked : ℕ → ℕ → Prop) : Failure → Prop
  | documented {f : Failure} (h : f.Documented) : Leaves action asked f
  | stalled (h : action.fits = true) : Leaves action asked .stalled
  | overlong {f : Failure} (hf : f.kind = .length) {width count : ℕ} (ha : asked width count)
      (h : Memory.refuse width count = some .overlong) : Leaves action asked f

/-- Once exhausted memory is reported as a lack of resources, what is left of the failures of a
computation leaves the call. -/
theorem Failure.Regular.leaves [Memory] {asked asked' : ℕ → ℕ → Prop} {f : Failure}
    (h : f.Regular asked) (hf : f.kind ≠ .memory) {action : Action} (haction : action.fits = true)
    (hasked : ∀ width count, asked width count → asked' width count) : f.Leaves action asked' := by
  cases h with
  | typed h => exact .documented (.inl h)
  | stalled => exact .stalled haction
  | exhausted => exact absurd rfl hf
  | overlong hf ha h => exact .overlong hf (hasked _ _ ha) h

variable {E : Precision → Type} {ω σ : Type}

/-- A failure that seeding may have is passed on, unless memory is exhausted. -/
theorem Seeding.fails_reportLack [Memory] {α β : Type} (x : Matrix α) (clusters : ℕ)
    {action : Action} (haction : action.fits = true) {asked asked' : ℕ → ℕ → Prop}
    (hasked : ∀ width count, asked width count → asked' width count) {f : Failure}
    (hf : f.Regular asked) :
    Fails (reportLack x clusters f : Seeding σ ω β) (Failure.Leaves action asked') := by
  unfold Seeding.reportLack
  split
  · exact (Seeding.fails_record _).bind fun _ =>
      Seeding.fails_throw (hf.leaves (by simp [*]) haction hasked)
  · exact (Seeding.fails_record _).bind fun _ =>
      Seeding.fails_throw (.documented (.inl rfl))
  · rename_i hmemory
    exact Seeding.fails_throw (hf.leaves hmemory haction hasked)

/-- A fit has centroids of the shape that it starts from. -/
theorem Fit.RefinedFrom.hasShape [Memory] {α : Type} [Scalar α] [Scalar ω] [Widening α ω]
    [BlockProduct α] {e : Kernel} {x : Matrix α} {weights : Option (List α)} {f : Fit α ω}
    {k d : ℕ} (h : f.RefinedFrom (·.HasShape k d) e x weights) : f.centroids.HasShape k d := by
  obtain ⟨r, c, -, hc, hrun⟩ := h
  exact Refiner.hasShape_of_run hc hrun

/-! ### Checks -/

namespace Model

theorem failsAs_centroidsFor (m : Model E ω) (op : String) (p : Precision) :
    FailsAs Failure.Typed (m.centroidsFor op p) := by
  unfold centroidsFor
  split
  · exact .error rfl
  · split_ifs
    · exact .ok _
    · exact .error rfl

theorem failsAs_startFor (m : Model E ω) (p : Precision) :
    FailsAs Failure.Typed (m.startFor p) := by
  unfold startFor
  split
  · exact .ok _
  · split_ifs
    · exact .ok _
    · exact .error rfl

variable {α : Type}

theorem failsAs_checkData (op : String) (width : Option ℕ) (x : Dataset α) :
    FailsAs Failure.Documented (checkData op width x) := by
  unfold checkData
  split_ifs
  · exact .error (.inl rfl)
  · split
    · split_ifs
      · exact .ok _
      · exact .error (.inl rfl)
    · exact .ok _
  · exact .error (.inr ⟨op, rfl⟩)

variable [Scalar α]

theorem failsAs_checkWeights (op : String) (weights : Option (List α)) :
    FailsAs Failure.Typed (checkWeights op weights) := by
  unfold checkWeights
  split
  · exact .ok _
  · split
    · exact .error rfl
    · exact .ok _

omit [Scalar α] in
theorem failsAs_checkTotal [Scalar ω] [Widening α ω] (op : String) (weights : Option (List α)) :
    FailsAs Failure.Typed (checkTotal op weights) := by
  unfold checkTotal
  split
  · exact .ok _
  · split_ifs
    · exact .ok _
    · exact .error rfl

end Model

/-! ### Models that calls can reach -/

section Valid

variable [Scalar ω]

/-- Valid parameters ask for a cluster, an iteration and a row per batch. -/
theorem Params.positive_of_valid {p : Params ω} (h : p.fault? = none) :
    0 < p.clusters ∧ p.maxIterations ≠ 0 ∧ 0 < p.batchRows := by
  unfold fault? at h
  split_ifs at h
  omega

theorem Params.runs_pos_of_valid {p : Params ω} (h : p.fault? = none) : 0 < p.runs := by
  unfold fault? at h
  split_ifs at h
  omega

theorem Params.fault?_of_validate {p : Params ω} (h : p.validate = .ok ()) : p.fault? = none := by
  unfold validate at h
  split at h
  · assumption
  · cases h

end Valid

namespace Model

/-- The parameters are valid, and a fitted model has a centroid for each cluster. -/
structure Sound [Scalar ω] (m : Model E ω) : Prop where
  valid : m.params.fault? = none
  centroids : ∀ f, m.fitted = some f → f.centroids.rows = m.params.clusters

theorem Sound.rows_eq [Scalar ω] {m : Model E ω} (hm : m.Sound) {op : String} {p : Precision}
    {c : Matrix (E p)} (h : m.centroidsFor op p = .ok c) : c.rows = m.params.clusters := by
  unfold centroidsFor at h
  split at h
  · cases h
  · split_ifs at h with hp
    subst hp
    cases h
    exact hm.centroids _ ‹_›

theorem Sound.rows_pos [Scalar ω] {m : Model E ω} (hm : m.Sound) {op : String} {p : Precision}
    {c : Matrix (E p)} (h : m.centroidsFor op p = .ok c) : 0 < c.rows :=
  (hm.rows_eq h).symm ▸ (Params.positive_of_valid hm.valid).1

theorem Sound.kernel [Scalar ω] {m : Model E ω} (hm : m.Sound) : ∃ e, m.kernel = .ok e :=
  ⟨_, dif_pos (Params.positive_of_valid hm.valid).2.2⟩

variable [∀ p, Scalar (E p)] [Scalar ω] [∀ p, Widening (E p) ω] [∀ p, BlockProduct (E p)]
  [Source σ ω]

/-- The models that are built from parameters, and those that fits make of them.  Each step finds a
memory of its own. -/
inductive Reachable (σ : Type) [Source σ ω] : Model E ω → Prop
  | new {params : Params ω} {m : Model E ω} (h : new? params = .ok m) : Reachable σ m
  | withStart [Memory] {params : Params ω} {p : Precision} {array : Dataset (E p)} {m : Model E ω}
      (h : withStart? params p array = .ok m) : Reachable σ m
  | fit [Memory] {m : Model E ω} (hm : Reachable σ m) (p : Precision) (x : Dataset (E p))
      (weights : Option (List (E p))) : Reachable σ (m.fit σ p x weights).model

/-- The centroids that a fit returns are as many as the clusters, whatever the source draws. -/
theorem yields_shape_computeFit [Memory] (m : Model E ω) (p : Precision) (x : Dataset (E p))
    (weights : Option (List (E p))) :
    Seeding.Yields (m.computeFit p x weights : Seeding σ ω (Fit (E p) ω)) fun f =>
      f.centroids.HasShape m.params.clusters x.table.cols := by
  refine (yields_computeFit (C := fun c => c.HasShape m.params.clusters x.table.cols)
    fun array e _ _ => Seeding.yields_shape_start m.params e x.table weights array).mono ?_
  rintro f ⟨-, -, e, -, hf⟩
  exact hf.hasShape

theorem Reachable.sound {m : Model E ω} (h : m.Reachable σ) : m.Sound := by
  induction h with
  | @new params m h =>
    obtain ⟨_, hvalid, h⟩ := Kernel.exists_of_bind_ok h
    split_ifs at h
    · cases h
    · cases h
      exact ⟨Params.fault?_of_validate hvalid, nofun⟩
  | @withStart _ params p array m h =>
    obtain ⟨_, hvalid, h⟩ := Kernel.exists_of_bind_ok h
    dsimp only at h
    split at h
    · cases h
    split at h
    · cases h
    split at h
    · cases h
    obtain ⟨c, -, h⟩ := Kernel.exists_of_bind_ok h
    cases h
    exact ⟨Params.fault?_of_validate hvalid, nofun⟩
  | @fit _ m hm p x weights ih =>
    cases hresult : (m.fit σ p x weights).result with
    | error f => rwa [fit_of_error m p x weights hresult]
    | ok f =>
      rw [fit_of_ok m p x weights hresult]
      refine ⟨ih.valid, ?_⟩
      rintro _ ⟨⟩
      rw [result_fit] at hresult
      exact (m.yields_shape_computeFit p x weights _ _ hresult).rows_eq

/-! ### Answers -/

section Answers

variable [Memory] {m : Model E ω} {p : Precision}

variable (x : Dataset (E p)) (weights : Option (List (E p)))

omit [∀ p, Widening (E p) ω] in
theorem Sound.failsAs_predict (hm : m.Sound) :
    FailsAs Failure.Documented (m.predict p x weights) := by
  unfold predict
  refine (failsAs_centroidsFor m _ p).mono (fun _ => .inl) |>.bind fun c hc => ?_
  refine (failsAs_checkData _ _ x).bind fun _ _ => ?_
  refine (failsAs_checkWeights _ weights).mono (fun _ => .inl) |>.bind fun _ _ => ?_
  obtain ⟨e, he⟩ := hm.kernel
  have hassign : FailsAs Failure.Typed (e.assign x.table c weights) := by
    unfold Kernel.assign
    split_ifs
    · exact .error rfl
    · exact (failsAs_buffer _ _ _).typed.bind fun _ _ =>
        (e.failsAs_sweep (hm.rows_pos hc)).bind fun _ _ => .ok _
  rw [he]
  dsimp only [Except.bind]
  split
  · exact .error (.inl rfl)
  · exact hassign.mono fun _ => .inl

omit [∀ p, Widening (E p) ω] in
/-- Distances fail as documented, or because the table of distances would be too long. -/
theorem Sound.failsAs_transform (hm : m.Sound) {action : Action} {asked : ℕ → ℕ → Prop}
    (ha : asked (Scalar.bytes (E p)) (sizeWord (x.table.rows * m.params.clusters))) :
    FailsAs (Failure.Leaves action asked) (m.transform p x) := by
  have htyped : ∀ f : Failure, f.Typed → f.Leaves action asked :=
    fun f hf => .documented (.inl hf)
  unfold transform
  refine (failsAs_centroidsFor m _ p).mono htyped |>.bind fun c hc => ?_
  refine (failsAs_checkData _ _ x).mono (fun _ => .documented) |>.bind fun _ _ => ?_
  obtain ⟨e, he⟩ := hm.kernel
  rw [he]
  show FailsAs _ (e.distanceMatrix x.table c)
  unfold Kernel.distanceMatrix Memory.storageOr
  rw [hm.rows_eq hc]
  split_ifs
  · exact .error (htyped _ rfl)
  refine FailsAs.bind ?_ fun _ _ => ?_
  · split
    · exact .ok _
    · exact .error (.overlong rfl ha ‹_›)
    · exact .error (htyped (.distanceMatrix _ _) rfl)
  · exact ((e.failsAs_pairwise (hm.rows_pos hc) true).mono htyped).bind fun _ _ => .ok _

end Answers

/-! ### Fits -/

section Fits

variable [Memory] {m : Model E ω} {p : Precision}

/-- Fits fail as documented, or because their draws do not end, or because something that they keep
would be too long. -/
theorem Sound.failsAs_fit (hm : m.Sound) (x : Dataset (E p)) (weights : Option (List (E p)))
    {action : Action} (haction : action.fits = true) {asked : ℕ → ℕ → Prop}
    (ha : ∀ width count,
      Seeding.Asked (E p) m.params.clusters x.table.rows x.table.cols width count →
        asked width count) :
    FailsAs (Failure.Leaves action asked) (m.fit σ p x weights).result := by
  have htyped : ∀ {β : Type} {r : Except Failure β}, FailsAs Failure.Typed r →
      Seeding.Fails (Seeding.attempt r : Seeding σ ω β) (Failure.Leaves action asked) :=
    fun h => Seeding.fails_attempt (h.mono fun _ hf => .documented (.inl hf))
  have hcompute : Seeding.Fails (m.computeFit p x weights : Seeding σ ω (Fit (E p) ω))
      (Failure.Leaves action asked) := by
    unfold computeFit
    refine (htyped (failsAs_startFor m p)).bind fun array => ?_
    refine (Seeding.fails_attempt ((failsAs_checkData _ _ x).mono fun _ => .documented)).bind
      fun _ => ?_
    refine (htyped (failsAs_checkWeights _ weights)).bind fun _ =>
      (htyped (failsAs_checkTotal _ weights)).bind fun _ => ?_
    refine (Seeding.fails_record _).bind fun _ => ?_
    -- from here on a refused buffer is caught and reported, so the kind of the failure changes
    unfold Seeding.reportingLack
    refine Seeding.Fails.tryCatch ?_ fun f hf =>
      Seeding.fails_reportLack x.table _ haction ha hf
    obtain ⟨e, he⟩ := hm.kernel
    obtain ⟨hk, hmax, -⟩ := Params.positive_of_valid hm.valid
    rw [he, Seeding.attempt_ok, pure_bind]
    have hstart := Seeding.yields_shape_start (σ := σ) m.params e x.table weights array
    exact (Seeding.fails_bestRun e x.table weights m.params hk hmax array).bind_of_yields
      (Seeding.yields_bestRun fun r => Seeding.yields_fitRun hstart r) fun f hf =>
        (Seeding.fails_attempt (Seeding.failsAs_copy?_asked x.table hf.hasShape)).bind fun _ =>
          Seeding.fails_pure f
  rw [result_fit]
  exact hcompute _

end Fits

/-- The requests for memory of a call whose refusal it passes on: those of a fit, and the table of
distances. -/
inductive Asks (m : Model E ω) (action : Action) (p : Precision) (x : Dataset (E p)) :
    (width count : ℕ) → Prop
  | fit (haction : action.fits = true) {width count : ℕ}
      (h : Seeding.Asked (E p) m.params.clusters x.table.rows x.table.cols width count) :
      Asks m action p x width count
  | distances (haction : action = .transform ∨ action = .fitTransform) :
      Asks m action p x (Scalar.bytes (E p)) (sizeWord (x.table.rows * m.params.clusters))

theorem params_fit [Memory] (m : Model E ω) (p : Precision) (x : Dataset (E p))
    (weights : Option (List (E p))) : (m.fit σ p x weights).model.params = m.params := by
  cases h : (m.fit σ p x weights).result with
  | error f => rw [fit_of_error m p x weights h]
  | ok f =>
    rw [fit_of_ok m p x weights h]
    rfl

/-- Where a call on a model fails, it is in a documented class; or it is in a fit whose draws do not
end; or one of the requests for memory whose refusal it passes on is longer than any sequence.  A
call that predicts or scores has no such requests. -/
theorem failures_of_call [Memory] {m : Model E ω} (hm : m.Reachable σ) {action : Action}
    (haction : action ≠ .clusterStats) (p : Precision) (x : Dataset (E p))
    (weights : Option (List (E p))) {f : Failure}
    (h : (m.call σ action p x weights).result = .error f) :
    f.Leaves action (m.Asks action p x) := by
  have hsound := hm.sound
  have hfit : action.fits = true →
      FailsAs (Failure.Leaves action (m.Asks action p x)) (m.fit σ p x weights).result :=
    fun ha => hsound.failsAs_fit x weights ha fun _ _ => .fit ha
  have hpredict : FailsAs (Failure.Leaves action (m.Asks action p x)) (m.predict p x weights) :=
    (hsound.failsAs_predict x weights).mono fun _ => .documented
  revert f
  show FailsAs _ _
  cases action with
  | fit => exact (hfit rfl).map _
  | predict => exact hpredict.map _
  | transform => exact (hsound.failsAs_transform x (.distances (.inl rfl))).map _
  | fitPredict => exact ((hfit rfl).map _).map _
  | fitTransform =>
    refine ((hfit rfl).bind fun f hf => ?_).map _
    refine (hm.fit p x weights).sound.failsAs_transform x ?_
    rw [params_fit]
    exact .distances (.inr rfl)
  | score => exact (hpredict.bind fun _ _ => .ok _).map _
  | clusterStats => exact absurd rfl haction

/-- A fit that draws rows passes on that there is no room for as many indices as clusters. -/
theorem Ready.fit_overlong [Memory] {m : Model E ω} {p : Precision} {x : Dataset (E p)}
    {weights : Option (List (E p))} {array : Matrix (E p)} {e : Kernel}
    (h : m.Ready p x weights array e) (hmethod : m.params.method = .random)
    (hmem : Memory.refuse Seeding.indexBytes m.params.clusters = some .overlong) :
    (m.fit σ p x weights).result = .error .overlongReserve := by
  have hreserve :
      Memory.reserve Seeding.indexBytes m.params.clusters = .error .overlongReserve := by
    rw [Memory.reserve, hmem]
  have hstart : (Seeding.start m.params e x.table weights array :
      Seeding σ ω (Matrix (E p) × SeedStats)) = throw .overlongReserve := by
    unfold Seeding.start Seeding.startFromRows
    rw [hmethod, hreserve]
    rfl
  have hfirst : (Seeding.bestRun m.params e x.table weights array : Seeding σ ω (Fit (E p) ω)) =
      Seeding.restart (Source.seed (m.params.seed + (0 : ℕ).toUInt64)) >>= fun _ =>
        throw .overlongReserve := by
    unfold Seeding.bestRun Seeding.fitRun
    rw [hstart]
    rfl
  rw [result_fit, computeFit, h.start, h.data, h.weighed, h.total, h.kernel]
  simp only [Seeding.attempt_ok, pure_bind, hfirst]
  rfl

end Model

/-! ### More clusters than there can be indices -/

namespace Model

/-- Parameters that ask for `2 ^ 60` clusters, and are valid. -/
def crowd : Params Float := { Params.standard with clusters := 2 ^ 60, method := .random }

/-- Two points on a line. -/
def twoPoints : Dataset (Precision.double.Machine) := ⟨⟨2, 1, [0, 1]⟩, true⟩

/-- The indices of `2 ^ 60` rows would take `2 ^ 63` bytes. -/
theorem fit_crowd : ((⟨crowd, none, none⟩ : Model Precision.Machine Float).call
    (Twister Twister.wide) .fit .double twoPoints none).result = .error .overlongReserve := by
  have hready : (⟨crowd, none, none⟩ : Model Precision.Machine Float).Ready .double twoPoints none
      .empty ⟨.unexpanded, 32768, 0, by decide⟩ := ⟨rfl, rfl, rfl, rfl, rfl⟩
  have hfit := hready.fit_overlong (σ := Twister Twister.wide) rfl (by decide)
  exact congrArg (Except.map Reply.fit) hfit

/-- This failure is of no documented class. -/
theorem undocumented_crowd :
    ∃ m : Model Precision.Machine Float, new? crowd = .ok m ∧ ∃ f : Failure,
      (m.call (Twister Twister.wide) .fit .double twoPoints none).result = .error f ∧
        ¬ f.Documented := by
  refine ⟨⟨crowd, none, none⟩, rfl, .overlongReserve, fit_crowd, ?_⟩
  rintro (htyped | ⟨op, hop⟩)
  · cases htyped
  · cases hop

theorem failures_of_call_crowd :
    ∃ f : Failure, ((⟨crowd, none, none⟩ : Model Precision.Machine Float).call
      (Twister Twister.wide) .fit .double twoPoints none).result = .error f ∧
        f.Leaves .fit (Asks ⟨crowd, none, none⟩ .fit .double twoPoints) :=
  ⟨_, fit_crowd, failures_of_call (.new (rfl : new? crowd = .ok _))
    (nofun : Action.fit ≠ .clusterStats) .double twoPoints none fit_crowd⟩

end Model

end Clustering
