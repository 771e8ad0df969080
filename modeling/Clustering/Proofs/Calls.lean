import Clustering.Model.Object
import Clustering.Proofs.Fits

/-!
# Calls on an object

What the fit of a call comes to depends on the parameters and the starting centroids of the object
(`Call.found`): no fit reads what an earlier one left.  If it fails, the object is as before, and
if it succeeds, all other members are written anew (`Object.run_fitStep`).  Answers only read.  So
one call leaves the object as it was or as its fit alone leaves a new object
(`Object.after_cases`), and by induction a sequence of calls leaves what its last successful fit
alone would (`Object.afterAll_eq`).

The centroids are then in the storage of the precision of this fit, as many as the clusters and as
wide as its data, and the other storage is empty (`Object.WellStored`).  So a storage may be read
without asking for the precision again (`Object.WellStored.stored_model`).

Without failures from outside, a call does to the model that is kept what the operations of
`Model` do (`Call.perform_implements`).
-/

namespace Clustering

variable {E : Precision → Type} {ω : Type}

/-! ### Steps -/

theorem Outcome.map_map {β γ δ : Type} (f : β → γ) (g : γ → δ) (o : Outcome E ω β) :
    (o.map f).map g = o.map (g ∘ f) := by
  obtain ⟨r, m, ns⟩ := o
  cases r <;> rfl

namespace Method

variable {β γ : Type}

theorem run_compute {σ : Type} [Source σ ω] (a : Model E ω → Seeding σ ω β) (s : Stage E ω) :
    (compute a).run s =
      (((a s.object.model).run ⟨Source.seed s.object.params.seed, s.notices⟩).1,
        { s with
          notices :=
            ((a s.object.model).run ⟨Source.seed s.object.params.seed, s.notices⟩).2.notices }) :=
  rfl

/-- A step that leaves the members as they are. -/
def Reads (a : Method E ω β) : Prop := ∀ s, (a.run s).2.object = s.object

theorem reads_pure (b : β) : (pure b : Method E ω β).Reads := fun _ => rfl

theorem reads_unlessCut {a : Method E ω β} (cut : Option Failure) (h : a.Reads) :
    (unlessCut cut a).Reads := by
  cases cut with
  | none => exact h
  | some f => exact fun _ => rfl

theorem reads_ask (question : Model E ω → Except Failure β) : (ask question).Reads := fun _ => rfl

/-- What reads only does not change the members that a first step leaves. -/
theorem object_bind {a : Method E ω β} {f : β → Method E ω γ} (h : ∀ b, (f b).Reads)
    (s : Stage E ω) : ((a >>= f).run s).2.object = (a.run s).2.object := by
  rw [run_bind]
  cases a.run s with
  | mk r t =>
    cases r with
    | error e => rfl
    | ok b => exact h b t

theorem Reads.bind {a : Method E ω β} {f : β → Method E ω γ} (ha : a.Reads)
    (hf : ∀ b, (f b).Reads) : (a >>= f).Reads :=
  fun s => (object_bind hf s).trans (ha s)

/-- What the steps of a call show: the result, the model that is kept then, and the notices. -/
def outcome (a : Method E ω β) (o : Object E ω) : Outcome E ω β :=
  ⟨(a.run ⟨o, []⟩).1, (a.run ⟨o, []⟩).2.object.model, (a.run ⟨o, []⟩).2.notices⟩

theorem outcome_map (a : Method E ω β) (g : β → γ) (o : Object E ω) :
    (do return g (← a) : Method E ω γ).outcome o = (a.outcome o).map g := by
  unfold outcome
  rw [run_bind]
  generalize a.run ⟨o, []⟩ = run
  obtain ⟨r, t⟩ := run
  cases r <;> rfl

/-- A question after other steps is one to the model that they leave. -/
theorem outcome_ask (a : Method E ω β) (question : Model E ω → Except Failure γ) (o : Object E ω) :
    (do let _ ← a; ask question : Method E ω γ).outcome o =
      { a.outcome o with
        result := (a.outcome o).result.bind fun _ => question (a.outcome o).model } := by
  unfold outcome
  rw [run_bind]
  generalize a.run ⟨o, []⟩ = run
  obtain ⟨r, t⟩ := run
  cases r <;> rfl

end Method

/-! ### The members after a fit -/

namespace Object

variable [Scalar ω] [∀ p, Widening (E p) ω]

omit [∀ p, Widening (E p) ω] in
/-- The object as it was when it was new. -/
def asNew (o : Object E ω) : Object E ω := fresh o.params o.start

/-- An object that keeps a fit.  Only parameters and starting centroids are older than the fit. -/
def kept (params : Params ω) (start : Option (StartArray E)) (p : Precision) (features : ℕ)
    (f : Fit (E p) ω) : Object E ω :=
  { (fresh params start).store p f.centroids with
    isFitted := true
    precision := p
    features := features
    iterations := f.iterations
    inertia := widen f.inertia }

variable {params : Params ω} {start : Option (StartArray E)} {p : Precision} {features : ℕ}
  {f : Fit (E p) ω}

theorem asNew_kept : (kept params start p features f).asNew = fresh params start := by
  cases p <;> rfl

/-- The model that is kept is the one that the fit was to leave. -/
theorem model_kept (o : Object E ω) :
    (kept o.params o.start p features f).model = o.model.commit p features f := by
  cases p <;> rfl

/-- The writes of a fit leave nothing of an earlier one. -/
theorem run_keep (p : Precision) (features : ℕ) (f : Fit (E p) ω) (s : Stage E ω) :
    (keep p features f).run s =
      (.ok (), { s with object := kept s.object.params s.object.start p features f }) := by
  cases p <;> rfl

/-- The centroids of the fit that is kept are in the storage of its precision, and nothing is in
the other one. -/
structure WellStored (o : Object E ω) : Prop where
  fitted : o.isFitted = true →
    (o.storage o.precision).Full ∧ (o.storage o.precision).rows = o.params.clusters ∧
      (o.storage o.precision).cols = o.features ∧ o.storage o.precision.other = .empty
  unfitted : o.isFitted = false → ∀ p, o.storage p = .empty

omit [∀ p, Widening (E p) ω] in
theorem wellStored_fresh (params : Params ω) (start : Option (StartArray E)) :
    (fresh params start : Object E ω).WellStored where
  fitted := nofun
  unfitted := by
    rintro - (_ | _) <;> rfl

theorem wellStored_kept {x : Matrix (E p)} (hrows : f.centroids.rows = params.clusters)
    (hfits : x.Fits f.centroids) : (kept params start p x.cols f).WellStored where
  fitted := by
    rintro -
    cases p <;> exact ⟨hfits.full_centroids, hrows, hfits.cols, rfl⟩
  unfitted := by
    cases p <;> nofun

omit [∀ p, Widening (E p) ω] [Scalar ω] in
/-- What a model holds in a precision may be read off the storage without a check. -/
theorem WellStored.stored_model {o : Object E ω} (h : o.WellStored) (p : Precision) :
    o.model.stored p = o.storage p := by
  unfold model Model.stored
  cases hfitted : o.isFitted with
  | false => exact (h.unfitted hfitted p).symm
  | true =>
    by_cases hp : o.precision = p
    · subst hp
      exact dif_pos rfl
    · have hother : o.precision.other = p := by
        revert hp
        cases o.precision <;> cases p <;> simp [Precision.other]
      have hempty : o.storage p = .empty := hother ▸ (h.fitted hfitted).2.2.2
      exact (dif_neg hp).trans hempty.symm

end Object

/-! ### One call -/

/-- Questions leave the object as it is. -/
theorem Call.reads_answer {β : Type} (c : Call E)
    (question : [Memory] → Model E ω → Except Failure β) : (c.answer question).Reads :=
  Method.reads_unlessCut _ (Method.reads_ask _)

variable [∀ p, Scalar (E p)] [Scalar ω] [∀ p, Widening (E p) ω] [∀ p, BlockProduct (E p)]
  {σ : Type} [Source σ ω]

/-- The computation of a fit reads parameters and starting centroids only. -/
theorem Object.computeFit_model [Memory] (o : Object E ω) (p : Precision) (x : Dataset (E p))
    (weights : Option (List (E p))) :
    (o.model.computeFit p x weights : Seeding σ ω (Fit (E p) ω)) =
      (⟨o.params, o.start, none⟩ : Model E ω).computeFit p x weights := rfl

/-- What the fit of a call comes to, on an object with given parameters and starting centroids. -/
def Call.found (σ : Type) [Source σ ω] (c : Call E) (params : Params ω)
    (start : Option (StartArray E)) : Except Failure (Fit (E c.precision) ω) :=
  letI := c.conditions.memory
  match c.conditions.fitting with
  | some e => .error e
  | none =>
    (((⟨params, start, none⟩ : Model E ω).computeFit c.precision c.data c.weights :
      Seeding σ ω (Fit (E c.precision) ω)).run ⟨Source.seed params.seed, []⟩).1

namespace Object

variable (o : Object E ω) (c : Call E)

/-- The fit of a call fails and leaves the object as it is, or writes all members anew. -/
theorem run_fitStep :
    ((c.fitStep σ).run ⟨o, []⟩).1 = c.found σ o.params o.start ∧
      o.afterFit σ c =
        match c.found σ o.params o.start with
        | .ok f => kept o.params o.start c.precision c.data.table.cols f
        | .error _ => o := by
  let _ := c.conditions.memory
  unfold afterFit Call.fitStep fit Call.found
  rw [run_bind]
  cases c.conditions.fitting with
  | some e => exact ⟨rfl, rfl⟩
  | none =>
    simp only [Method.unlessCut, Method.run_compute, computeFit_model]
    generalize ((⟨o.params, o.start, none⟩ : Model E ω).computeFit c.precision c.data c.weights :
      Seeding σ ω (Fit (E c.precision) ω)).run ⟨Source.seed o.params.seed, []⟩ = run
    obtain ⟨r, t⟩ := run
    cases r with
    | error e => exact ⟨rfl, rfl⟩
    | ok f =>
      simp only [run_bind, run_keep]
      exact ⟨rfl, rfl⟩

theorem fits_eq : o.fits σ c = (c.found σ o.params o.start).isOk := by
  rw [fits, (run_fitStep o c).1]

theorem fits_asNew : o.asNew.fits σ c = o.fits σ c := by
  rw [fits_eq, fits_eq]
  rfl

section Found

variable {o c}

theorem afterFit_of_ok {f : Fit (E c.precision) ω} (h : c.found σ o.params o.start = .ok f) :
    o.afterFit σ c = kept o.params o.start c.precision c.data.table.cols f := by
  rw [(run_fitStep o c).2, h]

theorem afterFit_of_error {e : Failure} (h : c.found σ o.params o.start = .error e) :
    o.afterFit σ c = o := by
  rw [(run_fitStep o c).2, h]

end Found

/-- The fit of a call leaves what it leaves of a new object, if it succeeds. -/
theorem afterFit_eq : o.afterFit σ c = if o.fits σ c then o.asNew.afterFit σ c else o := by
  rw [fits_eq]
  cases h : c.found σ o.params o.start with
  | error e => exact afterFit_of_error h
  | ok f =>
    have hnew : o.asNew.afterFit σ c = kept o.params o.start c.precision c.data.table.cols f :=
      afterFit_of_ok h
    exact (afterFit_of_ok h).trans hnew.symm

/-- A call changes the object by its fit only, if it has one. -/
theorem after_eq : o.after σ c = if c.action.fits then o.afterFit σ c else o := by
  unfold after Call.perform
  cases c.action with
  | fit | fitPredict => exact Method.object_bind (fun _ => Method.reads_pure _) _
  | fitTransform =>
    exact Method.object_bind (fun _ => (c.reads_answer _).bind fun _ => Method.reads_pure _) _
  | predict | transform | score | clusterStats =>
    exact (c.reads_answer _).bind (fun _ => Method.reads_pure _) _

/-- A call leaves the object as it is, or as its fit alone leaves a new object. -/
theorem after_cases :
    o.after σ c = if c.action.fits && o.fits σ c then o.asNew.afterFit σ c else o := by
  rw [after_eq]
  cases c.action.fits with
  | false => rfl
  | true => exact afterFit_eq o c

/-- Parameters and starting centroids are never written. -/
theorem asNew_after : (o.after σ c).asNew = o.asNew := by
  rw [after_eq]
  split_ifs
  · cases h : c.found σ o.params o.start with
    | error e => rw [afterFit_of_error h]
    | ok f =>
      rw [afterFit_of_ok h]
      exact asNew_kept
  · rfl

end Object

/-! ### Sequences of calls -/

namespace Object

/-- A sequence of calls leaves what its last successful fit alone leaves of a new object, and
without a successful fit it leaves the object as it was. -/
theorem afterAll_eq (o : Object E ω) (calls : List (Call E)) :
    o.afterAll σ calls =
      match o.lastFit? σ calls with
      | none => o
      | some c => o.asNew.afterFit σ c := by
  induction calls generalizing o with
  | nil => rfl
  | cons c calls ih =>
    have hafter : o.afterAll σ (c :: calls) = (o.after σ c).afterAll σ calls := rfl
    rw [hafter, ih, asNew_after, lastFit?]
    cases (o.after σ c).lastFit? σ calls with
    | some d => rfl
    | none =>
      -- no later fit succeeds, so what this call leaves is left to the end
      show o.after σ c = _
      rw [after_cases]
      cases c.action.fits && o.fits σ c <;> rfl

/-- The fit that succeeded last would have succeeded on a new object. -/
theorem fits_of_lastFit? {o : Object E ω} {calls : List (Call E)} {c : Call E}
    (h : o.lastFit? σ calls = some c) : o.asNew.fits σ c = true := by
  induction calls generalizing o with
  | nil => cases h
  | cons d calls ih =>
    rw [lastFit?] at h
    cases hlater : (o.after σ d).lastFit? σ calls with
    | some e =>
      rw [hlater] at h
      obtain rfl : e = c := Option.some.inj h
      have hnew := ih hlater
      rwa [asNew_after] at hnew
    | none =>
      rw [hlater, Option.none_or] at h
      split_ifs at h with hfits
      obtain rfl : d = c := Option.some.inj h
      rw [fits_asNew]
      exact (Bool.and_eq_true_iff.mp hfits).2

end Object

/-! ### What is stored -/

/-- The centroids that a fit comes to are as many as the clusters, and fit the data. -/
theorem Call.fits_of_found [Source.InRange σ] {c : Call E} {params : Params ω}
    {start : Option (StartArray E)} (hstart : ∀ s, start = some s → s.centroids.Full)
    (hdata : c.data.Complete) {f : Fit (E c.precision) ω} (h : c.found σ params start = .ok f) :
    f.centroids.rows = params.clusters ∧ c.data.table.Fits f.centroids := by
  let _ := c.conditions.memory
  unfold found at h
  cases hcut : c.conditions.fitting with
  | some e =>
    rw [hcut] at h
    cases h
  | none =>
    rw [hcut] at h
    exact Model.yields_centroids (m := ⟨params, start, none⟩) hstart hdata _ f h

namespace Object

/-- A call with complete data keeps the storages in order. -/
theorem wellStored_after [Source.InRange σ] {o : Object E ω} {c : Call E}
    (hstart : ∀ s, o.start = some s → s.centroids.Full) (hdata : c.data.Complete)
    (h : o.WellStored) : (o.after σ c).WellStored := by
  rw [after_eq]
  split_ifs
  · cases hfound : c.found σ o.params o.start with
    | error e =>
      rw [afterFit_of_error hfound]
      exact h
    | ok f =>
      obtain ⟨hrows, hfits⟩ := Call.fits_of_found hstart hdata hfound
      rw [afterFit_of_ok hfound]
      exact wellStored_kept hrows hfits
  · exact h

/-- So does every sequence of such calls. -/
theorem wellStored_afterAll [Source.InRange σ] {o : Object E ω} {calls : List (Call E)}
    (hstart : ∀ s, o.start = some s → s.centroids.Full) (hcalls : ∀ c ∈ calls, c.data.Complete)
    (h : o.WellStored) : (o.afterAll σ calls).WellStored := by
  induction calls generalizing o with
  | nil => exact h
  | cons c calls ih =>
    obtain ⟨hc, hcs⟩ := List.forall_mem_cons.mp hcalls
    have hsame : (o.after σ c).asNew.start = o.asNew.start := by rw [asNew_after]
    have hafter : ∀ s, (o.after σ c).start = some s → s.centroids.Full := by
      intro s hs
      exact hstart s (hsame.symm.trans hs)
    exact ih hafter hcs (wellStored_after hstart hc h)

/-- Failed calls leave no trace, and a fit carries nothing over from earlier ones: after every
sequence of calls a new object is as the last successful fit alone would have left it, which is to
keep what this fit returns, and new if there was none.  The centroids are in the one storage that
they belong in. -/
theorem calls_leave_last_fit [Source.InRange σ] (params : Params ω)
    (start : Option (StartArray E)) (calls : List (Call E)) :
    let new : Object E ω := fresh params start
    (new.lastFit? σ calls = none → new.afterAll σ calls = new) ∧
      (∀ c, new.lastFit? σ calls = some c →
        ∃ f, ((c.fitStep σ).run ⟨new, []⟩).1 = .ok f ∧
          new.afterAll σ calls = new.afterFit σ c ∧
          new.afterFit σ c = kept params start c.precision c.data.table.cols f) ∧
      ((∀ s, start = some s → s.centroids.Full) → (∀ c ∈ calls, c.data.Complete) →
        (new.afterAll σ calls).WellStored) := by
  intro new
  refine ⟨fun hnone => ?_, fun c hlast => ?_, fun hstart hcalls =>
    wellStored_afterAll hstart hcalls (wellStored_fresh params start)⟩
  · rw [afterAll_eq, hnone]
  · have hleft : new.afterAll σ calls = new.afterFit σ c := by
      rw [afterAll_eq, hlast]
      rfl
    have hfits : (c.found σ params start).isOk = true := by
      rw [← fits_of_lastFit? hlast, fits_eq]
      rfl
    cases hfound : c.found σ params start with
    | error e =>
      rw [hfound] at hfits
      cases hfits
    | ok f => exact ⟨f, (run_fitStep new c).1.trans hfound, hleft, afterFit_of_ok hfound⟩

end Object

/-! ### A fit, a fit that is cut off, and another fit -/

/-- Two clusters from random starts, the better of two runs. -/
def twoClusters : Params Float :=
  { Params.standard with clusters := 2, method := .random, runs := 2, maxIterations := 3 }

/-- A fit in single precision. -/
def singleFit : Call Precision.Machine where
  action := .fit
  precision := .single
  data := ⟨⟨3, 1, ([0, 1, 5] : List Float32)⟩, true⟩
  weights := none
  conditions := ⟨inferInstance, none, none⟩

/-- A fit in double precision that succeeds, in a call that fails after it. -/
def doubleFit : Call Precision.Machine where
  action := .fitTransform
  precision := .double
  data := ⟨⟨4, 1, ([0, 1, 5, 7] : List Float)⟩, true⟩
  weights := none
  conditions := ⟨inferInstance, none, some .outOfMemory⟩

/-- The fit in double precision, cut off while it is computed. -/
def cutFit : Call Precision.Machine :=
  { doubleFit with conditions := ⟨inferInstance, some .outOfMemory, none⟩ }

/-- After a fit, a fit that is cut off, and a fit in a call that fails later on, an object is as
the last fit alone would have left it, with nothing in single precision. -/
theorem Object.calls_leave_last_fit_mixed :
    let new : Object Precision.Machine Float := fresh twoClusters none
    let calls := [singleFit, cutFit, doubleFit]
    (∀ c ∈ calls, c.data.Complete) ∧ new.lastFit? (Counter Float) calls = some doubleFit ∧
      new.afterAll (Counter Float) calls = new.afterFit (Counter Float) doubleFit ∧
      (new.afterAll (Counter Float) calls).isFitted = true ∧
      (new.afterAll (Counter Float) calls).single = .empty ∧
      (new.afterAll (Counter Float) calls).WellStored := by
  intro new calls
  have hdata : ∀ c ∈ calls, c.data.Complete := by
    have hdouble : doubleFit.data.Complete := fun _ => rfl
    exact List.forall_mem_cons.mpr ⟨fun _ => rfl,
      List.forall_mem_cons.mpr ⟨hdouble, List.forall_mem_singleton.mpr hdouble⟩⟩
  have hfits : (doubleFit.found (Counter Float) twoClusters none).isOk = true := by
    decide +kernel
  have hlast : new.lastFit? (Counter Float) calls = some doubleFit := by
    have hlater : ((new.after (Counter Float) singleFit).after (Counter Float) cutFit).fits
        (Counter Float) doubleFit = true := by
      rw [← fits_asNew, asNew_after, asNew_after, fits_eq]
      exact hfits
    have haction : doubleFit.action.fits = true := rfl
    simp only [calls, lastFit?, haction, hlater, Bool.and_self, if_true, Option.none_or,
      Option.some_or]
  obtain ⟨-, hleft, hstored⟩ := calls_leave_last_fit (σ := Counter Float) twoClusters none calls
  obtain ⟨f, -, hfit, hkept⟩ := hleft _ hlast
  refine ⟨hdata, hlast, hfit, ?_, ?_, hstored nofun hdata⟩ <;>
    · rw [hfit, hkept]
      rfl

/-! ### Calls on the model -/

/-- A call on a model, with the memory at hand and no failure from outside. -/
def Model.call [Memory] (σ : Type) [Source σ ω] (m : Model E ω) (action : Action) (p : Precision)
    (x : Dataset (E p)) (weights : Option (List (E p))) : Outcome E ω (Reply (E p) ω) :=
  match action with
  | .fit => (m.fit σ p x weights).map .fit
  | .predict => ⟨(m.predict p x weights).map .assignment, m, []⟩
  | .transform => ⟨(m.transform p x).map .distances, m, []⟩
  | .fitPredict => (m.fitPredict σ p x weights).map .labels
  | .fitTransform => (m.fitTransform σ p x weights).map .distances
  | .score => ⟨(m.score p x weights).map .score, m, []⟩
  | .clusterStats => ⟨(m.clusterStats p x).map .stats, m, []⟩

theorem Object.outcome_fit [Memory] (o : Object E ω) (p : Precision) (x : Dataset (E p))
    (weights : Option (List (E p))) :
    (fit σ none p x weights).outcome o = o.model.fit σ p x weights := by
  unfold Method.outcome fit Model.fit
  rw [run_bind, Method.unlessCut, Method.run_compute]
  dsimp only
  have hseed : o.model.params.seed = o.params.seed := rfl
  rw [hseed]
  generalize (o.model.computeFit p x weights : Seeding σ ω (Fit (E p) ω)).run
    ⟨Source.seed o.params.seed, []⟩ = run
  obtain ⟨r, t⟩ := run
  cases r with
  | error e => rfl
  | ok f =>
    simp only [run_bind, run_keep, ← model_kept]
    rfl

/-- Without failures from outside, a call on an object is the call on the model that it keeps. -/
theorem Call.perform_implements (o : Object E ω) (c : Call E)
    (hfitting : c.conditions.fitting = none) (hanswering : c.conditions.answering = none) :
    letI := c.conditions.memory
    (c.perform σ).outcome o = o.model.call σ c.action c.precision c.data c.weights := by
  let _ := c.conditions.memory
  have hfit : (c.fitStep σ).outcome o = o.model.fit σ c.precision c.data c.weights := by
    rw [fitStep, hfitting]
    exact o.outcome_fit _ _ _
  have hanswer : ∀ {β : Type} (question : [Memory] → Model E ω → Except Failure β),
      c.answer question = .ask question := by
    intro β question
    rw [answer, hanswering]
    rfl
  unfold perform Model.call
  cases c.action with
  | fit =>
    refine (Method.outcome_map _ _ o).trans ?_
    rw [hfit]
  | fitPredict =>
    refine (Method.outcome_map _ _ o).trans ?_
    rw [hfit, Model.fitPredict, Outcome.map_map]
    rfl
  | fitTransform =>
    dsimp only
    -- the one call that both fits and asks: its question goes to the model just fitted
    rw [hanswer, ← bind_assoc]
    refine (Method.outcome_map _ _ o).trans ?_
    rw [Method.outcome_ask, hfit]
    rfl
  | predict | transform | score | clusterStats =>
    dsimp only
    rw [hanswer]
    exact Method.outcome_map _ _ o

end Clustering
