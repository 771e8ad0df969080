import Clustering.Proofs.Alike
import Clustering.Proofs.Seeding.Yields

/-!
# Seeding computations in step

`Seeding.Agree lack a b` says that two seeding computations, started from the same source, have the
same result and leave the source in the same state, unless `lack` holds and one of them fails; what
they record is left open.  It is kept by all the ways in which seeding computations are put
together, so that two runs stay in step from draw to draw.

Seeding uses a kernel in two ways.  Candidates are found and weighed with its direct form, and they
are in step if the direct forms are alike.  The kernel itself only reduces weighted candidates; so
for the starts to be in step (`agree_start`) the kernels need not be alike on all data, but only
refine alike what there is to reduce (`ReducesAlike`).
-/

namespace Clustering.Seeding

variable {lack : Prop} {σ ω β γ : Type}

/-- From the same source the two computations have the same result, and the same source after it;
or, if `lack` holds, at least one of them fails. -/
def Agree (lack : Prop) (a b : Seeding σ ω β) : Prop :=
  ∀ s t : Session σ ω, s.source = t.source →
    (a.run s).1 = (b.run t).1 ∧ (a.run s).2.source = (b.run t).2.source ∨
      lack ∧ ((a.run s).1.isOk = false ∨ (b.run t).1.isOk = false)

theorem Agree.sameUnless {a b : Seeding σ ω β} (h : Agree lack a b) (s : Session σ ω) :
    SameUnless lack (a.run s).1 (b.run s).1 :=
  (h s s rfl).imp_left And.left

/-! ### Putting computations together -/

theorem attempt_ok (v : β) : (attempt (.ok v) : Seeding σ ω β) = pure v := rfl

theorem attempt_error (f : Failure) : (attempt (.error f) : Seeding σ ω β) = throw f := rfl

theorem throw_bind (f : Failure) (g : β → Seeding σ ω γ) :
    ((throw f : Seeding σ ω β) >>= g) = throw f := rfl

theorem attempt_map_bind (r : Except Failure β) (g : β → γ) {δ : Type}
    (f : γ → Seeding σ ω δ) :
    (attempt (r.map g) >>= f) = attempt r >>= fun v => f (g v) := by
  cases r <;> rfl

theorem agree_pure (v : β) : Agree lack (pure v : Seeding σ ω β) (pure v) :=
  fun _ _ h => Or.inl ⟨rfl, h⟩

theorem agree_throw (f : Failure) : Agree lack (throw f : Seeding σ ω β) (throw f) :=
  fun _ _ h => Or.inl ⟨rfl, h⟩

theorem agree_attempt {r r' : Except Failure β} (h : SameUnless lack r r') :
    Agree lack (attempt r : Seeding σ ω β) (attempt r') :=
  fun _ _ hs => h.imp_left (⟨·, hs⟩)

theorem agree_attempt_self (r : Except Failure β) :
    Agree lack (attempt r : Seeding σ ω β) (attempt r) :=
  agree_attempt (.of_eq rfl)

/-- Any two lists of notices will do. -/
theorem agree_record (ns ns' : List (Notice ω)) :
    Agree lack (record ns : Seeding σ ω Unit) (record ns') :=
  fun _ _ h => Or.inl ⟨rfl, h⟩

theorem agree_restart (source : σ) :
    Agree lack (restart source : Seeding σ ω Unit) (restart source) :=
  fun _ _ _ => Or.inl ⟨rfl, rfl⟩

/-- A computation fails if its first part does. -/
theorem isOk_bind {a : Seeding σ ω β} {f : β → Seeding σ ω γ} {s : Session σ ω}
    (h : (a.run s).1.isOk = false) : ((a >>= f).run s).1.isOk = false := by
  cases ha : a.run s with
  | mk r t =>
    rw [ha] at h
    cases r with
    | ok v => cases h
    | error e =>
      rw [run_bind_of_error s ha]
      rfl

/-- What follows has to agree on the values only that the first computation may return. -/
theorem Agree.bind_of_yields {a b : Seeding σ ω β} {f g : β → Seeding σ ω γ} {Q : β → Prop}
    (h : Agree lack a b) (hQ : Yields a Q) (hf : ∀ v, Q v → Agree lack (f v) (g v)) :
    Agree lack (a >>= f) (b >>= g) := by
  intro s t hst
  rcases h s t hst with ⟨hr, hsrc⟩ | ⟨hlack, hfail⟩
  · cases ha : a.run s with
    | mk ra s' =>
      cases hb : b.run t with
      | mk rb t' =>
        rw [ha, hb] at hr hsrc
        obtain rfl : ra = rb := hr
        cases ra with
        | error e =>
          rw [run_bind_of_error s ha, run_bind_of_error t hb]
          exact Or.inl ⟨rfl, hsrc⟩
        | ok v =>
          rw [run_bind_of_ok s ha, run_bind_of_ok t hb]
          exact hf v (hQ s v (congrArg Prod.fst ha)) s' t' hsrc
  · exact Or.inr ⟨hlack, hfail.imp isOk_bind isOk_bind⟩

theorem Agree.bind {a b : Seeding σ ω β} {f g : β → Seeding σ ω γ} (h : Agree lack a b)
    (hf : ∀ v, Agree lack (f v) (g v)) : Agree lack (a >>= f) (b >>= g) :=
  h.bind_of_yields (Q := fun _ => True) (.of_forall fun _ => trivial) fun v _ => hf v

theorem run_tryCatch (a : Seeding σ ω β) (f : Failure → Seeding σ ω β) (s : Session σ ω) :
    (tryCatch a f).run s =
      match a.run s with
      | (.ok v, t) => (.ok v, t)
      | (.error e, t) => (f e).run t := by
  simp only [tryCatch, tryCatchThe, MonadExceptOf.tryCatch, ExceptT.tryCatch, ExceptT.run,
    ExceptT.mk, bind, StateT.bind]
  cases a s with
  | mk r t => cases r <;> rfl

/-- If no handler returns, a failure remains one. -/
theorem isOk_tryCatch {a : Seeding σ ω β} {f : Failure → Seeding σ ω β} {s : Session σ ω}
    (hf : ∀ e, Yields (f e) fun _ => False) (h : (a.run s).1.isOk = false) :
    ((tryCatch a f).run s).1.isOk = false := by
  rw [run_tryCatch]
  cases ha : a.run s with
  | mk r t =>
    rw [ha] at h
    cases r with
    | ok v => cases h
    | error e =>
      dsimp only
      cases hrun : ((f e).run t).1 with
      | error e' => rfl
      | ok v => exact (hf e t v hrun).elim

theorem Agree.tryCatch {a b : Seeding σ ω β} {f g : Failure → Seeding σ ω β}
    (h : Agree lack a b) (hfg : ∀ e, Agree lack (f e) (g e))
    (hf : ∀ e, Yields (f e) fun _ => False) (hg : ∀ e, Yields (g e) fun _ => False) :
    Agree lack (tryCatch a f) (tryCatch b g) := by
  intro s t hst
  rcases h s t hst with ⟨hr, hsrc⟩ | ⟨hlack, hfail⟩
  · rw [run_tryCatch, run_tryCatch]
    cases ha : a.run s with
    | mk ra s' =>
      cases hb : b.run t with
      | mk rb t' =>
        rw [ha, hb] at hr hsrc
        obtain rfl : ra = rb := hr
        cases ra with
        | error e => exact hfg e s' t' hsrc
        | ok v => exact Or.inl ⟨rfl, hsrc⟩
  · exact Or.inr ⟨hlack, hfail.imp (isOk_tryCatch hf) (isOk_tryCatch hg)⟩

theorem Agree.mapM {f g : γ → Seeding σ ω β} (h : ∀ v, Agree lack (f v) (g v)) :
    ∀ vs : List γ, Agree lack (vs.mapM f) (vs.mapM g)
  | [] => by
    simpa only [List.mapM_nil] using agree_pure []
  | v :: vs => by
    simp only [List.mapM_cons]
    exact (h v).bind fun _ => (Agree.mapM h vs).bind fun _ => agree_pure _

theorem Agree.foldlM {f g : β → γ → Seeding σ ω β} (h : ∀ b v, Agree lack (f b v) (g b v)) :
    ∀ (vs : List γ) (b : β), Agree lack (vs.foldlM f b) (vs.foldlM g b)
  | [], b => agree_pure b
  | v :: vs, b => (h b v).bind fun b' => Agree.foldlM h vs b'

/-! ### Draws -/

section Draws

variable [Source σ ω]

theorem agree_index (top : ℕ) : Agree lack (index top : Seeding σ ω ℕ) (index top) := by
  rintro ⟨src, ns⟩ ⟨_, ns'⟩ rfl
  exact Or.inl ⟨rfl, rfl⟩

theorem agree_coin : Agree lack (coin : Seeding σ ω ω) coin := by
  rintro ⟨src, ns⟩ ⟨_, ns'⟩ rfl
  exact Or.inl ⟨rfl, rfl⟩

theorem agree_pick (masses : List ω) : Agree lack (pick masses : Seeding σ ω ℕ) (pick masses) := by
  rintro ⟨src, ns⟩ ⟨_, ns'⟩ rfl
  exact Or.inl ⟨rfl, rfl⟩

theorem agree_sampleRows (n k : ℕ) :
    Agree lack (sampleRows n k : Seeding σ ω (List ℕ)) (sampleRows n k) := by
  unfold sampleRows
  split_ifs
  · exact (Agree.mapM agree_index _).bind fun _ => agree_pure _
  · exact (Agree.mapM agree_index _).bind fun _ => (agree_record _ _).bind fun _ => agree_pure _

theorem agree_unused (top : ℕ) (used : Std.TreeSet ℕ) :
    ∀ tries, Agree lack (unused top used tries : Seeding σ ω ℕ) (unused top used tries)
  | 0 => agree_throw _
  | tries + 1 => by
    unfold unused
    refine (agree_index top).bind fun r => ?_
    split_ifs
    · exact agree_unused top used tries
    · exact agree_pure r

theorem agree_pad (n : ℕ) : ∀ (count : ℕ) (used : Std.TreeSet ℕ),
    Agree lack (pad n count used : Seeding σ ω (List ℕ)) (pad n count used)
  | 0, _ => agree_pure _
  | count + 1, used => by
    unfold pad
    split_ifs
    · exact (agree_unused _ _ _).bind fun r =>
        (agree_pad n count (used.insert r)).bind fun _ => agree_pure _
    · exact (agree_index _).bind fun r =>
        (agree_pad n count used).bind fun _ => agree_pure _

variable {α : Type} [Scalar ω] [Widening α ω]

theorem agree_proportional (mass : List α) :
    Agree lack (proportional mass : Seeding σ ω ℕ) (proportional mass) := by
  unfold proportional
  dsimp only
  split_ifs
  · exact agree_pick _
  · exact agree_index _

variable [Scalar α]

theorem agree_morePicks (x : Matrix α) (weights : List α) :
    ∀ (count : ℕ) (s : Picks α),
      Agree lack (morePicks x weights count s : Seeding σ ω (Picks α)) (morePicks x weights count s)
  | 0, s => agree_pure s
  | count + 1, _ =>
    ((agree_proportional _).bind fun _ => agree_pure _).bind fun s' =>
      agree_morePicks x weights count s'

theorem agree_plusPlus [Memory] (x : Matrix α) (weights : Option (List α)) (k : ℕ) :
    Agree lack (plusPlus x weights k : Seeding σ ω (Matrix α)) (plusPlus x weights k) := by
  unfold plusPlus firstPick
  refine (agree_attempt_self _).bind fun _ => (agree_attempt_self _).bind fun _ => ?_
  refine ((agree_proportional _).bind fun _ => agree_pure _).bind fun first => ?_
  exact (agree_attempt_self _).bind fun _ =>
    (agree_morePicks x _ _ first).bind fun _ => agree_pure _

theorem agree_tossRows (expected potential : ω) (taken : List ℕ) :
    ∀ rows : List (ℕ × ω × α),
      Agree lack (tossRows expected potential taken rows : Seeding σ ω (List ℕ))
        (tossRows expected potential taken rows)
  | [] => agree_pure _
  | (i, weight, gap) :: rows => by
    have ih := agree_tossRows expected potential taken rows
    unfold tossRows
    split_ifs
    · exact ih
    · dsimp only
      split_ifs
      · exact agree_coin.bind fun _ => ih.bind fun _ => agree_pure _
      · exact ih

/-- The start of a round: the rows found, none of them if there are no gaps. -/
def foundRows (n : ℕ) (weights : List ω) (expected : ω) (c : Candidates α) :
    Seeding σ ω (List ℕ) :=
  if 0 < Oversampling.potential weights c.gaps then
    tossRows expected (Oversampling.potential weights c.gaps) c.indices
      ((List.range n).zip (weights.zip c.gaps))
  else pure []

theorem agree_foundRows (n : ℕ) (weights : List ω) (expected : ω) (c : Candidates α) :
    Agree lack (foundRows n weights expected c : Seeding σ ω (List ℕ))
      (foundRows n weights expected c) := by
  unfold foundRows
  split_ifs
  · exact agree_tossRows _ _ _ _
  · exact agree_pure _

end Draws

/-! ### Kernels that are alike -/

section Kernels

variable {α : Type} [Scalar α] [Scalar ω] [Widening α ω] [Memory] [BlockProduct α]
variable {e e' : Kernel}

/-- A refinement by a new refiner. -/
theorem agree_refine {x : Matrix α} {weights : Option (List α)} {c : Matrix α}
    (h : Kernel.RefineAlike lack ω e e' x weights c) (maxIterations : ℕ) (tolerance : ω)
    (checkInertia : Bool) :
    Agree lack
      (attempt (Refiner.new? e maxIterations tolerance checkInertia) >>= fun r =>
        refine r x weights c : Seeding σ ω (Refined α ω))
      (attempt (Refiner.new? e' maxIterations tolerance checkInertia) >>= fun r =>
        refine r x weights c) := by
  unfold Refiner.new?
  split_ifs
  · exact (agree_attempt_self _).bind fun r =>
      (agree_record _ _).bind fun _ => agree_attempt_self _
  · show Agree lack (refine ⟨e, maxIterations, tolerance, checkInertia, .initializing⟩ x weights c)
      (refine ⟨e', maxIterations, tolerance, checkInertia, .initializing⟩ x weights c)
    exact (agree_record _ _).bind fun _ => agree_attempt (h maxIterations tolerance checkInertia)

variable [Source σ ω]

/-- The end of a round: the rows found join the candidates. -/
def joinRound (e : Kernel) (x : Matrix α) (c : Candidates α) (number : ℕ) (phi : ω)
    (found : List ℕ) : Seeding σ ω (Candidates α) :=
  if found.isEmpty then do
    record [.roundSkipped number phi]
    return { c with skipped := c.skipped + 1 }
  else do
    let added ← attempt (x.pick? found)
    let near ← attempt (e.direct.nearest x added)
    let indices := c.indices ++ found
    record [.roundSampled number found.length indices.length phi]
    return ⟨indices, List.zipWith (fun gap n => closer gap n.dist) c.gaps near, c.sampled + 1,
      c.skipped⟩

theorem sampleRound_eq (e : Kernel) (x : Matrix α) (weights : List ω) (expected : ω)
    (c : Candidates α) (number : ℕ) :
    (sampleRound e x weights expected c number : Seeding σ ω (Candidates α)) =
      foundRows x.rows weights expected c >>=
        joinRound e x c number (Oversampling.potential weights c.gaps) := by
  unfold sampleRound foundRows
  dsimp only
  split_ifs <;> rfl

section Candidates

variable (hd : Kernel.Alike α lack e.direct e'.direct)
include hd

omit [Scalar ω] [Widening α ω] [Source σ ω] in
theorem agree_joinRound (x : Matrix α) (c : Candidates α) (number : ℕ) (phi : ω)
    (found : List ℕ) :
    Agree lack (joinRound e x c number phi found : Seeding σ ω (Candidates α))
      (joinRound e' x c number phi found) := by
  unfold joinRound
  split_ifs
  · exact (agree_record _ _).bind fun _ => agree_pure _
  · exact (agree_attempt_self _).bind fun added =>
      (agree_attempt (hd.nearest x added)).bind fun _ =>
        (agree_record _ _).bind fun _ => agree_pure _

theorem agree_sampleRound (x : Matrix α) (weights : List ω) (expected : ω) (c : Candidates α)
    (number : ℕ) :
    Agree lack (sampleRound e x weights expected c number : Seeding σ ω (Candidates α))
      (sampleRound e' x weights expected c number) := by
  rw [sampleRound_eq, sampleRound_eq]
  exact (agree_foundRows _ _ _ _).bind (agree_joinRound hd x c number _)

/-- The candidates of all rounds. -/
theorem agree_candidates (x : Matrix α) (weights : Option (List α)) (expected : ω) :
    Agree lack (candidates e x weights expected : Seeding σ ω (Candidates α))
      (candidates e' x weights expected) := by
  have hfirst : Agree lack (firstCandidate e x : Seeding σ ω (Candidates α))
      (firstCandidate e' x) :=
    (agree_index _).bind fun first => (agree_attempt_self _).bind fun _ =>
      (agree_attempt_self _).bind fun start =>
        (agree_attempt (hd.nearest x start)).bind fun _ => agree_pure _
  exact hfirst.bind fun first =>
    Agree.foldlM (fun c i => agree_sampleRound hd x _ _ c (i + 1)) _ first

/-- The weighted candidates with the seeds among them. -/
theorem agree_weighCandidates (x : Matrix α) (weights : Option (List α)) (k : ℕ)
    (indices : List ℕ) :
    Agree lack (weighCandidates e x weights k indices : Seeding σ ω (Reduction α))
      (weighCandidates e' x weights k indices) := by
  unfold weighCandidates
  refine (agree_attempt_self _).bind fun rows => (agree_attempt_self _).bind fun _ => ?_
  rw [Kernel.sweep_eq, Kernel.sweep_eq, attempt_map_bind, attempt_map_bind]
  refine (agree_attempt (hd.admission x rows)).bind fun _ => ?_
  rw [hd.candidateWeights]
  exact (agree_plusPlus _ _ _).bind fun _ => agree_pure _

end Candidates

/-- Whatever candidates are drawn and weighed, the kernels reduce them alike. -/
def ReducesAlike (lack : Prop) (σ : Type) [Source σ ω] (e e' : Kernel) (p : Params ω) (x : Matrix α)
    (weights : Option (List α)) : Prop :=
  Yields (candidates e x weights (p.oversampling * (p.clusters : ω)) : Seeding σ ω (Candidates α))
    fun c => Yields (weighCandidates e x weights p.clusters c.indices : Seeding σ ω (Reduction α))
      fun r => Kernel.RefineAlike lack ω e e' r.rows (some r.weights) r.start

variable (hd : Kernel.Alike α lack e.direct e'.direct)
include hd

theorem agree_reduce {x : Matrix α} {weights : Option (List α)} {k : ℕ} {indices : List ℕ}
    (h : Yields (weighCandidates e x weights k indices : Seeding σ ω (Reduction α)) fun r =>
      Kernel.RefineAlike lack ω e e' r.rows (some r.weights) r.start) (tolerance : ω) :
    Agree lack (reduce e x weights tolerance k indices : Seeding σ ω (Refined α ω))
      (reduce e' x weights tolerance k indices) := by
  unfold reduce
  refine (agree_weighCandidates hd x weights k indices).bind_of_yields h fun r hr => ?_
  have hrefine := agree_refine (σ := σ) hr Oversampling.reductionIterations tolerance true
  simpa only [bind_assoc] using hrefine.bind fun refined =>
    (agree_record [.reduced r.rows.rows k refined.iterations] _).bind fun _ => agree_pure refined

variable {p : Params ω} {x : Matrix α} {weights : Option (List α)}
  (h : ReducesAlike lack σ e e' p x weights)
include h

theorem agree_oversample :
    Agree lack (oversample p e x weights : Seeding σ ω (Matrix α × SeedStats))
      (oversample p e' x weights) := by
  unfold oversample
  refine (agree_candidates hd x weights _).bind_of_yields h fun c hc => ?_
  dsimp only
  split_ifs
  · exact (agree_record _ _).bind fun _ => (agree_pad _ _ _).bind fun _ =>
      (agree_attempt_self _).bind fun _ => agree_pure _
  · exact (agree_attempt_self _).bind fun _ => agree_pure _
  · exact (agree_reduce hd hc _).bind fun _ => agree_pure _

/-- The starting centroids, by any method. -/
theorem agree_start (array : Matrix α) :
    Agree lack (start p e x weights array : Seeding σ ω (Matrix α × SeedStats))
      (start p e' x weights array) := by
  unfold start
  cases p.method with
  | array => exact (agree_attempt_self _).bind fun _ => agree_pure _
  | random =>
    have hrows : Agree lack (startFromRows p.clusters x : Seeding σ ω (Matrix α))
        (startFromRows p.clusters x) :=
      (agree_attempt_self _).bind fun _ => (agree_sampleRows _ _).bind fun _ => agree_attempt_self _
    exact hrows.bind fun _ => agree_pure _
  | scalable => exact agree_oversample hd h
  | unsupported => exact agree_throw _

end Kernels

end Clustering.Seeding
