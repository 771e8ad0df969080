import Clustering.Proofs.Exact
import Clustering.Proofs.Fits
import Clustering.Proofs.Pairwise

/-!
# The two metrics in exact arithmetic

The expanded metric multiplies blocks, adds norms and lifts negative results; the direct one sums
squares.  In exact arithmetic both are the same distances, in batches and tiles of any size.  So
kernels deliver the same nearest centroids and the same distance tables (`Kernel.nearest_exact`,
`Kernel.pairwise_exact`), and models that differ in metric, batches and tiles fit, predict and
transform alike (`Model.metrics_agree`).

The expanded metric asks for more buffers than the direct one.  Where one of them is refused, one
of the two may fail and the other not; that is the only way in which they differ.
-/

namespace Clustering

/-! ### Scratch buffers -/

/-- Checks that return nothing agree if they agree where nothing lacks. -/
theorem SameUnless.of_unit {lack : Prop} {r r' : Except Failure Unit} (h : ¬ lack → r = r') :
    SameUnless lack r r' := by
  by_cases hlack : lack
  · cases r with
    | error f => exact Or.inr ⟨hlack, Or.inl rfl⟩
    | ok u =>
      cases r' with
      | error f => exact Or.inr ⟨hlack, Or.inr rfl⟩
      | ok u => exact .of_eq rfl
  · exact .of_eq (h hlack)

theorem Kernel.of_checkShapes {α : Type} {op : String} {x c : Matrix α}
    (h : checkShapes op x c = .ok ()) : (0 < x.rows → x.cols = c.cols) ∧ c.rows ≤ indexLimit := by
  unfold checkShapes at h
  split_ifs at h with _ _ hwidth hlimit
  omega

namespace Kernel

section Scratch

variable (α : Type) [Scalar α] [Memory]

/-- All scratch buffers that sweeps over up to the largest number of centroids ask for are
granted. -/
def GrantsScratch (e : Kernel) : Prop := ∀ n k, k ≤ indexLimit → e.sweepBuffers α n k = .ok ()

/-- One of the kernels may be refused a scratch buffer. -/
def LackScratch (e e' : Kernel) : Prop := ¬ (e.GrantsScratch α ∧ e'.GrantsScratch α)

variable {α}

/-- With granted buffers the shapes decide. -/
theorem admission_of_grants {e : Kernel} (h : e.GrantsScratch α) (x c : Matrix α) :
    e.admission x c = checkShapes "nearest" x c := by
  unfold admission
  cases hshapes : checkShapes "nearest" x c with
  | error f => rfl
  | ok u =>
    rw [h x.rows c.rows (of_checkShapes hshapes).2]
    by_cases hx : x.rows = 0 <;> simp [hx, bind, Except.bind, pure, Except.pure]

theorem GrantsScratch.normBuffers {e : Kernel} (h : e.GrantsScratch α) {n k : ℕ}
    (hk : k ≤ indexLimit) : e.normBuffers α n k = .ok () :=
  (of_sweepBuffers (h n k hk)).2.2

theorem pairwiseAdmission_of_grants {e : Kernel} (h : e.GrantsScratch α) (x c : Matrix α) :
    e.pairwiseAdmission x c = checkShapes "pairwise" x c := by
  unfold pairwiseAdmission
  cases hshapes : checkShapes "pairwise" x c with
  | error f => rfl
  | ok u =>
    rw [h.normBuffers (of_checkShapes hshapes).2]
    by_cases hx : x.rows = 0 <;> simp [hx, bind, Except.bind, pure, Except.pure]

/-- The direct form asks for no more than the kernel itself. -/
theorem GrantsScratch.direct {e : Kernel} (h : e.GrantsScratch α) :
    e.direct.GrantsScratch α := by
  intro n k hk
  obtain ⟨hlabels, hdistances, -⟩ := of_sweepBuffers (h n k hk)
  have hbatch : e.direct.batchRows = e.batchRows := rfl
  have hdirect : e.direct.metric ≠ .expanded := nofun
  rw [sweepBuffers, Kernel.normBuffers, if_neg hdirect, if_neg hdirect, hbatch, hlabels, hdistances]
  rfl

section Lack

variable {e e' : Kernel} (x c : Matrix α)

theorem admission_agree :
    SameUnless (LackScratch α e e') (e.admission x c) (e'.admission x c) := by
  refine .of_unit fun hlack => ?_
  obtain ⟨h, h'⟩ := not_not.mp hlack
  rw [admission_of_grants h, admission_of_grants h']

theorem admission_direct_agree :
    SameUnless (LackScratch α e e') (e.direct.admission x c) (e'.direct.admission x c) := by
  refine .of_unit fun hlack => ?_
  obtain ⟨h, h'⟩ := not_not.mp hlack
  rw [admission_of_grants h.direct, admission_of_grants h'.direct]

theorem pairwiseAdmission_agree :
    SameUnless (LackScratch α e e') (e.pairwiseAdmission x c) (e'.pairwiseAdmission x c) := by
  refine .of_unit fun hlack => ?_
  obtain ⟨h, h'⟩ := not_not.mp hlack
  rw [pairwiseAdmission_of_grants h, pairwiseAdmission_of_grants h']

end Lack

end Scratch

/-! ### Distances and nearest centroids -/

section Exact

variable {K : Type} [ExactScalar K]

/-- Put together from tiles or summed row by row, with the one metric or the other: these are the
squared distances. -/
theorem distances_exact (e : Kernel) {x c : Matrix K} (h : x.Fits c) :
    e.distances x c = x.rowList.map fun v => c.rowList.map (sqDist v) := by
  have hbatch : ∀ xs ∈ Batch.deal (e.batches x.rows) x.rowList,
      e.distancesIn xs c.rowList = Metric.directBlock xs c.rowList := by
    intro xs hxs
    have htile : ∀ rows, ∀ t ∈ e.tiled c.rowList,
        e.appendTile xs rows t = e.direct.appendTile xs rows t := by
      intro rows t ht
      rw [appendTile, appendTile, e.block_of_fits h hxs ht]
      rfl
    rw [distancesIn_eq_tiles, List.foldl_ext _ _ _ htile]
    exact (e.direct.distancesIn_eq_tiles xs c.rowList).symm
  have hbatches : (Batch.deal (e.batches x.rows) x.rowList).map (e.distancesIn · c.rowList) =
      (Batch.deal (e.batches x.rows) x.rowList).map (Metric.directBlock · c.rowList) :=
    List.map_congr_left hbatch
  rw [distances, List.flatMap_def, hbatches]
  show (List.map (List.map fun v => c.rowList.map (sqDist v)) _).flatten = _
  rw [← List.map_flatten, Batch.flatten_deal]
  rw [rowCount_batches, Matrix.length_rowList]

omit [ExactScalar K] in
theorem fits_of_checkShapes {op : String} {x c : Matrix K} (hx : x.Full) (hc : c.Full)
    (h : checkShapes op x c = .ok ()) : x.rows = 0 ∨ x.Fits c := by
  rcases Nat.eq_zero_or_pos x.rows with hrows | hrows
  · exact Or.inl hrows
  · exact Or.inr ⟨hx, hc, ((of_checkShapes h).1 hrows).symm⟩

variable [Memory] (e e' : Kernel) {x c : Matrix K}

/-- On all data and centroids, kernels of any metric deliver the same nearest centroids. -/
theorem nearest_exact (hx : x.Full) (hc : c.Full) :
    SameUnless (LackScratch K e e') (e.nearest x c) (e'.nearest x c) := by
  rw [nearest_eq, nearest_eq]
  refine (admission_agree x c).map fun _ hadm => ?_
  obtain ⟨_, hshapes, -⟩ := exists_of_bind_ok hadm
  rcases fits_of_checkShapes hx hc hshapes with hrows | hfits
  · rw [List.eq_nil_of_length_eq_zero ((e.length_answers x c).trans hrows),
      List.eq_nil_of_length_eq_zero ((e'.length_answers x c).trans hrows)]
  · rw [e.answers_exact hfits, e'.answers_exact hfits]

/-- On all data and centroids, kernels of any metric make the same distance tables. -/
theorem pairwise_exact (hx : x.Full) (hc : c.Full) (euclidean : Bool) :
    SameUnless (LackScratch K e e') (e.pairwise x c euclidean) (e'.pairwise x c euclidean) := by
  rw [pairwise_eq, pairwise_eq]
  refine (pairwiseAdmission_agree x c).map fun _ hadm => ?_
  obtain ⟨_, hshapes, -⟩ := exists_of_bind_ok hadm
  rcases fits_of_checkShapes hx hc hshapes with hrows | hfits
  · rw [List.eq_nil_of_length_eq_zero ((e.length_distances x c).trans hrows),
      List.eq_nil_of_length_eq_zero ((e'.length_distances x c).trans hrows)]
  · rw [e.distances_exact hfits, e'.distances_exact hfits]

/-- Where data and centroids fit, no iteration tells the kernels apart. -/
theorem alikeOn_exact (x : Matrix K) (weights : Option (List K)) :
    AlikeOn (LackScratch K e e') x weights (x.Fits ·) e e' where
  admission c _ := admission_agree x c
  answers _ hc := (e.answers_exact hc).trans (e'.answers_exact hc).symm
  update c hc := e.fits_update x weights c hc

theorem alike_direct_exact : Alike K (LackScratch K e e') e.direct e'.direct where
  admission x c := admission_direct_agree x c
  answers x c := (e.direct.answers_direct nofun x c).trans (e'.direct.answers_direct nofun x c).symm

theorem assign_exact (hx : x.Full) (hc : c.Full) (weights : Option (List K)) :
    SameUnless (LackScratch K e e') (e.assign x c weights) (e'.assign x c weights) := by
  have hsweep : ∀ e : Kernel, (do return Assignment.ofSweep weights (← e.sweep x c)) =
      (e.admission x c).map fun _ => e.assignment x weights c := by
    intro e
    rw [sweep_eq]
    cases e.admission x c <;> rfl
  unfold assign
  by_cases hcols : x.cols ≠ c.cols
  · rw [if_pos hcols, if_pos hcols]
    exact .of_eq rfl
  · rw [if_neg hcols, if_neg hcols, hsweep, hsweep]
    refine SameUnless.bind (.of_eq rfl) fun _ _ _ => ?_
    refine (admission_agree x c).map fun _ _ => ?_
    exact (alikeOn_exact e e' x weights).assignment ⟨hx, hc, (not_not.mp hcols).symm⟩

theorem distanceMatrix_exact (hx : x.Full) (hc : c.Full) :
    SameUnless (LackScratch K e e') (e.distanceMatrix x c) (e'.distanceMatrix x c) := by
  unfold distanceMatrix
  by_cases hcols : x.cols ≠ c.cols
  · rw [if_pos hcols, if_pos hcols]
    exact .of_eq rfl
  · rw [if_neg hcols, if_neg hcols]
    refine SameUnless.bind (.of_eq rfl) fun _ _ _ => ?_
    exact (pairwise_exact e e' hx hc true).bind fun _ _ _ => .of_eq rfl

end Exact

end Kernel

/-! ### Fits and answers -/

namespace Model

/-- The centroids that the model holds, if it is fitted, are complete. -/
def HasFullFit {E : Precision → Type} {ω : Type} (m : Model E ω) : Prop :=
  ∀ f, m.fitted = some f → f.centroids.Full

theorem full_of_centroidsFor {E : Precision → Type} {ω : Type} {m : Model E ω}
    (hm : m.HasFullFit) {op : String} {p : Precision} {c : Matrix (E p)}
    (h : m.centroidsFor op p = .ok c) : c.Full := by
  unfold centroidsFor at h
  split at h
  · cases h
  · split_ifs at h with hp
    subst hp
    cases h
    exact hm _ ‹_›

/-- The models answer alike for all complete data, unless something lacks. -/
def SameAnswers {E : Precision → Type} {ω : Type} [∀ p, Scalar (E p)] [Scalar ω]
    [∀ p, Widening (E p) ω] [∀ p, BlockProduct (E p)] [Memory] (lack : Prop)
    (m m' : Model E ω) : Prop :=
  ∀ (p : Precision) (x : Dataset (E p)), x.Complete →
    (∀ weights, SameUnless lack (m.predict p x weights) (m'.predict p x weights)) ∧
      SameUnless lack (m.transform p x) (m'.transform p x)

section Same

variable {K σ : Type} [ExactScalar K] [Memory] [Source σ K]

variable {m : Model (fun _ => K) K} {k k' : Metric} {b b' t t' : ℕ} {e e' : Kernel}
  (he : (m.withKernel k b t).kernel = .ok e) (he' : (m.withKernel k' b' t').kernel = .ok e')
include he he'

theorem agree_computeFit_exact [Source.InRange σ] (hm : m.HasFullStart) (p : Precision)
    {x : Dataset K} (hx : x.Complete) (weights : Option (List K)) :
    Seeding.Agree (Kernel.LackScratch K e e')
      ((m.withKernel k b t).computeFit p x weights : Seeding σ K (Fit K K))
      ((m.withKernel k' b' t').computeFit p x weights) := by
  refine agree_computeFit_of_runs he he' fun array harray hdata r => ?_
  obtain ⟨hrows, -, hpresent⟩ := present_of_checkData hdata
  have hfull : x.table.Full := hx hpresent
  refine Seeding.agree_fitRun (Kernel.alike_direct_exact e e') ?_ ?_ r
  · refine (Seeding.yields_candidates hrows e weights _).mono fun c hc => ?_
    refine (Seeding.yields_weighCandidates e weights _ hc).mono fun red hred => ?_
    exact (Kernel.alikeOn_exact e e' red.rows _).refineAlike (hred.fits hfull hc.lt).2.2
  · refine (Seeding.yields_start hrows hfull _ e weights (full_of_startFor hm harray)).mono
      fun cs hcs => ?_
    exact (Kernel.alikeOn_exact e e' x.table weights).refineAlike hcs.2

theorem predict_exact (hm : m.HasFullFit) (p : Precision) {x : Dataset K} (hx : x.Complete)
    (weights : Option (List K)) :
    SameUnless (Kernel.LackScratch K e e') ((m.withKernel k b t).predict p x weights)
      ((m.withKernel k' b' t').predict p x weights) := by
  unfold predict
  refine SameUnless.bind (.of_eq rfl) fun c hc _ => ?_
  refine SameUnless.bind (.of_eq rfl) fun _ hdata _ => ?_
  refine SameUnless.bind (.of_eq rfl) fun _ _ _ => ?_
  have hfull : x.table.Full := hx (present_of_checkData hdata).2.2
  have hassign := Kernel.assign_exact e e' hfull (full_of_centroidsFor hm hc) weights
  rw [he, he']
  dsimp only [Except.bind]
  generalize e.assign x.table c weights = r, e'.assign x.table c weights = r' at hassign
  rcases hassign with rfl | ⟨hlack, hfail⟩
  · exact .of_eq rfl
  · -- exhausted memory is reported in other words, and remains a failure
    refine Or.inr ⟨hlack, hfail.imp ?_ ?_⟩ <;>
      · intro hr
        split
        · rfl
        · exact hr

theorem transform_exact (hm : m.HasFullFit) (p : Precision) {x : Dataset K} (hx : x.Complete) :
    SameUnless (Kernel.LackScratch K e e') ((m.withKernel k b t).transform p x)
      ((m.withKernel k' b' t').transform p x) := by
  unfold transform
  refine SameUnless.bind (.of_eq rfl) fun c hc _ => ?_
  refine SameUnless.bind (.of_eq rfl) fun _ hdata _ => ?_
  have hfull : x.table.Full := hx (present_of_checkData hdata).2.2
  rw [he, he']
  exact Kernel.distanceMatrix_exact e e' hfull (full_of_centroidsFor hm hc)

/-- Models that keep one fit and differ in their kernels only answer alike. -/
theorem sameAnswers_commit {p : Precision} (features : ℕ) {f : Fit K K} (hf : f.centroids.Full) :
    SameAnswers (Kernel.LackScratch K e e') ((m.withKernel k b t).commit p features f)
      ((m.withKernel k' b' t').commit p features f) := by
  have hfull : (m.commit p features f).HasFullFit := by
    rintro _ ⟨⟩
    exact hf
  exact fun q y hy => ⟨predict_exact (m := m.commit p features f) he he' hfull q hy,
    transform_exact (m := m.commit p features f) he he' hfull q hy⟩

end Same

/-- In exact arithmetic the two metrics implement the same clustering, in batches and tiles of any
size: kernels deliver the same nearest centroids and make the same distance tables, and models that
differ in metric, batches and tiles only fit alike, and then predict and transform alike.  Outcomes
differ only if one kernel is refused a scratch buffer and a call fails. -/
theorem metrics_agree {K σ : Type} [ExactScalar K] [Memory] [Source σ K] [Source.InRange σ] :
    (∀ (e e' : Kernel) (x c : Matrix K), x.Full → c.Full →
      SameUnless (Kernel.LackScratch K e e') (e.nearest x c) (e'.nearest x c) ∧
        ∀ euclidean, SameUnless (Kernel.LackScratch K e e') (e.pairwise x c euclidean)
          (e'.pairwise x c euclidean)) ∧
    ∀ (m : Model (fun _ => K) K), m.HasFullStart → ∀ (k k' : Metric) (b b' t t' : ℕ),
      0 < b → 0 < b' → ∃ e e' : Kernel,
        (m.withKernel k b t).kernel = .ok e ∧ (m.withKernel k' b' t').kernel = .ok e' ∧
        ∀ (p : Precision) (x : Dataset K), x.Complete → ∀ weights : Option (List K),
          let o := (m.withKernel k b t).fit σ p x weights
          let o' := (m.withKernel k' b' t').fit σ p x weights
          SameUnless (Kernel.LackScratch K e e') o.result o'.result ∧
            (o.result.isOk = true → o'.result.isOk = true →
              SameAnswers (Kernel.LackScratch K e e') o.model o'.model) := by
  refine ⟨fun e e' x c hx hc => ⟨Kernel.nearest_exact e e' hx hc,
    Kernel.pairwise_exact e e' hx hc⟩, fun m hm k k' b b' t t' hb hb' => ?_⟩
  obtain ⟨e, he, -⟩ := m.kernel_withKernel k hb t
  obtain ⟨e', he', -⟩ := m.kernel_withKernel k' hb' t'
  refine ⟨e, e', he, he', fun p x hx weights => ?_⟩
  intro o o'
  have hfit : SameUnless (Kernel.LackScratch K e e') o.result o'.result := by
    rw [result_fit, result_fit]
    exact (agree_computeFit_exact he he' hm p hx weights).sameUnless _
  refine ⟨hfit, fun hok hok' => ?_⟩
  obtain ⟨f, hf, hf'⟩ := hfit.exists_of_isOk hok hok'
  -- the later calls need the committed centroids to be full, which the fit has seen to
  have hfull : f.centroids.Full := by
    have hm' : (m.withKernel k b t).HasFullStart := hm
    rw [result_fit] at hf
    exact (yields_centroids hm' hx _ f hf).2.full_centroids
  rw [fit_of_ok _ _ _ _ hf, fit_of_ok _ _ _ _ hf']
  exact sameAnswers_commit he he' x.table.cols hfull

end Model

/-! ### Three points on a line -/

/-- Small batches and tiles find their buffers, with the norms of as many centroids as there can
be. -/
theorem Kernel.grantsScratch_of_small {e : Kernel} (hb : e.batchRows ≤ 4) (ht : 0 < e.tileRows)
    (ht' : e.tileRows ≤ 4) : e.GrantsScratch ℚ := by
  have hgrant : ∀ what width count, 0 < width → width ≤ 8 → count ≤ indexLimit →
      Memory.buffer what width count = .ok () := by
    intro what width count hpos hwidth hcount
    refine Memory.buffer_of_granted (Memory.refuse_of_small hpos ?_) what
    calc count * width ≤ indexLimit * 8 := Nat.mul_le_mul hcount hwidth
      _ < 2 ^ 50 := by decide
  intro n k hk
  have hbatch : min e.batchRows n ≤ 4 := (Nat.min_le_left _ _).trans hb
  have htile : e.tile k ≤ 4 := by
    rw [tile, if_neg (by omega)]
    omega
  have hproduct : sizeWord (min e.batchRows n * e.tile k) ≤ indexLimit :=
    calc sizeWord (min e.batchRows n * e.tile k) ≤ min e.batchRows n * e.tile k := Nat.mod_le _ _
      _ ≤ 4 * 4 := Nat.mul_le_mul hbatch htile
      _ ≤ indexLimit := by decide
  have hlimit : min e.batchRows n ≤ indexLimit := hbatch.trans (by decide)
  have hnorms : e.normBuffers ℚ n k = .ok () := by
    unfold normBuffers
    rw [hgrant _ _ _ (by decide) (by decide) hlimit, hgrant _ _ _ (by decide) (by decide) hk]
    split_ifs <;> rfl
  unfold sweepBuffers
  dsimp only
  rw [hgrant _ _ _ (by decide) (by decide) hlimit, hgrant _ _ _ (by decide) (by decide) hlimit,
    hgrant _ _ _ (by decide) (by decide) hproduct, hnorms]
  split_ifs <;> rfl

/-- Two clusters of three points: products of blocks and sums of squares make the same fit. -/
theorem Model.metrics_agree_line :
    let m : Model (fun _ => ℚ) ℚ := ⟨{ Params.standard with clusters := 2 }, none, none⟩
    let x : Dataset ℚ := ⟨⟨3, 1, [0, 1, 5]⟩, true⟩
    x.Complete ∧
      ((m.withKernel .expanded 2 1).fit (Counter ℚ) .double x none).result =
        ((m.withKernel .unexpanded 4 2).fit (Counter ℚ) .double x none).result := by
  intro m x
  have hx : x.Complete := fun _ => rfl
  obtain ⟨e, e', he, he', h⟩ := (metrics_agree (σ := Counter ℚ)).2 m nofun .expanded .unexpanded
    2 4 1 2 (by decide) (by decide)
  have hexpanded : (m.withKernel .expanded 2 1).kernel = .ok ⟨.expanded, 2, 1, Nat.two_pos⟩ := rfl
  have hdirect : (m.withKernel .unexpanded 4 2).kernel = .ok ⟨.unexpanded, 4, 2, Nat.succ_pos 3⟩ :=
    rfl
  obtain rfl := Except.ok.inj (he.symm.trans hexpanded)
  obtain rfl := Except.ok.inj (he'.symm.trans hdirect)
  have hscratch : ¬ Kernel.LackScratch ℚ ⟨.expanded, 2, 1, Nat.two_pos⟩
      ⟨.unexpanded, 4, 2, Nat.succ_pos 3⟩ := not_not.mpr
    ⟨Kernel.grantsScratch_of_small (by decide) (by decide) (by decide),
      Kernel.grantsScratch_of_small (by decide) (by decide) (by decide)⟩
  exact ⟨hx, (h .double x hx none).1.eq_of_not hscratch⟩

end Clustering
