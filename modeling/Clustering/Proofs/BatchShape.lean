import Clustering.Proofs.Fits

/-!
# Fits and the shape of batches

With a direct metric the sizes of batches and tiles are a matter of speed and memory only: a fit
has the same result for all of them (`fit_batch_shape`).  Seeding and refinement of all runs stay
in step, draw by draw, since every sum is added up in row order whatever the batches are.
-/

namespace Clustering

/-! ### Fits -/

/-- The parameters with other batches and tiles. -/
def Params.withBatches {ω : Type} (p : Params ω) (batchRows tileRows : ℕ) : Params ω :=
  { p with batchRows, tileRows }

namespace Model

variable {E : Precision → Type} {ω σ : Type}

/-- The model with other batches and tiles. -/
def withBatches (m : Model E ω) (b t : ℕ) : Model E ω :=
  { m with params := m.params.withBatches b t }

variable [∀ p, Scalar (E p)] [Scalar ω] [∀ p, Widening (E p) ω] [∀ p, BlockProduct (E p)]
  [Memory] [Source σ ω]

theorem agree_computeFit (m : Model E ω) (hm : m.params.metric ≠ .expanded)
    (p : Precision) (x : Dataset (E p)) (weights : Option (List (E p))) {b b' : ℕ} (t t' : ℕ)
    (hb : 0 < b) (hb' : 0 < b')
    (hmem : Kernel.GrantsBatch (E p) (min (max b b') indexLimit)) :
    Seeding.Agree False ((m.withBatches b t).computeFit p x weights : Seeding σ ω (Fit (E p) ω))
      ((m.withBatches b' t').computeFit p x weights) := by
  obtain ⟨e, he, hmetric, hrows, -⟩ := m.kernel_withKernel m.params.metric hb t
  obtain ⟨e', he', hmetric', hrows', -⟩ := m.kernel_withKernel m.params.metric hb' t'
  have hgrant : Kernel.GrantsBatch (E p) e.batchRows := fun count hc => hmem count (by omega)
  have hgrant' : Kernel.GrantsBatch (E p) e'.batchRows := fun count hc => hmem count (by omega)
  have halike : Kernel.Alike (E p) False e e' :=
    Kernel.alike_of_direct (hmetric ▸ hm) (hmetric' ▸ hm) hgrant hgrant'
  have hdirect : Kernel.Alike (E p) False e.direct e'.direct :=
    Kernel.alike_of_direct nofun nofun hgrant hgrant'
  have hrefine : ∀ (y : Matrix (E p)) (ws : Option (List (E p))) (c : Matrix (E p)),
      Kernel.RefineAlike False ω e e' y ws c := fun y ws c => (halike.on y ws).refineAlike trivial
  exact agree_computeFit_of_runs he he' fun array _ _ r => Seeding.agree_fitRun hdirect
    (.of_forall fun _ => .of_forall fun _ => hrefine _ _ _) (.of_forall fun _ => hrefine _ _ _) r

/-- A fit has the same result whatever the sizes of batches and tiles are, if there is memory for
the answers of a batch.  No batch exceeds the index limit. -/
theorem fit_batch_shape (m : Model E ω) (hm : m.params.metric ≠ .expanded) (p : Precision)
    (x : Dataset (E p)) (weights : Option (List (E p))) {b b' : ℕ} (t t' : ℕ) (hb : 0 < b)
    (hb' : 0 < b') (hmem : Kernel.GrantsBatch (E p) (min (max b b') indexLimit)) :
    ((m.withBatches b t).fit σ p x weights).result =
      ((m.withBatches b' t').fit σ p x weights).result := by
  rw [result_fit, result_fit]
  exact ((m.agree_computeFit hm p x weights t t' hb hb' hmem).sameUnless _).eq_of_not id

end Model

/-- Single rows against single centroids, and all rows at once against all centroids. -/
theorem Model.fit_batch_shape_standard :
    Kernel.GrantsBatch (Precision.Machine .double) (min (max 1 (2 ^ 40)) indexLimit) ∧
      (((⟨.standard, none, none⟩ : Model Precision.Machine Float).withBatches 1 1).fit
          (Twister Twister.wide) .double ⟨⟨3, 1, [0, 1, 5]⟩, true⟩ none).result =
        (((⟨.standard, none, none⟩ : Model Precision.Machine Float).withBatches (2 ^ 40) 0).fit
          (Twister Twister.wide) .double ⟨⟨3, 1, [0, 1, 5]⟩, true⟩ none).result := by
  have hmem : Kernel.GrantsBatch (Precision.Machine .double) (min (max 1 (2 ^ 40)) indexLimit) := by
    intro count hc
    have hbytes : Scalar.bytes (Precision.Machine .double) = 8 := rfl
    rw [indexLimit] at hc
    refine ⟨Memory.refuse_of_small (by decide) ?_, Memory.refuse_of_small (by decide) ?_⟩
    · rw [labelBytes]
      omega
    · rw [hbytes]
      omega
  exact ⟨hmem, fit_batch_shape _ (by decide) .double _ none 1 0 (by decide) (by decide) hmem⟩

end Clustering
