import Clustering.Proofs.Lloyd.Hull
import Clustering.Proofs.BestRun

/-!
# Centroids stay in the hull of the data

Starting centroids that are not supplied are rows of the data, or reduced from some of them by a
refinement with weights that are not negative; so they lie in the convex hull of the data
(`Seeding.StartOf.inHull`).  The refinement of a fit moves centroids into the hull or leaves them
where they are, so that those that a fit returns are in the hull too, or where they were supplied
(`Model.centroids_inHull`).
-/

namespace Clustering

variable {K : Type} [ExactScalar K]

/-! ### Starts -/

namespace Seeding

variable {x : Matrix K} {weights : Option (List K)}

theorem inHull_of_mem_pick (hx : x.Full) {is : List ℕ} (his : ∀ i ∈ is, i < x.rows) :
    ∀ v ∈ (x.pick is).rowList, x.InHull v := by
  intro v hv
  rw [Matrix.rowList_pick hx his, List.mem_map] at hv
  obtain ⟨i, hi, rfl⟩ := hv
  exact Matrix.inHull_of_mem hx (Matrix.mem_rowList.mpr ⟨i, his i hi, rfl⟩)

variable [Memory]

/-- Starting centroids that are not supplied are in the hull of the data. -/
theorem StartOf.inHull {p : Params K} {e : Kernel} {array c : Matrix K}
    (h : StartOf p e x weights array c) (hmethod : p.method ≠ .array) (hx : x.Full)
    (hw : ∀ ws ∈ weights, ∀ w ∈ ws, 0 ≤ w) : ∀ v ∈ c.rowList, x.InHull v := by
  cases h with
  | supplied method => exact absurd method hmethod
  | picked _ indices _ => exact inHull_of_mem_pick hx indices.lt
  | @reduced _ _ cs r refiner res candidates reduction run =>
    obtain ⟨-, hcols, hfits⟩ := reduction.fits hx candidates.lt
    obtain ⟨is, his, hseeds⟩ := reduction.seeds
    have hcandidates : ∀ v ∈ r.rows.rowList, x.InHull v := by
      rw [reduction.rows]
      exact inHull_of_mem_pick hx candidates.lt
    have hsound : Kernel.Sound x weights r.rows := by
      rw [reduction.rows]
      exact ⟨Matrix.fits_pick hx candidates.lt, Matrix.rows_pick_pos candidates.nonempty, hw⟩
    have hnonneg : ∀ ws ∈ some r.weights, ∀ w ∈ ws, 0 ≤ w := by
      rintro ws ⟨⟩
      rw [reduction.weights, Kernel.candidateWeights_eq_weights_tally]
      exact e.direct.weights_tally_nonneg hsound
    intro v hv
    obtain ⟨j, hj, rfl⟩ := Matrix.mem_rowList.mp hv
    rw [(Refiner.fits_of_run hfits run).1] at hj
    -- a seed is a candidate, and what has moved is between candidates
    have hreduced : r.rows.InHull (res.centroids.row j) := by
      have hrun := Refiner.row_eq_or_inHull_of_run hfits.full hfits.full_centroids hnonneg run hj
      rcases hrun with hstay | hmove
      · rw [hstay]
        refine inHull_of_mem_pick hfits.full his.lt _ ?_
        rw [← hseeds]
        exact Matrix.mem_rowList.mpr ⟨j, hj, rfl⟩
      · exact hmove
    exact hreduced.trans hcandidates hcols

end Seeding

/-! ### Fits -/

theorem Model.nonneg_of_checkWeights {op : String} {weights : Option (List K)}
    (h : checkWeights op weights = .ok ()) : ∀ ws ∈ weights, ∀ w ∈ ws, 0 ≤ w := by
  rintro ws ⟨⟩ w hw
  unfold checkWeights at h
  dsimp only at h
  split at h
  · cases h
  · rename_i hnone
    have hweight := List.findIdx?_eq_none_iff.mp hnone w hw
    simpa [isWeight, Scalar.isFinite] using hweight

/-- Every centroid is in the hull of the data, or, if it was supplied, where it was supplied. -/
def Matrix.PlacedBy (c : Matrix K) (p : Params K) (x array : Matrix K) : Prop :=
  ∀ j < c.rows, (p.method = .array ∧ c.row j = array.row j) ∨
    (x.InHull (c.row j) ∧ x.Between (c.row j))

section Fits

variable {σ : Type} [Source σ K] [Source.InRange σ] [Memory]

theorem Seeding.StartOf.placedBy {p : Params K} {e : Kernel} {x : Matrix K}
    {weights : Option (List K)} {array c : Matrix K} (h : StartOf p e x weights array c)
    (hx : x.Full) (hw : ∀ ws ∈ weights, ∀ w ∈ ws, 0 ≤ w) : c.PlacedBy p x array := by
  intro j hj
  by_cases hmethod : p.method = .array
  · cases h with
    | supplied _ _ _ => exact Or.inl ⟨hmethod, rfl⟩
    | picked method => exact absurd hmethod method
    | reduced method => exact absurd hmethod method
  · have hrow := h.inHull hmethod hx hw _ (Matrix.mem_rowList.mpr ⟨j, hj, rfl⟩)
    exact Or.inr ⟨hrow, hrow.between⟩

namespace Model

/-- Starting centroids that are not supplied, and all centroids that a fit has moved, are in the
convex hull of the data, and so between the least and the greatest entry of each column. -/
theorem centroids_inHull :
    (∀ (p : Params K) (e : Kernel) (x : Matrix K) (weights : Option (List K)) (array : Matrix K),
      0 < x.rows → x.Full → (∀ ws ∈ weights, ∀ w ∈ ws, 0 ≤ w) →
        Seeding.Yields (Seeding.start p e x weights array : Seeding σ K (Matrix K × SeedStats))
          fun cs => cs.1.PlacedBy p x array) ∧
    ∀ (m : Model (fun _ => K) K) (p : Precision) (x : Dataset K) (weights : Option (List K))
      (f : Fit K K), m.HasFullStart → x.Complete → (m.fit σ p x weights).result = .ok f →
        ∃ array, m.startFor p = .ok array ∧ f.centroids.PlacedBy m.params x.table array := by
  constructor
  · intro p e x weights array hpos hx hw
    exact (Seeding.yields_startOf hpos p e weights array).mono fun cs h => h.placedBy hx hw
  · intro m p x weights f hm hx hfit
    obtain ⟨array, e, hready, r, -, -, c, hstart, hrun⟩ := isRun_of_fit hfit
    have hfull := hx (present_of_checkData hready.data).2.2
    have hw := nonneg_of_checkWeights hready.weighed
    obtain ⟨-, hfits⟩ := hstart.fits hfull fun _ => full_of_startFor hm hready.start
    refine ⟨array, hready.start, fun j hj => ?_⟩
    rw [(Refiner.fits_of_run hfits hrun).1] at hj
    rcases Refiner.row_eq_or_inHull_of_run hfull hfits.full_centroids hw hrun hj with hstay | hmove
    · rw [hstay]
      exact hstart.placedBy hfull hw j hj
    · exact Or.inr ⟨hmove, hmove.between⟩

end Model

end Fits

/-! ### A centroid off the data -/

namespace Model

/-- Two supplied centroids, the second of which is far from all points. -/
def aside : Model (fun _ => ℚ) ℚ where
  params := { Params.standard with clusters := 2, method := .array }
  start := some ⟨.double, ⟨2, 1, [0, 100]⟩⟩
  fitted := none

/-- Three points on a line. -/
def threePoints : Dataset ℚ := ⟨⟨3, 1, [1, 2, 6]⟩, true⟩

/-- The first centroid moves into the hull of the points; the second one stays where it was. -/
theorem centroids_inHull_aside :
    ∃ f, (aside.fit (Counter ℚ) .double threePoints none).result = .ok f ∧
      f.centroids = ⟨2, 1, [3, 100]⟩ ∧ threePoints.table.InHull (f.centroids.row 0) := by
  have hcentroids : (aside.fit (Counter ℚ) .double threePoints none).result.map (·.centroids) =
      .ok ⟨2, 1, [3, 100]⟩ := by
    decide +kernel
  have hstart : aside.HasFullStart := by
    rintro s ⟨⟩
    decide
  cases hfit : (aside.fit (Counter ℚ) .double threePoints none).result with
  | error e => rw [hfit] at hcentroids; cases hcentroids
  | ok f =>
    rw [hfit] at hcentroids
    replace hcentroids : f.centroids = ⟨2, 1, [3, 100]⟩ := Except.ok.inj hcentroids
    obtain ⟨array, harray, hplaced⟩ :=
      centroids_inHull.2 aside .double threePoints none f hstart (fun _ => rfl) hfit
    cases harray
    rw [hcentroids] at hplaced
    refine ⟨f, rfl, hcentroids, ?_⟩
    rw [hcentroids]
    rcases hplaced 0 (by decide) with ⟨-, hstay⟩ | ⟨hmove, -⟩
    · exact absurd hstay (by decide)
    · exact hmove

end Model

end Clustering
