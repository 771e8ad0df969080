import Clustering.Proofs.Rows
import Clustering.Proofs.Lloyd.Orbit

/-!
# Clusters as lists of rows

The tally of a pass is kept for all clusters at once, row by row.  Seen from one cluster it is the
mass and the moment of the rows that carry its label, added up in row order: `weights_tally` and
`sums_tally`.  So an iteration moves a cluster with mass to the mean of its members and leaves the
others where they are (`row_update`).

No law of arithmetic is used here.
-/

namespace Clustering

/-- Rows with their weights. -/
abbrev WeightedRows (α : Type) := List (List α × α)

namespace WeightedRows

variable {α : Type} [Scalar α]

/-- The sum of the weights. -/
def mass (ms : WeightedRows α) : α := total (ms.map (·.2))

/-- The weighted sum of the rows, for rows of `dim` coordinates. -/
def moment (dim : ℕ) (ms : WeightedRows α) : List α :=
  (List.range dim).map fun i => total (ms.map fun p => p.2 * p.1.getD i 0)

/-- The weighted mean of the rows. -/
def mean (dim : ℕ) (ms : WeightedRows α) : List α := (moment dim ms).map (· / mass ms)

@[simp] theorem length_mean (dim : ℕ) (ms : WeightedRows α) : (mean dim ms).length = dim := by
  simp [mean, moment]

/-- The rows that carry a label. -/
def labelled (rows : List (List α)) (weights : List α) (labels : List ℕ) (j : ℕ) :
    WeightedRows α :=
  ((rows.zip (weights.zip labels)).filter fun p => p.2.2 = j).map fun p => (p.1, p.2.1)

end WeightedRows

/-! ### One cluster of a tally -/

namespace Tally

variable {α : Type} [Scalar α]

theorem weights_foldl (j : ℕ) : ∀ (ps : List (List α × α × Nearest α)) (t : Tally α),
    (ps.foldl (fun t p => t.addRow p.2.2.label p.2.1 p.1) t).weights[j]? =
      t.weights[j]?.map fun s =>
        ((ps.filter fun p => p.2.2.label = j).map (·.2.1)).foldl (· + ·) s
  | [], t => by simp
  | p :: ps, t => by
    rw [List.foldl_cons, weights_foldl j ps, addRow, List.getElem?_modify]
    by_cases hj : p.2.2.label = j
    · simp [hj, Function.comp_def]
    · simp [hj]

theorem sums_foldl (j : ℕ) : ∀ (ps : List (List α × α × Nearest α)) (t : Tally α),
    (ps.foldl (fun t p => t.addRow p.2.2.label p.2.1 p.1) t).sums[j]? =
      t.sums[j]?.map fun s =>
        (ps.filter fun p => p.2.2.label = j).foldl
          (fun s p => List.zipWith (fun s v => s + p.2.1 * v) s p.1) s
  | [], t => by simp
  | p :: ps, t => by
    rw [List.foldl_cons, sums_foldl j ps, addRow, List.getElem?_modify]
    by_cases hj : p.2.2.label = j
    · simp [hj, Function.comp_def]
    · simp [hj]

/-- Rows of one width are added up coordinate by coordinate. -/
theorem foldl_zipWith_eq_map_range {dim : ℕ} : ∀ (ms : WeightedRows α) (s : List α),
    (∀ p ∈ ms, p.1.length = dim) → s.length = dim →
      ms.foldl (fun s p => List.zipWith (fun s v => s + p.2 * v) s p.1) s =
        (List.range dim).map fun i =>
          (ms.map fun p => p.2 * p.1.getD i 0).foldl (· + ·) (s.getD i 0)
  | [], s, _, hs => eq_map_range_getD hs 0
  | p :: ms, s, hrows, hs => by
    have hp : p.1.length = dim := hrows p List.mem_cons_self
    have hstep := zipWith_eq_map_range (fun s v => s + p.2 * v) hs hp 0 0
    rw [List.foldl_cons, foldl_zipWith_eq_map_range ms _
      (fun q hq => hrows q (List.mem_cons_of_mem _ hq)) (by simp [hs, hp]), hstep]
    refine List.map_congr_left fun i hi => ?_
    rw [List.mem_range] at hi
    simp [hi]

end Tally

namespace Kernel

variable {α : Type} [Scalar α] [BlockProduct α]

/-- The rows that are nearest to a centroid. -/
def members (e : Kernel) (x : Matrix α) (weights : Option (List α)) (c : Matrix α) (j : ℕ) :
    WeightedRows α :=
  .labelled x.rowList (weightsFor weights x.rows) (e.assignment x weights c).labels j

section Members

variable (e : Kernel) (x : Matrix α) (weights : Option (List α)) (c : Matrix α)

theorem members_eq (j : ℕ) :
    e.members x weights c j =
      ((x.rowList.zip ((weightsFor weights x.rows).zip (e.answers x c))).filter
        fun p => p.2.2.label = j).map fun p => (p.1, p.2.1) := by
  rw [members, assignment, ofSweep_delivered, WeightedRows.labelled, List.zip_map_right,
    List.zip_map_right, List.filter_map, List.map_map]
  rfl

/-- The weight of a cluster is that of its members. -/
theorem weights_tally {j : ℕ} (hj : j < c.rows) :
    (e.tally x weights c).weights[j]? = some (WeightedRows.mass (e.members x weights c j)) := by
  rw [tally, tally_delivered, Tally.weights_foldl, members_eq, WeightedRows.mass, List.map_map]
  simp only [Tally.zero, List.getElem?_replicate, hj, if_true, Option.map_some]
  rfl

/-- The row sum of a cluster is the moment of its members. -/
theorem sums_tally {j : ℕ} (hj : j < c.rows) (hx : ∀ v ∈ x.rowList, v.length = x.cols) :
    (e.tally x weights c).sums[j]? =
      some (WeightedRows.moment x.cols (e.members x weights c j)) := by
  have hrows : ∀ p ∈ e.members x weights c j, p.1.length = x.cols := by
    intro p hp
    rw [members_eq, List.mem_map] at hp
    obtain ⟨q, hq, rfl⟩ := hp
    exact hx _ (List.of_mem_zip (List.mem_of_mem_filter hq)).1
  have hfold := Tally.foldl_zipWith_eq_map_range (e.members x weights c j)
    (List.replicate x.cols 0) hrows (by simp)
  rw [tally, tally_delivered, Tally.sums_foldl]
  simp only [Tally.zero, List.getElem?_replicate, hj, if_true, Option.map_some]
  rw [members_eq, List.foldl_map] at hfold
  rw [hfold, WeightedRows.moment, members_eq]
  refine congrArg some (List.map_congr_left fun i hi => ?_)
  rw [List.mem_range] at hi
  simp [total, hi]

/-- The weights of a tally are the masses of the clusters. -/
theorem weights_tally_eq_map :
    (e.tally x weights c).weights =
      (List.range c.rows).map fun j => (e.members x weights c j).mass :=
  eq_map_range_of_getElem? (e.length_tally x weights c).1 fun _ hj => e.weights_tally x weights c hj

/-- The row sums of a tally are the moments of the clusters. -/
theorem sums_tally_eq_map (hx : ∀ v ∈ x.rowList, v.length = x.cols) :
    (e.tally x weights c).sums =
      (List.range c.rows).map fun j => (e.members x weights c j).moment x.cols :=
  eq_map_range_of_getElem? (e.length_tally x weights c).2 fun _ hj =>
    e.sums_tally x weights c hj hx

/-- Candidates are weighed as an iteration weighs its clusters. -/
theorem candidateWeights_eq_weights_tally :
    Oversampling.candidateWeights c.rows weights (e.delivered x c) =
      (e.tally x weights c).weights := by
  have hlen : ((weightsFor weights x.rows).zip (e.answers x c)).length ≤ x.rowList.length := by
    rw [List.length_zip, length_answers, Matrix.length_rowList]
    exact Nat.min_le_right _ _
  have hfold : ∀ (ps : List (List α × α × Nearest α)) (t : Tally α),
      (ps.foldl (fun t p => t.addRow p.2.2.label p.2.1 p.1) t).weights =
        ps.foldl (fun sums p => sums.modify p.2.2.label (· + p.2.1)) t.weights := fun _ _ =>
    (List.foldl_hom Tally.weights fun _ _ => rfl).symm
  rw [tally, tally_delivered, hfold, candidateWeights_delivered]
  conv_lhs => rw [← List.map_snd_zip hlen, List.foldl_map]
  rfl

theorem getElem?_centroids {j : ℕ} (hj : j < c.rows) (hx : ∀ v ∈ x.rowList, v.length = x.cols) :
    ((e.tally x weights c).centroids c.rowList)[j]? =
      some (if WeightedRows.mass (e.members x weights c j) ≤ 0 then c.row j
        else WeightedRows.mean x.cols (e.members x weights c j)) := by
  rw [Tally.centroids, List.getElem?_zipWith, c.getElem?_rowList hj, Tally.clusters, List.zip,
    List.getElem?_zipWith, weights_tally e x weights c hj, sums_tally e x weights c hj hx]
  rfl

theorem length_of_mem_centroids (h : x.Fits c) :
    ∀ v ∈ (e.tally x weights c).centroids c.rowList, v.length = c.cols := by
  intro v hv
  obtain ⟨j, hj⟩ := List.mem_iff_getElem?.mp hv
  have hlt : j < c.rows := by
    have hlen := e.rows_update x weights c
    exact (List.getElem?_eq_some_iff.mp hj).1.trans_eq hlen
  rw [e.getElem?_centroids x weights c hlt (Matrix.length_of_mem_rowList h.full),
    Option.some.injEq] at hj
  subst hj
  split_ifs
  · exact Matrix.length_row h.full_centroids hlt
  · rw [WeightedRows.length_mean, h.cols]

theorem fits_update (h : x.Fits c) : x.Fits (e.update x weights c) :=
  ⟨h.full, Matrix.full_ofRows (e.length_of_mem_centroids x weights c h), h.cols⟩

theorem fits_orbit (h : x.Fits c) (t : ℕ) : x.Fits (e.orbit x weights c t) := by
  induction t with
  | zero => exact h
  | succ t ih => exact e.fits_update x weights _ ih

/-- A cluster with mass moves to the mean of its members, any other one stays. -/
theorem row_update (h : x.Fits c) {j : ℕ} (hj : j < c.rows) :
    (e.update x weights c).row j =
      if WeightedRows.mass (e.members x weights c j) ≤ 0 then c.row j
      else WeightedRows.mean x.cols (e.members x weights c j) := by
  have hrow := Matrix.getElem?_rowList (e.update x weights c) (by rwa [rows_update])
  rw [update, Matrix.rowList_ofRows (e.length_of_mem_centroids x weights c h),
    e.getElem?_centroids x weights c hj (Matrix.length_of_mem_rowList h.full),
    Option.some.injEq] at hrow
  exact hrow.symm

end Members

end Kernel

end Clustering
