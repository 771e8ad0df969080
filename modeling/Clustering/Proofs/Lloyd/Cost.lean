import Clustering.Proofs.Exact
import Clustering.Proofs.Lloyd.Clusters

/-!
# The weighted squared error

In exact arithmetic the inertia of an assignment is the sum over the clusters of the weighted
squared errors of their members (`Kernel.inertia_eq_sum_cost`), and the error against any centre is
the error against the mean plus the mass times the squared distance of the two
(`WeightedRows.cost_eq_add`).  So an update lowers the error of each cluster by exactly its mass
times the squared movement of its centroid (`Kernel.cost_row_update`).  What is recorded of the
movement is the sum of the squared movements of all centroids (`Kernel.shift_eq_sum`).
-/

namespace Clustering

variable {K : Type} [ExactScalar K]

/-! ### Error against a centre -/

namespace WeightedRows

/-- The weighted squared error of rows against a centre. -/
def cost (o : List K) (ms : WeightedRows K) : K := (ms.map fun p => p.2 * sqDist p.1 o).sum

theorem mass_eq_sum (ms : WeightedRows K) : mass ms = (ms.map (·.2)).sum := total_eq_sum _

theorem cost_eq_sum {dim : ℕ} {o : List K} (ho : o.length = dim) :
    ∀ ms : WeightedRows K, (∀ p ∈ ms, p.1.length = dim) →
      cost o ms = ∑ i ∈ Finset.range dim, (ms.map fun p =>
        p.2 * ((p.1.getD i 0 - o.getD i 0) * (p.1.getD i 0 - o.getD i 0))).sum
  | [], _ => by simp [cost]
  | p :: ms, h => by
    have ih := cost_eq_sum ho ms fun q hq => h q (List.mem_cons_of_mem _ hq)
    rw [cost] at ih
    rw [cost, List.map_cons, List.sum_cons, ih, sqDist_eq_sum (h p List.mem_cons_self) ho,
      Finset.mul_sum, ← Finset.sum_add_distrib]
    rfl

/-- The squared error of numbers, seen from two centres. -/
theorem sum_sq_sub {β : Type} (w v : β → K) (o m : K) (ps : List β) :
    (ps.map fun p => w p * ((v p - o) * (v p - o))).sum =
      (ps.map fun p => w p * ((v p - m) * (v p - m))).sum +
        2 * (m - o) * ((ps.map fun p => w p * v p).sum - (ps.map w).sum * m) +
        (ps.map w).sum * ((m - o) * (m - o)) := by
  induction ps with
  | nil => simp
  | cons p ps ih =>
    simp only [List.map_cons, List.sum_cons, ih]
    ring

theorem getD_mean {dim i : ℕ} (hi : i < dim) (ms : WeightedRows K) :
    (mean dim ms).getD i 0 = (ms.map fun p => p.2 * p.1.getD i 0).sum / mass ms := by
  rw [mean, moment, List.map_map, getD_map_range _ _ hi, Function.comp_apply, total_eq_sum]

/-- The error against a centre is that against the mean, and what lies between the two. -/
theorem cost_eq_add {dim : ℕ} {o : List K} {ms : WeightedRows K} (ho : o.length = dim)
    (hms : ∀ p ∈ ms, p.1.length = dim) (hmass : 0 < mass ms) :
    cost o ms = cost (mean dim ms) ms + mass ms * sqDist (mean dim ms) o := by
  have hm : (mean dim ms).length = dim := length_mean dim ms
  rw [cost_eq_sum ho ms hms, cost_eq_sum hm ms hms, sqDist_eq_sum hm ho, Finset.mul_sum,
    ← Finset.sum_add_distrib]
  refine Finset.sum_congr rfl fun i hi => ?_
  rw [Finset.mem_range] at hi
  -- the mean is the one centre for which the mixed term vanishes
  have hcross : (ms.map fun p => p.2 * p.1.getD i 0).sum -
      (ms.map (·.2)).sum * (mean dim ms).getD i 0 = 0 := by
    rw [getD_mean hi, ← mass_eq_sum, mul_div_cancel₀ _ hmass.ne', sub_self]
  rw [sum_sq_sub (·.2) (fun p => p.1.getD i 0) (o.getD i 0) ((mean dim ms).getD i 0) ms, hcross,
    mul_zero, add_zero, ← mass_eq_sum]

end WeightedRows

/-! ### Rows by label -/

theorem zip_zip_map {β γ δ : Type} (f : β → δ) : ∀ (xs : List β) (ws : List γ),
    xs.zip (ws.zip (xs.map f)) = (xs.zip ws).map fun p => (p.1, p.2, f p.1)
  | [], _ => rfl
  | _ :: _, [] => rfl
  | x :: xs, w :: ws => by
    rw [List.map_cons, List.zip_cons_cons, List.zip_cons_cons, List.zip_cons_cons,
      zip_zip_map f xs ws]
    rfl

/-- A sum over rows, taken label by label. -/
theorem sum_map_eq_sum_labels {β : Type} (label : β → ℕ) (f : β → K) {k : ℕ} :
    ∀ ps : List β, (∀ p ∈ ps, label p < k) →
      (ps.map f).sum = ∑ j ∈ Finset.range k, ((ps.filter fun p => label p = j).map f).sum
  | [], _ => by simp
  | p :: ps, h => by
    have ih := sum_map_eq_sum_labels label f ps fun q hq => h q (List.mem_cons_of_mem _ hq)
    have hp : label p ∈ Finset.range k := Finset.mem_range.mpr (h p List.mem_cons_self)
    have hstep : ∀ j, (((p :: ps).filter fun q => label q = j).map f).sum =
        (if label p = j then f p else 0) + ((ps.filter fun q => label q = j).map f).sum := by
      intro j
      by_cases hj : label p = j
      · simp [hj]
      · simp [hj]
    rw [List.map_cons, List.sum_cons, ih, Finset.sum_congr rfl fun j _ => hstep j,
      Finset.sum_add_distrib, Finset.sum_ite_eq, if_pos hp]

namespace Kernel

/-- The rows with their weights. -/
def weighted (x : Matrix K) (weights : Option (List K)) : WeightedRows K :=
  x.rowList.zip (weightsFor weights x.rows)

/-- The label that a row gets. -/
def labelOf (c : Matrix K) (v : List K) : ℕ := (Nearest.among c.rowList v).label

section Fits

variable (e : Kernel) {x c : Matrix K} (weights : Option (List K))

theorem members_exact (h : x.Fits c) (j : ℕ) :
    e.members x weights c j = (weighted x weights).filter fun p => labelOf c p.1 = j := by
  rw [members_eq, e.answers_exact h, zip_zip_map, List.filter_map, List.map_map]
  exact List.map_id' _

theorem getElem?_labels (h : x.Fits c) {i : ℕ} (hi : i < x.rows) :
    (e.assignment x weights c).labels[i]? = some (labelOf c (x.row i)) := by
  rw [assignment, ofSweep_delivered, e.answers_exact h, List.map_map, List.getElem?_map,
    x.getElem?_rowList hi]
  rfl

theorem length_of_mem_members (h : x.Fits c) {j : ℕ} :
    ∀ p ∈ e.members x weights c j, p.1.length = x.cols := by
  intro p hp
  rw [e.members_exact weights h] at hp
  exact Matrix.length_of_mem_rowList h.full _ (List.of_mem_zip (List.mem_of_mem_filter hp)).1

theorem inertia_exact (h : x.Fits c) (hc : 0 < c.rows) :
    (e.assignment x weights c).inertia =
      ((weighted x weights).map fun p => p.2 * sqDist p.1 (c.row (labelOf c p.1))).sum := by
  have hzip : ∀ (xs : List (List K)) (ws : List K),
      List.zipWith (fun w n => w * n.dist) ws (xs.map (Nearest.among c.rowList)) =
        (xs.zip ws).map fun p => p.2 * sqDist p.1 (c.row (labelOf c p.1)) := by
    intro xs ws
    rw [List.zipWith_map_right, List.zipWith_comm, List.map_zip_eq_zipWith]
    refine congrArg (List.zipWith · xs ws) (funext₂ fun v w => ?_)
    rw [(Nearest.among_spec c hc v).2]
    rfl
  rw [assignment, ofSweep_delivered, e.answers_exact h, total_eq_sum, hzip]
  rfl

/-- The error against centres that are chosen by label, taken cluster by cluster. -/
theorem sum_map_eq_sum_cost (h : x.Fits c) (hc : 0 < c.rows) (o : ℕ → List K) :
    ((weighted x weights).map fun p => p.2 * sqDist p.1 (o (labelOf c p.1))).sum =
      ∑ j ∈ Finset.range c.rows, WeightedRows.cost (o j) (e.members x weights c j) := by
  rw [sum_map_eq_sum_labels (fun p => labelOf c p.1) _ _
    fun p _ => (Nearest.among_spec c hc p.1).1.1]
  refine Finset.sum_congr rfl fun j _ => ?_
  rw [WeightedRows.cost, e.members_exact weights h]
  refine congrArg List.sum (List.map_congr_left fun p hp => ?_)
  rw [of_decide_eq_true (List.mem_filter.mp hp).2]

/-- The inertia is the sum of the errors of the clusters. -/
theorem inertia_eq_sum_cost (h : x.Fits c) (hc : 0 < c.rows) :
    (e.assignment x weights c).inertia =
      ∑ j ∈ Finset.range c.rows, WeightedRows.cost (c.row j) (e.members x weights c j) := by
  rw [e.inertia_exact weights h hc, e.sum_map_eq_sum_cost weights h hc c.row]

/-- The error of the members of a cluster falls by its mass times the squared movement. -/
theorem cost_row_update (h : x.Fits c) {j : ℕ} (hj : j < c.rows) :
    WeightedRows.cost (c.row j) (e.members x weights c j) =
      WeightedRows.cost ((e.update x weights c).row j) (e.members x weights c j) +
        WeightedRows.mass (e.members x weights c j) *
          sqDist ((e.update x weights c).row j) (c.row j) := by
  have hrow : (c.row j).length = x.cols := by
    rw [Matrix.length_row h.full_centroids hj, h.cols]
  rw [e.row_update x weights c h hj]
  split_ifs with hmass
  · rw [sqDist_self, mul_zero, add_zero]
  · exact WeightedRows.cost_eq_add hrow (e.length_of_mem_members weights h) (not_le.mp hmass)

end Fits

end Kernel

/-! ### The shift -/

namespace Tally

theorem foldl_addShift_eq : ∀ (sum : K) (old : List (List K)) (clusters : List (K × List K)),
    (old.zip clusters).foldl (fun sum (p : List K × K × List K) => addShift sum p.1 p.2) sum =
      sum + (List.zipWith (fun o m => sqDist m o) old (List.zipWith moved old clusters)).sum
  | sum, [], _ => (add_zero sum).symm
  | sum, _ :: _, [] => (add_zero sum).symm
  | sum, o :: old, cl :: clusters => by
    have hstep : addShift sum o cl = sum + sqDist (moved o cl) o := by
      unfold addShift moved
      split_ifs
      · rw [sqDist_self, add_zero]
      · rw [foldl_add, sqDist, total_eq_sum, List.zipWith_map_left, List.zipWith_comm]
        rfl
    rw [List.zip_cons_cons, List.foldl_cons, foldl_addShift_eq _ old clusters, hstep,
      List.zipWith_cons_cons, List.zipWith_cons_cons, List.sum_cons, add_assoc]

/-- A cluster without weight does not move, and so adds nothing either way. -/
theorem shift_eq_sum (t : Tally K) (old : List (List K)) :
    t.shift old = (List.zipWith (fun o m => sqDist m o) old (t.centroids old)).sum :=
  (foldl_addShift_eq 0 old t.clusters).trans (zero_add _)

end Tally

namespace Kernel

/-- The shift is the sum of the squared movements of the centroids. -/
theorem shift_eq_sum (e : Kernel) {x c : Matrix K} (weights : Option (List K)) (h : x.Fits c) :
    (e.tally x weights c).shift c.rowList =
      ((List.range c.rows).map fun j => sqDist ((e.update x weights c).row j) (c.row j)).sum := by
  have hmoved : (e.tally x weights c).centroids c.rowList = (e.update x weights c).rowList :=
    (Matrix.rowList_ofRows (e.length_of_mem_centroids x weights c h)).symm
  have hlen : (e.update x weights c).rowList.length = c.rows := by
    rw [Matrix.length_rowList, rows_update]
  rw [Tally.shift_eq_sum, hmoved, zipWith_eq_map_range _ c.length_rowList hlen [] []]
  refine congrArg List.sum (List.map_congr_left fun j hj => ?_)
  rw [List.mem_range] at hj
  rw [Matrix.getD_rowList c hj, Matrix.getD_rowList _ (by rwa [rows_update])]

end Kernel

end Clustering
