import Clustering.Proofs.Argmin
import Clustering.Proofs.MachineUnit
import Clustering.Proofs.Prediction
import Clustering.Proofs.Ranges

/-!
# The inertia of the labels

The inertia that an assignment reports is a sum of leading distances, taken while batches and tiles
are scanned; `inertiaOf` computes the distance of each row to the centroid of its label anew.  The
leading distance is the one that stands at the label (`Lead.HoldsIn`), also where no distance is
below infinity and the first label is kept, so both are sums of the same terms in the same order
(`Kernel.recounts_assignment`).

`Model.inertia_recounts`: without weights the two agree for every assignment by the direct metric
and every fit with it, bit for bit wherever a product with one is the other factor, and in exact
arithmetic for the expanded metric as well.  Nothing is asked of the comparison.
-/

namespace Clustering

open Scalar

/-! ### The distance at the label -/

section Lead

variable {α : Type} [Scalar α]

/-- A lead holds the distance that stands at its label; as long as nothing was below infinity, its
label is the first one. -/
inductive Lead.HoldsIn (vs : List α) : Lead α → Prop
  | none (infinite : ∀ v ∈ vs, belowInfinity v = false) : HoldsIn vs start
  | some {j : ℕ} {d : α} (get : vs[j]? = .some d) : HoldsIn vs ⟨j, .some d⟩

namespace Lead

theorem HoldsIn.challenge {vs : List α} {l : Lead α} (h : HoldsIn vs l) (v : α) :
    HoldsIn (vs ++ [v]) (l.challenge vs.length v) := by
  have hlast : (vs ++ [v])[vs.length]? = .some v := by simp
  unfold Lead.challenge
  split_ifs with hbeaten
  · exact .some hlast
  · cases h with
    | none infinite =>
      exact .none (List.forall_mem_append.mpr ⟨infinite, by simpa [start, beatenBy] using hbeaten⟩)
    | some get =>
      refine .some ?_
      rwa [List.getElem?_append_left (List.getElem?_eq_some_iff.mp get).1]

theorem holdsIn_scan (vs : List α) : HoldsIn vs (start.scan 0 vs) := by
  induction vs using List.reverseRecOn with
  | nil => exact .none nofun
  | append_singleton vs v ih =>
    rw [scan_concat]
    exact ih.challenge v

/-- Of numbers, the scan answers with the one at its label. -/
theorem getElem?_label {vs : List α} (hne : vs ≠ []) (hnum : ∀ v ∈ vs, IsNumber v) :
    vs[(start.scan 0 vs).nearest.label]? = .some (start.scan 0 vs).nearest.dist := by
  have h := holdsIn_scan vs
  generalize start.scan 0 vs = l at h
  cases h with
  | none infinite =>
    obtain ⟨v, ws, rfl⟩ := List.exists_cons_of_ne_nil hne
    have hinf := infinite v List.mem_cons_self
    exact congrArg Option.some (eq_infinity (hnum v List.mem_cons_self) (by simp [hinf]))
  | some get => exact get

end Lead

end Lead

/-- The distances from the rows to the centroids are numbers: finite, or infinite, but not NaN. -/
def Matrix.NumericTo {α : Type} [Scalar α] (x c : Matrix α) : Prop :=
  ∀ i < x.rows, ∀ j < c.rows, IsNumber (sqDist (x.row i) (c.row j))

section Distances

variable {α : Type} [Scalar α]

/-- The nearest centroid of a row is named with its own distance. -/
theorem Nearest.among_dist {c : Matrix α} (hc : 0 < c.rows) {v : List α}
    (hnum : ∀ j < c.rows, IsNumber (sqDist v (c.row j))) :
    (among c.rowList v).label < c.rows ∧
      (among c.rowList v).dist = sqDist v (c.row (among c.rowList v).label) := by
  have hlength : (c.rowList.map (sqDist v)).length = c.rows := by simp
  have hne : c.rowList.map (sqDist v) ≠ [] := by
    intro hnil
    rw [hnil] at hlength
    exact absurd hlength hc.ne
  have hget : (c.rowList.map (sqDist v))[(among c.rowList v).label]? =
      some (among c.rowList v).dist := by
    refine Lead.getElem?_label hne fun u hu => ?_
    obtain ⟨w, hw, rfl⟩ := List.mem_map.mp hu
    obtain ⟨j, hj, rfl⟩ := Matrix.mem_rowList.mp hw
    exact hnum j hj
  have hlt : (among c.rowList v).label < c.rows := (Lead.label_scan_lt _ hne).trans_eq hlength
  rw [List.getElem?_map, c.getElem?_rowList hlt, Option.map_some, Option.some.injEq] at hget
  exact ⟨hlt, hget.symm⟩

/-- Of the stored values a row is compared with those of one centroid only, unless it is wider. -/
theorem centroidDist_eq {c : Matrix α} {v : List α} (hv : v.length ≤ c.cols) (l : ℕ) :
    centroidDist c v l = sqDist v (c.row l) := by
  have htake : ∀ (f : α → α → α) (ws : List α),
      List.zipWith f v (ws.take c.cols) = List.zipWith f v ws := by
    intro f ws
    have hle : (List.zipWith f v ws).length ≤ c.cols := by
      rw [List.length_zipWith]
      exact (Nat.min_le_left _ _).trans hv
    conv_lhs => rw [← List.take_of_length_le hv, ← List.take_zipWith]
    exact List.take_of_length_le hle
  exact congrArg total (htake _ _).symm

omit [Scalar α] in
theorem length_le_of_mem_rowList {m : Matrix α} {v : List α} (hv : v ∈ m.rowList) :
    v.length ≤ m.cols := by
  obtain ⟨i, -, rfl⟩ := Matrix.mem_rowList.mp hv
  exact List.length_take_le _ _

/-! ### The sum of the distances -/

/-- The inertia is what is computed anew from the labels. -/
def Recounts (x c : Matrix α) (labels : List ℕ) (inertia : α) : Prop :=
  inertia = inertiaOf x (labels.map Int.ofNat) c

theorem clusterOf?_ofNat {k l : ℕ} (h : l < k) : clusterOf? k (Int.ofNat l) = some l :=
  if_pos ⟨Int.natCast_nonneg l, Int.ofNat_lt.mpr h⟩

/-- The distances of the rows to the centroids of their labels, added up in row order. -/
theorem inertiaOf_map {x c : Matrix α} (hcols : x.cols ≤ c.cols) {f : List α → Nearest α}
    (hf : ∀ v ∈ x.rowList, (f v).label < c.rows ∧ (f v).dist = sqDist v (c.row (f v).label)) :
    inertiaOf x (x.rowList.map fun v => Int.ofNat (f v).label) c =
      total (x.rowList.map fun v => (f v).dist) := by
  rw [inertiaOf, ← List.map_prod_left_eq_zip, List.foldl_map, total, List.foldl_map]
  refine List.foldl_ext _ _ _ fun sum v hv => ?_
  obtain ⟨hlt, hdist⟩ := hf v hv
  rw [addSquare, clusterOf?_ofNat hlt, hdist]
  exact congrArg (sum + ·) (centroidDist_eq ((length_le_of_mem_rowList hv).trans hcols) _)

namespace Kernel

variable [BlockProduct α]

/-- Where each row is answered with its first nearest centroid, the inertia without weights is the
sum of the distances at the labels. -/
theorem recounts_assignment [Unital α] {e : Kernel} {x c : Matrix α} (hc : 0 < c.rows)
    (hcols : x.cols ≤ c.cols) (hnum : x.NumericTo c)
    (hanswers : e.answers x c = x.rowList.map (Nearest.among c.rowList)) :
    Recounts x c (e.assignment x none c).labels (e.assignment x none c).inertia := by
  have hdist : ∀ v ∈ x.rowList, (Nearest.among c.rowList v).label < c.rows ∧
      (Nearest.among c.rowList v).dist = sqDist v (c.row (Nearest.among c.rowList v).label) := by
    intro v hv
    obtain ⟨i, hi, rfl⟩ := Matrix.mem_rowList.mp hv
    exact Nearest.among_dist hc (hnum i hi)
  have hones : weightsFor (none : Option (List α)) x.rows = x.rowList.map fun _ => 1 := by
    rw [List.map_const', Matrix.length_rowList]
    rfl
  -- without weights every term is a product with one
  have hterms : List.zipWith (fun w (n : Nearest α) => w * n.dist) (x.rowList.map fun _ => 1)
      (x.rowList.map (Nearest.among c.rowList)) =
        x.rowList.map fun v => (Nearest.among c.rowList v).dist := by
    rw [List.zipWith_map, List.zipWith_self]
    exact List.map_congr_left fun v _ => Unital.one_mul _
  rw [Recounts, assignment, ofSweep_delivered, hanswers, hones, hterms, List.map_map, List.map_map]
  exact (inertiaOf_map hcols hdist).symm

variable [Memory]

/-- Every assignment without weights reports the inertia of its labels, and there is one if memory
is granted to centroids of the width of the data. -/
structure RecountsAll (e : Kernel) (x c : Matrix α) : Prop where
  recounts : ∀ a, e.assign x c none = .ok a → Recounts x c a.labels a.inertia
  returns : x.cols = c.cols → 0 < c.rows → 0 < c.cols → c.rows ≤ indexLimit →
    c.cols ≤ indexLimit → (∀ width count, Memory.refuse width count = none) →
      ∃ a, e.assign x c none = .ok a

theorem assign_of_granted {e : Kernel} {x c : Matrix α} {weights : Option (List α)}
    (hcols : x.cols = c.cols) (hadm : e.admission x c = .ok ())
    (hmem : ∀ width count, Memory.refuse width count = none) :
    e.assign x c weights = .ok (e.assignment x weights c) := by
  rw [assign, if_neg (not_not.mpr hcols), Memory.buffer_of_granted (hmem _ _), sweep_eq, hadm]
  rfl

/-- It is enough that each row is answered with its first nearest centroid, at distances that are
numbers. -/
theorem recountsAll_of_answers [Unital α] {e : Kernel} {x c : Matrix α} (hnum : x.NumericTo c)
    (hanswers : x.cols = c.cols → e.answers x c = x.rowList.map (Nearest.among c.rowList)) :
    e.RecountsAll x c where
  recounts a ha := by
    obtain ⟨hcols, hrows, rfl⟩ := eq_ofSweep_of_assign ha
    exact recounts_assignment hrows hcols.le hnum (hanswers hcols)
  returns hcols hrows hpos hrows' hcols' hmem :=
    ⟨_, assign_of_granted hcols (e.admission_of_granted hcols hrows hpos hrows' hcols' hmem) hmem⟩

end Kernel

end Distances

/-- In exact arithmetic all distances are numbers. -/
theorem Matrix.numericTo_exact {K : Type} [ExactScalar K] (x c : Matrix K) : x.NumericTo c :=
  fun _ _ _ _ => Or.inl rfl

/-! ### Fits -/

namespace Model

section Fits

variable {E : Precision → Type} {ω σ : Type}

theorem metric_of_kernel {m : Model E ω} {e : Kernel} (h : m.kernel = .ok e) :
    e.metric = m.params.metric := by
  unfold kernel Kernel.new? at h
  split_ifs at h
  cases h
  rfl

variable [∀ p, Scalar (E p)] [Scalar ω] [∀ p, Widening (E p) ω] [∀ p, BlockProduct (E p)]
  [Memory] [Source σ ω]

/-- A fit holds the labels and the inertia of an assignment to its centroids. -/
theorem assign_of_fit {m : Model E ω} {p : Precision} {x : Dataset (E p)}
    {weights : Option (List (E p))} {f : Fit (E p) ω}
    (h : (m.fit σ p x weights).result = .ok f) :
    ∃ e, m.kernel = .ok e ∧ e.assign x.table f.centroids weights = .ok ⟨f.labels, f.inertia⟩ := by
  rw [result_fit] at h
  obtain ⟨-, -, e, he, r, c, rfl, -, hrun⟩ := yields_computeFit (C := fun _ => True)
    (fun _ _ _ _ => .of_forall fun _ => trivial) _ f h
  exact ⟨r.kernel, he, Refiner.assign_of_run hrun⟩

end Fits

/-- Without weights the inertia of an assignment, and that of a fit, is what is computed anew from
the labels.  For the direct metric this only takes that a product with one is the other factor, and
that the distances are numbers, infinite ones included; in exact arithmetic it holds for every
metric. -/
theorem inertia_recounts {E : Precision → Type} {ω σ K τ : Type} [∀ p, Scalar (E p)]
    [∀ p, Unital (E p)] [Scalar ω] [∀ p, Widening (E p) ω] [∀ p, BlockProduct (E p)] [Memory]
    [Source σ ω] [ExactScalar K] [Source τ K] [Source.InRange τ] :
    (∀ (p : Precision) (e : Kernel) (x c : Matrix (E p)), e.metric ≠ .expanded → x.NumericTo c →
      e.RecountsAll x c) ∧
    (∀ (m : Model E ω) (p : Precision) (x : Dataset (E p)) (f : Fit (E p) ω),
      m.params.metric ≠ .expanded → (m.fit σ p x none).result = .ok f →
        x.table.NumericTo f.centroids → Recounts x.table f.centroids f.labels f.inertia) ∧
    (∀ (e : Kernel) (x c : Matrix K), x.Full → c.Full → e.RecountsAll x c) ∧
    ∀ (m : Model (fun _ => K) K) (p : Precision) (x : Dataset K) (f : Fit K K), m.HasFullStart →
      x.Complete → (m.fit τ p x none).result = .ok f →
        Recounts x.table f.centroids f.labels f.inertia := by
  have hdirect : ∀ (p : Precision) (e : Kernel) (x c : Matrix (E p)), e.metric ≠ .expanded →
      x.NumericTo c → e.RecountsAll x c :=
    fun p e x c he hnum => Kernel.recountsAll_of_answers hnum fun _ => e.answers_direct he x c
  have hexact : ∀ (e : Kernel) (x c : Matrix K), x.Full → c.Full → e.RecountsAll x c :=
    fun e x c hx hc => Kernel.recountsAll_of_answers (x.numericTo_exact c) fun hcols =>
      e.answers_exact ⟨hx, hc, hcols.symm⟩
  refine ⟨hdirect, fun m p x f hmetric hfit hnum => ?_, hexact, fun m p x f hm hx hfit => ?_⟩
  · obtain ⟨e, he, hassign⟩ := assign_of_fit hfit
    have hmetric' : e.metric ≠ .expanded := by rwa [metric_of_kernel he]
    exact (hdirect p e x.table f.centroids hmetric' hnum).recounts _ hassign
  · obtain ⟨e, he, hassign⟩ := assign_of_fit hfit
    rw [result_fit] at hfit
    obtain ⟨-, hfits⟩ := yields_centroids hm hx _ f hfit
    exact (hexact e x.table f.centroids hfits.full hfits.full_centroids).recounts _ hassign

end Model

/-! ### Infinite distances -/

namespace Model

/-- One cluster, from a supplied centroid. -/
def midpoint : Model Precision.Machine Float where
  params := { Params.standard with
    clusters := 1, method := .array, maxIterations := 2, batchRows := 1 }
  start := some ⟨.double, (⟨1, 1, [1]⟩ : Matrix Float)⟩
  fitted := none

/-- Two points so far from their mean that the squares of the distances are infinite. -/
def antipodes : Dataset (Precision.double.Machine) :=
  ⟨(⟨2, 1, [-1e200, 1e200]⟩ : Matrix Float), true⟩

/-- The centroid moves to the mean, and the inertia stays infinite. -/
def antipodesFit : Fit (Precision.double.Machine) Float :=
  ⟨⟨(⟨1, 1, [0]⟩ : Matrix Float), [0, 0], (Scalar.infinity : Float), 2, .exhausted,
    [⟨1, Scalar.infinity, 1, 0⟩, ⟨2, Scalar.infinity, 0, 0⟩]⟩, .none, 0⟩

/-- An infinite inertia is computed anew as well. -/
theorem inertia_recounts_antipodes :
    (midpoint.fit (Counter Float) .double antipodes none).result = .ok antipodesFit ∧
      Recounts antipodes.table antipodesFit.centroids antipodesFit.labels antipodesFit.inertia ∧
      (⟨.expanded, 1, 1, Nat.one_pos⟩ : Kernel).RecountsAll (⟨2, 1, [0, 4]⟩ : Matrix ℚ)
        ⟨2, 1, [3, 1]⟩ := by
  obtain ⟨-, hfit, hexact, -⟩ := inertia_recounts (E := Precision.Machine) (σ := Counter Float)
    (K := ℚ) (τ := Counter ℚ)
  have hresult : (midpoint.fit (Counter Float) .double antipodes none).result =
      .ok antipodesFit := by
    decide +kernel
  have hnumeric : antipodes.table.NumericTo antipodesFit.centroids := by
    intro i hi j hj
    replace hi : i < 2 := hi
    obtain rfl : j = 0 := Nat.lt_one_iff.mp hj
    interval_cases i <;> exact Or.inr (by decide +kernel)
  exact ⟨hresult, hfit midpoint .double antipodes antipodesFit (by decide) hresult hnumeric,
    hexact _ _ _ (by decide) (by decide)⟩

end Model

end Clustering
