import Clustering.Model.Answer
import Clustering.Proofs.Draws
import Clustering.Proofs.MachineRoot
import Clustering.Proofs.Pairwise

/-!
# Labels and distances

A prediction compares squared distances, while the distances that `Model.transform` gives are their
roots.  Rounding makes the roots of different squares the same, so a row of distances may have its
least value at an earlier column than that of the label, where the square is larger.  But roots are
not turned around: the distance at the label is a least one, and no later column is the first with
it (`Model.transform_predict`).
-/

namespace Clustering

open Scalar

/-! ### Roots of a row -/

section Row

variable {α : Type} [Scalar α] [Ordered α] [RootOrdered α]

/-- The root of the first least value is a least root.  The first column with it is not a later one,
and has a larger value if it is an earlier one. -/
theorem FirstLeast.map_sqrt {row : List α} {label : ℕ} {d : α} (h : FirstLeast row label d)
    (hnum : ∀ v ∈ row.map sqrt, IsNumber v) :
    ∃ j u, row[j]? = some u ∧ FirstLeast (row.map sqrt) j (sqrt u) ∧ j ≤ label ∧
      ¬ sqrt u < sqrt d ∧ ¬ sqrt d < sqrt u ∧ (j ≠ label → d < u) := by
  have hne : row.map sqrt ≠ [] := by
    intro hnil
    rw [List.map_eq_nil_iff] at hnil
    have hlt := h.lt_length
    rw [hnil] at hlt
    cases hlt
  obtain ⟨j, v, hfirst⟩ : ∃ j v, FirstLeast (row.map sqrt) j v :=
    ⟨_, _, Lead.scan_firstLeast hne hnum⟩
  have hget := hfirst.get
  rw [List.getElem?_map, Option.map_eq_some_iff] at hget
  obtain ⟨u, hu, rfl⟩ := hget
  have hlabel : (row.map sqrt)[label]? = some (sqrt d) := by
    rw [List.getElem?_map, h.get, Option.map_some]
  have hnotless : ¬ sqrt u < sqrt d := fun hlt => h.least hu (RootOrdered.lt_of_sqrt_lt hlt)
  have hle : j ≤ label := by
    by_contra hlater
    exact hnotless (hfirst.first hlabel (not_le.mp hlater))
  exact ⟨j, u, hu, hfirst, hle, hnotless, hfirst.least hlabel,
    fun hj => h.first hu (lt_of_le_of_ne hle hj)⟩

end Row

/-! ### Answers -/

namespace Kernel

variable {α : Type} [Scalar α] [Memory] [BlockProduct α]

theorem eq_ofSweep_of_assign {e : Kernel} {x c : Matrix α} {weights : Option (List α)}
    {a : Assignment α} (h : e.assign x c weights = .ok a) :
    x.cols = c.cols ∧ 0 < c.rows ∧ a = .ofSweep weights (e.delivered x c) := by
  unfold assign at h
  dsimp only at h
  split_ifs at h with hcols
  · cases h
  · obtain ⟨_, -, h⟩ := exists_of_bind_ok h
    obtain ⟨sweep, hsweep, h⟩ := exists_of_bind_ok h
    cases h
    obtain ⟨hadm, rfl⟩ := eq_delivered_of_sweep hsweep
    exact ⟨not_not.mp hcols, rows_pos_of_admission hadm, rfl⟩

theorem labels_of_assign {e : Kernel} {x c : Matrix α} {weights : Option (List α)}
    {a : Assignment α} (h : e.assign x c weights = .ok a) :
    0 < c.rows ∧ a.labels = (e.answers x c).map (·.label) := by
  obtain ⟨-, hrows, rfl⟩ := eq_ofSweep_of_assign h
  exact ⟨hrows, by rw [ofSweep_delivered]⟩

/-- A table of distances holds the roots of the squared ones. -/
theorem rowList_of_distanceMatrix {e : Kernel} {x c out : Matrix α}
    (h : e.distanceMatrix x c = .ok out) :
    e.pairwise x c false = .ok (e.distances x c) ∧
      out.rowList = (e.distances x c).map (·.map sqrt) := by
  unfold distanceMatrix at h
  dsimp only at h
  split_ifs at h
  · cases h
  · obtain ⟨_, -, h⟩ := exists_of_bind_ok h
    obtain ⟨roots, hroots, h⟩ := exists_of_bind_ok h
    cases h
    rw [pairwise_eq] at hroots ⊢
    cases hadm : e.pairwiseAdmission x c with
    | error f => rw [hadm] at hroots; cases hroots
    | ok u =>
      rw [hadm] at hroots
      cases hroots
      refine ⟨rfl, ?_⟩
      have hlengths : ∀ row ∈ (e.distances x c).map (·.map sqrt), row.length = c.rows := by
        intro row hrow
        obtain ⟨squares, hsquares, rfl⟩ := List.mem_map.mp hrow
        rw [List.length_map, e.length_of_mem_distances hsquares]
      have hrows : ((e.distances x c).map (·.map sqrt)).length = x.rows := by
        rw [List.length_map, length_distances]
      rw [← hrows]
      exact Matrix.rowList_ofRows hlengths

end Kernel

namespace Model

variable {E : Precision → Type} {ω : Type} [∀ p, Scalar (E p)] [∀ p, BlockProduct (E p)] [Memory]

omit [∀ p, Scalar (E p)] [∀ p, BlockProduct (E p)] [Memory] in
theorem centroidsFor_of_ok {m : Model E ω} {op op' : String} {p : Precision} {c : Matrix (E p)}
    (h : m.centroidsFor op p = .ok c) : m.centroidsFor op' p = .ok c := by
  unfold centroidsFor at h ⊢
  split at h
  · cases h
  · split_ifs at h with hp
    rw [dif_pos hp]
    exact h

theorem assign_of_predict {m : Model E ω} {p : Precision} {x : Dataset (E p)}
    {weights : Option (List (E p))} {a : Assignment (E p)} (h : m.predict p x weights = .ok a) :
    ∃ e c, m.kernel = .ok e ∧ m.centroids p = .ok c ∧ e.assign x.table c weights = .ok a := by
  obtain ⟨c, hc, h⟩ := Kernel.exists_of_bind_ok h
  obtain ⟨_, -, h⟩ := Kernel.exists_of_bind_ok h
  obtain ⟨_, -, h⟩ := Kernel.exists_of_bind_ok h
  cases he : m.kernel with
  | error f =>
    rw [he] at h
    dsimp only [Except.bind] at h
    split at h <;> cases h
  | ok e =>
    rw [he] at h
    dsimp only [Except.bind] at h
    split at h
    · cases h
    · exact ⟨e, c, rfl, centroidsFor_of_ok hc, h⟩

theorem distanceMatrix_of_transform {m : Model E ω} {p : Precision} {x : Dataset (E p)}
    {out : Matrix (E p)} (h : m.transform p x = .ok out) :
    ∃ e c, m.kernel = .ok e ∧ m.centroids p = .ok c ∧ e.distanceMatrix x.table c = .ok out := by
  obtain ⟨c, hc, h⟩ := Kernel.exists_of_bind_ok h
  obtain ⟨_, -, h⟩ := Kernel.exists_of_bind_ok h
  obtain ⟨e, he, h⟩ := Kernel.exists_of_bind_ok h
  exact ⟨e, c, he, centroidsFor_of_ok hc, h⟩

/-- Where a model predicts and transforms, the transform of a row holds the roots of its squared
distances, and the prediction is the first column with the least square.  If the distances of the
row are numbers, the least of them stands at this column, and no later column is the first with
it; an earlier one is if its square is larger and rounding has made the roots the same. -/
theorem transform_predict [∀ p, Ordered (E p)] [∀ p, RootOrdered (E p)] {m : Model E ω}
    {p : Precision} {x : Dataset (E p)} {weights : Option (List (E p))} {a : Assignment (E p)}
    {out : Matrix (E p)} (ha : m.predict p x weights = .ok a) (hout : m.transform p x = .ok out) :
    ∃ e c squares, m.kernel = .ok e ∧ m.centroids p = .ok c ∧
      e.pairwise x.table c false = .ok squares ∧ out.rowList = squares.map (·.map sqrt) ∧
      ∀ (i : ℕ) (row : List (E p)), squares[i]? = some row →
        (∀ v ∈ row.map sqrt, IsNumber v) →
        ∃ label d j u, a.labels[i]? = some label ∧ FirstLeast row label d ∧ row[j]? = some u ∧
          FirstLeast (row.map sqrt) j (sqrt u) ∧ j ≤ label ∧
            ¬ sqrt u < sqrt d ∧ ¬ sqrt d < sqrt u ∧ (j ≠ label → d < u) := by
  obtain ⟨e, c, he, hc, hassign⟩ := assign_of_predict ha
  obtain ⟨e', c', he', hc', hmatrix⟩ := distanceMatrix_of_transform hout
  obtain rfl := Except.ok.inj (he.symm.trans he')
  obtain rfl := Except.ok.inj (hc.symm.trans hc')
  obtain ⟨hpos, hlabels⟩ := Kernel.labels_of_assign hassign
  obtain ⟨hsquares, hroots⟩ := Kernel.rowList_of_distanceMatrix hmatrix
  refine ⟨e, c, e.distances x.table c, he, hc, hsquares, hroots, fun i row hrow hnum => ?_⟩
  have hne : row ≠ [] := by
    rw [← List.length_pos_iff, e.length_of_mem_distances (List.mem_of_getElem? hrow)]
    exact hpos
  have hnumbers : ∀ v ∈ row, IsNumber v := fun v hv =>
    RootOrdered.isNumber_of_sqrt (hnum _ (List.mem_map_of_mem hv))
  have hleast := Lead.scan_firstLeast hne hnumbers
  obtain ⟨j, u, hj⟩ := hleast.map_sqrt hnum
  refine ⟨_, _, j, u, ?_, hleast, hj⟩
  rw [hlabels, e.answers_eq_distances, List.map_map, List.getElem?_map, hrow]
  rfl

end Model

/-! ### Roots that rounding makes the same -/

namespace Model

/-- Two clusters that start from two points next to each other, the first of them a little off the
axis: the square of its height is the last place of one. -/
def neighbours : Model Precision.Machine Float where
  params := { Params.standard with clusters := 2, method := .array, maxIterations := 1 }
  start := some ⟨.double, ⟨2, 2, [1, Float.ofBits 0x3e50000000000000, 1, 0]⟩⟩
  fitted := none

/-- The two points. -/
def neighbourPoints : Dataset (Precision.double.Machine) :=
  ⟨⟨2, 2, [1, Float.ofBits 0x3e50000000000000, 1, 0]⟩, true⟩

/-- The point that both have distance one of. -/
def origin : Dataset (Precision.double.Machine) := ⟨⟨1, 2, [0, 0]⟩, true⟩

/-- The model after the fit to the two points. -/
def settled : Model Precision.Machine Float :=
  (neighbours.fit (Counter Float) .double neighbourPoints none).model

theorem predict_settled : settled.predict .double origin none = .ok ⟨[1], 1⟩ := by
  decide +kernel

theorem transform_settled : settled.transform .double origin = .ok ⟨1, 2, [1, 1]⟩ := by
  decide +kernel

/-- The second centroid has the smaller square, but the distances are the same, so that the first
least distance is that of the first centroid. -/
theorem argmin_neighbours :
    (neighbours.fit (Counter Float) .double neighbourPoints none).result.isOk = true ∧
      settled.predict .double origin none = .ok ⟨[1], 1⟩ ∧
      settled.transform .double origin = .ok ⟨1, 2, [1, 1]⟩ ∧
      FirstLeast [(1 : Precision.double.Machine), 1] 0 1 := by
  refine ⟨by decide +kernel, predict_settled, transform_settled, rfl, fun {i v} hv => ?_,
    fun _ hi => absurd hi (Nat.not_lt_zero _)⟩
  obtain rfl : v = 1 := by simpa using List.mem_of_getElem? hv
  exact not_lt_self _

/-- The label is the first column with the least square, and a least distance stands there. -/
theorem transform_predict_neighbours :
    settled.predict .double origin none = .ok ⟨[1], 1⟩ ∧
      settled.transform .double origin = .ok ⟨1, 2, [1, 1]⟩ ∧
      ∃ (e : Kernel) (c : Matrix (Precision.double.Machine))
        (row : List (Precision.double.Machine)),
        e.pairwise origin.table c false = .ok [row] ∧ row.map sqrt = [1, 1] ∧
          ∃ d j u, FirstLeast row 1 d ∧ FirstLeast (row.map sqrt) j (sqrt u) ∧ j ≤ 1 := by
  obtain ⟨e, c, squares, -, -, hsquares, hroots, hlabel⟩ :=
    transform_predict predict_settled transform_settled
  have hrows : squares.map (·.map sqrt) = [[1, 1]] := hroots.symm
  obtain ⟨row, rest, rfl, hrow, hrest⟩ := List.map_eq_cons_iff.mp hrows
  obtain rfl : rest = [] := List.map_eq_nil_iff.mp hrest
  have hnum : ∀ v ∈ row.map sqrt, IsNumber v := by
    rw [hrow]
    intro v hv
    obtain rfl : v = 1 := by simpa using hv
    exact Or.inl (by decide +kernel)
  obtain ⟨label, d, j, u, hget, hleast, -, hfirst, hle, -⟩ := hlabel 0 row rfl hnum
  obtain rfl : 1 = label := Option.some.inj hget
  exact ⟨predict_settled, transform_settled, e, c, row, hsquares, hrow, d, j, u, hleast, hfirst,
    hle⟩

end Model

end Clustering
