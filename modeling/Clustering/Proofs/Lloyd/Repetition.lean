import Clustering.Proofs.Lloyd.Descent
import Clustering.Proofs.Seeding.Failures

/-!
# Weights as repetition

In exact arithmetic a refinement reads its data only through sums over the weighted rows: weights,
means and inertia are such sums.  So weighted rows that no sum can tell apart
(`WeightedRows.Equivalent`) have the same orbit, and refine to the same result but for the labels
(`Refiner.run_equivalent`).  A row with a natural weight adds to a sum what so many copies of it
add, and a sum does not depend on the order of the rows.  Hence weights mean repetition
(`Refiner.run_repeated`).
-/

namespace Clustering

variable {K : Type} [ExactScalar K]

/-! ### Sums over weighted rows -/

namespace WeightedRows

/-- The sum of a function over the rows, each taken with its weight. -/
def integral (f : List K → K) (ms : WeightedRows K) : K := (ms.map fun p => p.2 * f p.1).sum

/-- No sum over the rows tells the two apart. -/
def Equivalent (ms ns : WeightedRows K) : Prop := ∀ f, integral f ms = integral f ns

theorem mass_eq_integral (ms : WeightedRows K) : mass ms = integral (fun _ => 1) ms := by
  simp only [mass_eq_sum, integral, mul_one]

theorem integral_filter (f : List K → K) (g : List K → Bool) (ms : WeightedRows K) :
    integral f (ms.filter fun p => g p.1) = integral (fun v => if g v then f v else 0) ms := by
  induction ms with
  | nil => rfl
  | cons p ms ih =>
    rw [integral] at ih
    by_cases hp : g p.1 = true
    · simp [integral, hp, ih]
    · simp [integral, hp, ih]

namespace Equivalent

variable {ms ns : WeightedRows K} (h : Equivalent ms ns)
include h

/-- Parts that are chosen by the row are equivalent. -/
theorem filter (g : List K → Bool) :
    Equivalent (ms.filter fun p => g p.1) (ns.filter fun p => g p.1) := by
  intro f
  rw [integral_filter, integral_filter]
  exact h _

theorem mass_eq : mass ms = mass ns := by
  rw [mass_eq_integral, mass_eq_integral]
  exact h _

theorem mean_eq (dim : ℕ) : mean dim ms = mean dim ns := by
  refine ext_of_getD (length_mean dim ms) (length_mean dim ns) 0 fun i hi => ?_
  rw [getD_mean hi, getD_mean hi, h.mass_eq]
  exact congrArg (· / mass ns) (h fun v => v.getD i 0)

end Equivalent

end WeightedRows

/-! ### One iteration -/

namespace Kernel

/-- Weighted data of one width that no sum tells apart. -/
structure Interchangeable (x : Matrix K) (weights : Option (List K)) (y : Matrix K)
    (weights' : Option (List K)) : Prop where
  full : x.Full
  full' : y.Full
  cols : y.cols = x.cols
  equivalent : (weighted x weights).Equivalent (weighted y weights')

section Iteration

variable (e : Kernel) {x y c : Matrix K} {weights weights' : Option (List K)}
  (h : Interchangeable x weights y weights') (hc : x.Fits c)
include h hc

theorem Interchangeable.fits : y.Fits c :=
  ⟨h.full', hc.full_centroids, hc.cols.trans h.cols.symm⟩

theorem equivalent_members (j : ℕ) :
    (e.members x weights c j).Equivalent (e.members y weights' c j) := by
  rw [e.members_exact weights hc, e.members_exact weights' (h.fits hc)]
  exact h.equivalent.filter fun v => labelOf c v = j

theorem weights_tally_interchangeable :
    (e.tally x weights c).weights = (e.tally y weights' c).weights := by
  rw [weights_tally_eq_map, weights_tally_eq_map]
  exact List.map_congr_left fun j _ => (e.equivalent_members h hc j).mass_eq

theorem update_interchangeable : e.update x weights c = e.update y weights' c := by
  have hnext := e.fits_update x weights c hc
  have hnext' := e.fits_update y weights' c (h.fits hc)
  refine Matrix.ext_of_row hnext.full_centroids hnext'.full_centroids (by simp) (by simp) ?_
  intro j hj
  rw [rows_update] at hj
  have hmembers := e.equivalent_members h hc j
  rw [e.row_update x weights c hc hj, e.row_update y weights' c (h.fits hc) hj, hmembers.mass_eq,
    hmembers.mean_eq, h.cols]

theorem orbit_interchangeable (t : ℕ) : e.orbit x weights c t = e.orbit y weights' c t := by
  induction t with
  | zero => rfl
  | succ t ih =>
    rw [orbit, orbit, ← ih]
    exact e.update_interchangeable h (e.fits_orbit x weights c hc t)

variable (hpos : 0 < c.rows)
include hpos

theorem inertia_interchangeable :
    (e.assignment x weights c).inertia = (e.assignment y weights' c).inertia := by
  rw [e.inertia_exact weights hc hpos, e.inertia_exact weights' (h.fits hc) hpos]
  exact h.equivalent fun v => sqDist v (c.row (labelOf c v))

theorem entry_interchangeable (number : ℕ) :
    (e.entry x weights number c : Iteration K) = e.entry y weights' number c := by
  rw [entry, entry, e.inertia_interchangeable h hc hpos, e.shift_eq_sum weights hc,
    e.shift_eq_sum weights' (h.fits hc), e.update_interchangeable h hc, Tally.emptyClusters,
    Tally.emptyClusters, e.weights_tally_interchangeable h hc]

end Iteration

end Kernel

/-! ### Runs -/

/-- A result apart from the labels of the rows. -/
def Refined.unlabelled {α ω : Type} (res : Refined α ω) : Refined α ω :=
  { res with labels := [] }

namespace FailsAs

variable {P : Failure → Prop} {β : Type}

/-- What follows a step without a result, unless the step fails. -/
theorem bind_eq_or {r : Except Failure Unit} (h : FailsAs P r) (g : Unit → Except Failure β) :
    (r >>= g) = g () ∨ ∃ f, P f ∧ (r >>= g) = .error f := by
  cases r with
  | error f => exact Or.inr ⟨f, h f rfl, rfl⟩
  | ok u => exact Or.inl rfl

theorem andThen_eq_or {r : Except Failure Unit} (h : FailsAs P r) (a : Except Failure Unit) :
    (a >>= fun _ => r) = a ∨ ∃ f, P f ∧ (a >>= fun _ => r) = .error f := by
  cases a with
  | error f => exact Or.inl rfl
  | ok u =>
    cases r with
    | error f => exact Or.inr ⟨f, h f rfl, rfl⟩
    | ok u => exact Or.inl rfl

end FailsAs

namespace Refiner

section Outcome

variable (r : Refiner K) {x y start : Matrix K} {weights weights' : Option (List K)}
  (h : Kernel.Interchangeable x weights y weights') (hs : x.Fits start) (hpos : 0 < start.rows)
include h hs hpos

theorem inertia_orbit_interchangeable (t : ℕ) :
    (r.kernel.assignment x weights (r.kernel.orbit x weights start t)).inertia =
      (r.kernel.assignment y weights' (r.kernel.orbit y weights' start t)).inertia := by
  rw [← r.kernel.orbit_interchangeable h hs t]
  exact r.kernel.inertia_interchangeable h (r.kernel.fits_orbit x weights start hs t)
    (by rwa [Kernel.rows_orbit])

theorem settles_interchangeable :
    r.Settles x weights none start = r.Settles y weights' none start := by
  funext t
  have hinertia := r.inertia_orbit_interchangeable h hs hpos
  unfold Settles
  rw [hinertia t]
  cases t with
  | zero => rfl
  | succ t => rw [compared, compared, hinertia t]

theorem outcome_interchangeable (m : ℕ) (phase : Phase) :
    (r.outcome x weights start m phase : Refined K K).unlabelled =
      (r.outcome y weights' start m phase).unlabelled := by
  have hhistory : (r.historyFrom x weights 1 start m : List (Iteration K)) =
      r.historyFrom y weights' 1 start m := by
    refine List.map_congr_left fun t _ => ?_
    rw [← r.kernel.orbit_interchangeable h hs t]
    exact r.kernel.entry_interchangeable h (r.kernel.fits_orbit x weights start hs t)
      (by rwa [Kernel.rows_orbit]) _
  have horbit := r.kernel.orbit_interchangeable h hs m
  have hinertia := r.inertia_orbit_interchangeable h hs hpos m
  rw [horbit] at hinertia
  simp only [outcome, Refined.unlabelled, hhistory, horbit, hinertia]

end Outcome

variable [Memory] {r : Refiner K} {x y start : Matrix K} {weights weights' : Option (List K)}

/-- Centroids of the width of the data have to pass the checks of a sweep, and then it is only
buffers that are asked for. -/
theorem admission_eq_checkShapes (r : Refiner K) (hwidth : start.cols = x.cols) :
    r.admission x start = Kernel.checkShapes "nearest" x start ∨
      ∃ f, Memory.Refuses f ∧ r.admission x start = .error f := by
  have hbuffers : FailsAs Memory.Refuses (if x.rows = 0 then pure () else
      r.kernel.sweepBuffers K x.rows start.rows) := by
    split_ifs
    · exact .ok _
    · exact r.kernel.failsAs_sweepBuffers _ _
  rcases (failsAs_prepare hwidth).bind_eq_or (fun _ => r.kernel.admission x start) with h | h
  · rcases hbuffers.andThen_eq_or (Kernel.checkShapes "nearest" x start) with h' | ⟨f, hf, h'⟩
    · exact Or.inl (h.trans h')
    · exact Or.inr ⟨f, hf, h.trans h'⟩
  · exact Or.inr h

/-- Apart from the buffers, only widths and centroids are checked. -/
theorem admission_eq_or_refused (hcols : y.cols = x.cols) :
    r.admission x start = r.admission y start ∨ ∃ f, Memory.Refuses f ∧
      (r.admission x start = .error f ∨ r.admission y start = .error f) := by
  by_cases hwidth : start.cols = x.cols
  · have hshapes : Kernel.checkShapes "nearest" y start =
        Kernel.checkShapes "nearest" x start := by
      simp only [Kernel.checkShapes, hcols, hwidth, ne_eq, not_true_eq_false, and_false, if_false]
    rcases r.admission_eq_checkShapes hwidth with hx | ⟨f, hf, hx⟩
    · rcases r.admission_eq_checkShapes (hwidth.trans hcols.symm) with hy | ⟨f, hf, hy⟩
      · exact Or.inl (by rw [hx, hy, hshapes])
      · exact Or.inr ⟨f, hf, Or.inr hy⟩
    · exact Or.inr ⟨f, hf, Or.inl hx⟩
  · have hrefused : ∀ m : Matrix K, m.cols = x.cols →
        r.admission m start = .error .refinerWidth := by
      intro m hm
      rw [admission, prepare, if_pos (by rwa [hm])]
      rfl
    exact Or.inl ((hrefused x rfl).trans (hrefused y hcols).symm)

/-- Data that no sum tells apart refine to the same centroids, by the same history, unless a buffer
is refused.  As the histories have the same length, there is room for both or for neither. -/
theorem run_equivalent (h : Kernel.Interchangeable x weights y weights') (hs : start.Full) :
    (r.run x weights start).1.map Refined.unlabelled =
        (r.run y weights' start).1.map Refined.unlabelled ∨
      ∃ f, Memory.Refuses f ∧
        ((r.run x weights start).1 = .error f ∨ (r.run y weights' start).1 = .error f) := by
  rcases r.admission_eq_or_refused h.cols with hadm | ⟨f, hf, hadm | hadm⟩
  · refine Or.inl ?_
    cases hx : r.admission x start with
    | error f => rw [r.run_refused _ _ _ hx, r.run_refused _ _ _ (hadm.symm.trans hx)]
    | ok u =>
      obtain ⟨hcols, hpos, -⟩ := shapes_of_admission hx
      have hfits : x.Fits start := ⟨h.full, hs, hcols⟩
      obtain ⟨m, phase, hends, hrun⟩ := r.run_admitted x weights start hx
      obtain ⟨m', phase', hends', hrun'⟩ := r.run_admitted y weights' start (hadm.symm.trans hx)
      rw [← r.settles_interchangeable h hfits hpos] at hends'
      obtain ⟨rfl, rfl⟩ := hends.unique hends'
      cases hhist : historyRoom m with
      | error f => rw [hrun, hrun', keeping_of_refused r hhist, keeping_of_refused r hhist]
      | ok u =>
        rw [hrun, hrun', keeping_of_room r hhist, keeping_of_room r hhist]
        exact congrArg Except.ok (r.outcome_interchangeable h hfits hpos m phase)
  · exact Or.inr ⟨f, hf, Or.inl (r.run_refused x weights start hadm)⟩
  · exact Or.inr ⟨f, hf, Or.inr (r.run_refused y weights' start hadm)⟩

/-- Data that no sum tells apart have the same labels where they have the same rows. -/
theorem labels_equivalent (h : Kernel.Interchangeable x weights y weights') (hs : start.Full)
    {res res' : Refined K K} (hres : (r.run x weights start).1 = .ok res)
    (hres' : (r.run y weights' start).1 = .ok res') {i t : ℕ} (hi : i < x.rows) (ht : t < y.rows)
    (hrow : y.row t = x.row i) : ∃ l, res.labels[i]? = some l ∧ res'.labels[t]? = some l := by
  obtain ⟨hadm, m, phase, hends, rfl⟩ := r.eq_outcome_of_run x weights start hres
  obtain ⟨-, m', phase', hends', rfl⟩ := r.eq_outcome_of_run y weights' start hres'
  obtain ⟨hcols, hpos, -⟩ := shapes_of_admission hadm
  have hfits : x.Fits start := ⟨h.full, hs, hcols⟩
  rw [← r.settles_interchangeable h hfits hpos] at hends'
  obtain ⟨rfl, rfl⟩ := hends.unique hends'
  have hend := r.kernel.fits_orbit x weights start hfits m
  refine ⟨_, r.kernel.getElem?_labels weights hend hi, ?_⟩
  rw [outcome, ← r.kernel.orbit_interchangeable h hfits m,
    r.kernel.getElem?_labels weights' (h.fits hend) ht, hrow]

end Refiner

/-! ### Repeated rows -/

/-- The rows in order, each as often as its count says. -/
def Matrix.repeatRows {α : Type} (x : Matrix α) (counts : List ℕ) : List (List α) :=
  (x.rowList.zip counts).flatMap fun p => List.replicate p.2 p.1

/-- A copy adds its value once, a weight as often as it says. -/
theorem sum_map_repeat (f : List K → K) (ps : List (List K × ℕ)) :
    ((ps.flatMap fun p => List.replicate p.2 p.1).map f).sum =
      (ps.map fun p => (p.2 : K) * f p.1).sum := by
  induction ps with
  | nil => rfl
  | cons p ps ih =>
    rw [List.flatMap_cons, List.map_append, List.sum_append, ih, List.map_replicate,
      List.sum_replicate, nsmul_eq_mul, List.map_cons, List.sum_cons]

/-- The weights that say how often each row is counted. -/
def countWeights (counts : List ℕ) : List K := counts.map Nat.cast

namespace Kernel

theorem integral_countWeights (f : List K → K) (x : Matrix K) (counts : List ℕ) :
    WeightedRows.integral f (weighted x (some (countWeights counts))) =
      ((x.repeatRows counts).map f).sum := by
  rw [Matrix.repeatRows, sum_map_repeat, WeightedRows.integral, weighted, weightsFor,
    Option.getD_some, countWeights, List.zip_map_right, List.map_map]
  rfl

theorem integral_unweighted (f : List K → K) (y : Matrix K) :
    WeightedRows.integral f (weighted y none) = (y.rowList.map f).sum := by
  have hzip : weighted y none = y.rowList.map fun v => (v, 1) := by
    rw [weighted, weightsFor, Option.getD_none, ← y.length_rowList, ← List.map_const', List.zip,
      List.zipWith_map_right, List.zipWith_self]
  rw [hzip, WeightedRows.integral, List.map_map]
  refine congrArg List.sum (List.map_congr_left fun v _ => ?_)
  exact one_mul _

theorem interchangeable_of_perm {x y : Matrix K} (hx : x.Full) (hy : y.Full)
    (hcols : y.cols = x.cols) {counts : List ℕ} (hrows : y.rowList.Perm (x.repeatRows counts)) :
    Interchangeable x (some (countWeights counts)) y none := by
  refine ⟨hx, hy, hcols, fun f => ?_⟩
  rw [integral_countWeights, integral_unweighted]
  exact (hrows.map f).sum_eq.symm

end Kernel

namespace Refiner

variable [Memory]

/-- Weights mean repetition, and the order of the rows is irrelevant: where the rows of `y` are
those of `x`, each as often as its weight says, the two refine to the same result, every copy of a
row with the label of the row, or a buffer is refused to one of them.  If memory is granted,
centroids of the width of the data and within the index limit have a result. -/
theorem run_repeated (r : Refiner K) {x y start : Matrix K} (hx : x.Full) (hy : y.Full)
    (hs : start.Full) (hcols : y.cols = x.cols) {counts : List ℕ}
    (hrows : y.rowList.Perm (x.repeatRows counts)) :
    let weighted := (r.run x (some (countWeights counts)) start).1
    let repeated := (r.run y none start).1
    (weighted.map Refined.unlabelled = repeated.map Refined.unlabelled ∨
      ∃ f, Memory.Refuses f ∧ (weighted = .error f ∨ repeated = .error f)) ∧
    (∀ res res', weighted = .ok res → repeated = .ok res' →
      ∀ i < x.rows, ∀ t < y.rows, y.row t = x.row i →
        ∃ l, res.labels[i]? = some l ∧ res'.labels[t]? = some l) ∧
    (start.cols = x.cols → 0 < start.rows → 0 < start.cols → start.rows ≤ indexLimit →
      start.cols ≤ indexLimit → (∀ width count, Memory.refuse width count = none) →
        ∃ res res', weighted = .ok res ∧ repeated = .ok res') := by
  have hsame := Kernel.interchangeable_of_perm hx hy hcols hrows
  refine ⟨run_equivalent hsame hs, fun _ _ hres hres' _ hi _ ht hrow =>
    labels_equivalent hsame hs hres hres' hi ht hrow, ?_⟩
  intro hwidth hpos hpos' hle hle' hmem
  have hwidth' := hwidth.trans hcols.symm
  obtain ⟨res, hres⟩ := r.run_of_granted (x := x) _ hwidth hpos hpos' hle hle' hmem
  obtain ⟨res', hres'⟩ := r.run_of_granted (x := y) _ hwidth' hpos hpos' hle hle' hmem
  exact ⟨res, res', hres, hres'⟩

end Refiner

/-! ### Points that are counted -/

namespace Refiner

namespace Line

/-- The first point counts twice, the second one not at all. -/
def counts : List ℕ := [2, 0, 1, 1]

/-- The points as often as they count, in another order. -/
def listed : Matrix ℚ := ⟨4, 1, [12, 0, 10, 0]⟩

/-- What both refine to, but for the labels. -/
def paired (labels : List ℕ) : Refined ℚ ℚ :=
  ⟨⟨3, 1, [0, 11, 100]⟩, labels, 2, 3, .converged,
    [⟨1, 202, 100, 1⟩, ⟨2, 2, 0, 1⟩, ⟨3, 2, 0, 1⟩]⟩

theorem run_counts :
    (refiner.run points (some (countWeights counts)) start).1 = .ok (paired [0, 0, 1, 1]) := by
  decide +kernel

theorem run_listed : (refiner.run listed none start).1 = .ok (paired [1, 0, 1, 0]) := by
  decide +kernel

end Line

/-- Both copies of the first point get its label. -/
theorem run_repeated_line :
    Line.listed.rowList.Perm (Line.points.repeatRows Line.counts) ∧
      ∃ res res', (Line.refiner.run Line.points (some (countWeights Line.counts)) Line.start).1 =
          .ok res ∧ (Line.refiner.run Line.listed none Line.start).1 = .ok res' ∧
        ∀ t ∈ [1, 3], ∃ l, res.labels[0]? = some l ∧ res'.labels[t]? = some l := by
  have hperm : Line.listed.rowList.Perm (Line.points.repeatRows Line.counts) := by decide
  obtain ⟨-, hlabels, -⟩ := run_repeated Line.refiner (x := Line.points) (y := Line.listed)
    (by decide) (by decide) (by decide : Line.start.Full) rfl hperm
  refine ⟨hperm, _, _, Line.run_counts, Line.run_listed, fun t ht => ?_⟩
  refine hlabels _ _ Line.run_counts Line.run_listed 0 (by decide) t ?_ ?_
  · revert t; decide
  · revert t; decide

end Refiner

end Clustering
