import Clustering.Proofs.Similarity.Image
import Clustering.Proofs.Alike
import Clustering.Proofs.Lloyd.Cost

/-!
# Refinements of images

A similarity commutes with an iteration: the image of the data has the same clusters, each of them
moves to the image of its mean (`Kernel.update_matrix`), and inertia and shift change only their
unit (`Kernel.entry_matrix`).  The stopping test compares inertias with each other, so a run on the
image is the image of the run, step by step (`Refiner.course_matrix`, `Refiner.run_matrix`).
-/

namespace Clustering

variable {K : Type} [ExactScalar K]

/-! ### Masses and means -/

namespace WeightedRows

variable (T : Similarity K) {dim : ℕ}

/-- The image of weighted rows. -/
def image (ms : WeightedRows K) : WeightedRows K := ms.map (Prod.map T.vector (T.factor * ·))

theorem labelled_image (rows : List (List K)) (weights : List K) (labels : List ℕ) (j : ℕ) :
    labelled (rows.map T.vector) (weights.map (T.factor * ·)) labels j =
      image T (labelled rows weights labels j) := by
  have hzip : (weights.map (T.factor * ·)).zip labels =
      (weights.zip labels).map (Prod.map (T.factor * ·) id) := List.zip_map_left
  rw [image, labelled, labelled, hzip, List.zip_map, List.filter_map, List.map_map, List.map_map]
  rfl

theorem mass_image (ms : WeightedRows K) : mass (image T ms) = T.factor * mass ms := by
  rw [mass, mass, image, ← total_map_mul, List.map_map, List.map_map]
  rfl

theorem mass_image_nonpos (ms : WeightedRows K) : mass (image T ms) ≤ 0 ↔ mass ms ≤ 0 := by
  rw [mass_image, T.factor_mul_nonpos]

/-- The mean of the image is the image of the mean. -/
theorem mean_image {ms : WeightedRows K} (hms : ∀ p ∈ ms, p.1.length = dim) (hmass : mass ms ≠ 0) :
    mean dim (image T ms) = T.vector (mean dim ms) := by
  have hsum : ∀ {i : ℕ}, i < dim → ((image T ms).map fun p => p.2 * p.1.getD i 0).sum =
      T.factor * (T.scale * (ms.map fun p => p.2 * p.1.getD i 0).sum + T.offset i * mass ms) := by
    intro i hi
    rw [mass_eq_sum, image, List.map_map]
    clear hmass
    induction ms with
    | nil => simp
    | cons p ms ih =>
      have hp : p.1.length = dim := hms p List.mem_cons_self
      simp only [List.map_cons, List.sum_cons, ih fun q hq => hms q (List.mem_cons_of_mem _ hq)]
      simp only [Function.comp_apply, Prod.map, T.getD_vector (hp.symm ▸ hi)]
      ring
  refine ext_of_getD (length_mean dim _) ((T.length_vector _).trans (length_mean dim ms)) 0 ?_
  intro i hi
  rw [T.getD_vector (by rwa [length_mean]), getD_mean hi, getD_mean hi, hsum hi, mass_image]
  have hfactor := T.factor_pos.ne'
  field_simp

end WeightedRows

/-! ### One iteration -/

namespace Similarity

variable (T : Similarity K)

/-- The image of an assignment. -/
def assignment (a : Assignment K) : Assignment K := ⟨a.labels, T.error * a.inertia⟩

/-- The image of what is recorded of an iteration. -/
def iteration (it : Iteration K) : Iteration K :=
  ⟨it.number, T.error * it.inertia, T.area * it.shift, it.emptyClusters⟩

/-- The image of refined centroids. -/
def refined (r : Refined K K) : Refined K K :=
  ⟨T.matrix r.centroids, r.labels, T.error * r.inertia, r.iterations, r.phase,
    r.history.map T.iteration⟩

/-- The image of a run of iterations. -/
def course (c : Course K K) : Course K K :=
  ⟨T.matrix c.centroids, c.iterations, c.phase, c.history.map T.iteration⟩

/-- The image of an iteration. -/
def stride (s : Stride K K) : Stride K K :=
  ⟨T.matrix s.centroids, T.error * s.inertia, T.iteration s.record⟩

end Similarity

namespace Kernel

section Similarity

variable (T : Similarity K) (e : Kernel) {x c : Matrix K} (weights : Option (List K))
  (h : x.Fits c) (hpos : 0 < c.rows)
include h hpos

theorem assignment_matrix :
    e.assignment (T.matrix x) (T.weights x.rows weights) (T.matrix c) =
      T.assignment (e.assignment x weights c) := by
  rw [assignment, assignment, ofSweep_delivered, ofSweep_delivered, T.answers_matrix e h hpos,
    Similarity.rows_matrix, Similarity.weightsFor_weights, Similarity.assignment]
  refine congrArg₂ Assignment.mk ?_ ?_
  · rw [List.map_map]
    rfl
  · rw [← total_map_mul, List.map_zipWith, List.zipWith_map]
    refine congrArg total (congrArg (List.zipWith · _ _) (funext₂ fun w n => ?_))
    rw [Similarity.nearest, Similarity.error]
    ring

theorem members_matrix (j : ℕ) :
    e.members (T.matrix x) (T.weights x.rows weights) (T.matrix c) j =
      WeightedRows.image T (e.members x weights c j) := by
  rw [members, members, e.assignment_matrix T weights h hpos, T.rowList_matrix h.full,
    Similarity.rows_matrix, Similarity.weightsFor_weights]
  exact WeightedRows.labelled_image T _ _ _ j

theorem weights_tally_matrix :
    (e.tally (T.matrix x) (T.weights x.rows weights) (T.matrix c)).weights =
      (e.tally x weights c).weights.map (T.factor * ·) := by
  rw [weights_tally_eq_map, weights_tally_eq_map, Similarity.rows_matrix, List.map_map]
  refine List.map_congr_left fun j _ => ?_
  rw [e.members_matrix T weights h hpos, WeightedRows.mass_image]
  rfl

theorem update_matrix :
    e.update (T.matrix x) (T.weights x.rows weights) (T.matrix c) =
      T.matrix (e.update x weights c) := by
  have hfits := T.fits_matrix h
  have hnext := e.fits_update x weights c h
  refine T.eq_matrix hnext.full_centroids (e.fits_update _ _ _ hfits).full_centroids ?_ ?_ ?_
  · rw [rows_update, rows_update, Similarity.rows_matrix]
  · rfl
  · intro j hj
    rw [rows_update] at hj
    rw [e.row_update _ _ _ hfits (by rwa [Similarity.rows_matrix]), e.row_update _ _ _ h hj,
      e.members_matrix T weights h hpos]
    by_cases hmass : WeightedRows.mass (e.members x weights c j) ≤ 0
    · rw [if_pos hmass, if_pos ((WeightedRows.mass_image_nonpos T _).mpr hmass),
        T.row_matrix h.full_centroids hj]
    · rw [if_neg hmass, if_neg (mt (WeightedRows.mass_image_nonpos T _).mp hmass)]
      exact WeightedRows.mean_image T (e.length_of_mem_members weights h)
        (not_le.mp hmass).ne'

theorem entry_matrix (number : ℕ) :
    e.entry (T.matrix x) (T.weights x.rows weights) number (T.matrix c) =
      T.iteration (e.entry x weights number c) := by
  have hfits := T.fits_matrix h
  have hnext := e.fits_update x weights c h
  have hinertia : (e.assignment (T.matrix x) (T.weights x.rows weights) (T.matrix c)).inertia =
      T.error * (e.assignment x weights c).inertia := by
    rw [e.assignment_matrix T weights h hpos]
    rfl
  have hshift : (e.tally (T.matrix x) (T.weights x.rows weights) (T.matrix c)).shift
      (T.matrix c).rowList = T.area * (e.tally x weights c).shift c.rowList := by
    rw [e.shift_eq_sum _ hfits, e.shift_eq_sum _ h, e.update_matrix T weights h hpos,
      Similarity.rows_matrix, ← List.sum_map_mul_left]
    refine congrArg List.sum (List.map_congr_left fun j hj => ?_)
    rw [List.mem_range] at hj
    rw [T.row_matrix hnext.full_centroids (by rwa [rows_update])]
    refine T.sqDist_row h.full_centroids ?_ hj
    rw [Matrix.length_row hnext.full_centroids (by rwa [rows_update])]
    rfl
  have hempty : (e.tally (T.matrix x) (T.weights x.rows weights) (T.matrix c)).emptyClusters =
      (e.tally x weights c).emptyClusters := by
    rw [Tally.emptyClusters, Tally.emptyClusters, e.weights_tally_matrix T weights h hpos,
      List.countP_map]
    refine List.countP_congr fun w _ => ?_
    simp only [Function.comp_apply, decide_eq_true_eq, T.factor_mul_nonpos]
  rw [entry, entry, Similarity.iteration, hshift, hempty]
  exact congrArg (Iteration.mk number · _ _) hinertia

end Similarity

/-- Checks and buffers depend on shapes. -/
theorem admission_matrix [Memory] (T : Similarity K) (e : Kernel) (x c : Matrix K) :
    e.admission (T.matrix x) (T.matrix c) = e.admission x c := by
  unfold admission checkShapes
  simp only [Similarity.rows_matrix, Similarity.cols_matrix]

end Kernel

/-! ### Runs -/

namespace Refiner

variable [Memory] (T : Similarity K) (r : Refiner K) {x c : Matrix K} (weights : Option (List K))

omit [Memory] in
/-- The stopping test compares the inertias with each other. -/
theorem settled_map (previous : Option K) (inertia : K) :
    r.settled (previous.map (T.error * ·)) (T.error * inertia) = r.settled previous inertia := by
  cases previous with
  | none => rfl
  | some p =>
    refine congrArg (r.checkInertia && ·) (decide_eq_decide.mpr ?_)
    show T.error * p - T.error * inertia ≤ r.tolerance * (T.error * p) ↔
      p - inertia ≤ r.tolerance * p
    rw [← mul_sub, mul_left_comm, mul_le_mul_iff_of_pos_left T.error_pos]

theorem iterate_matrix (h : x.Fits c) (number : ℕ) :
    r.iterate (T.matrix x) (T.weights x.rows weights) number (T.matrix c) =
      (r.iterate x weights number c).map T.stride := by
  rw [iterate_eq, iterate_eq, Kernel.admission_matrix]
  cases hadm : r.kernel.admission x c with
  | error f => rfl
  | ok u =>
    have hpos := Kernel.rows_pos_of_admission hadm
    refine congrArg Except.ok ?_
    rw [r.kernel.update_matrix T weights h hpos, r.kernel.assignment_matrix T weights h hpos,
      r.kernel.entry_matrix T weights h hpos]
    rfl

theorem course_matrix : ∀ (left number : ℕ) (previous : Option K) {c : Matrix K}, x.Fits c →
    (r.course (T.matrix x) (T.weights x.rows weights) left number (previous.map (T.error * ·))
        (T.matrix c)).mapError Halt.failure =
      ((r.course x weights left number previous c).mapError Halt.failure).map T.course
  | 0, _, _, _, _ => rfl
  | left + 1, number, previous, c, h => by
    rw [failure_course_succ, failure_course_succ, r.iterate_matrix T weights h, iterate_eq]
    cases r.kernel.admission x c with
    | error f => rfl
    | ok u =>
      have hnext := course_matrix left (number + 1)
        (some (r.kernel.assignment x weights c).inertia) (r.kernel.fits_update x weights c h)
      cases Memory.grow Iteration.bytes (number - 1) with
      | error f => rfl
      | ok u =>
        simp only [Except.map, bind, Except.bind, pure, Except.pure, Similarity.stride,
          r.settled_map T] at hnext ⊢
        split_ifs
        · rfl
        · rw [Option.map_some] at hnext
          rw [hnext]
          cases (r.course x weights left (number + 1)
            (some (r.kernel.assignment x weights c).inertia)
            (r.kernel.update x weights c)).mapError Halt.failure <;> rfl

theorem conclude_matrix (c : Course K K) (h : x.Fits c.centroids) :
    r.conclude (T.matrix x) (T.weights x.rows weights) (T.course c) =
      (r.conclude x weights c).map T.refined := by
  rw [conclude_eq, conclude_eq]
  show (r.kernel.admission (T.matrix x) (T.matrix c.centroids)).map _ = _
  rw [Kernel.admission_matrix]
  cases hadm : r.kernel.admission x c.centroids with
  | error f => rfl
  | ok u =>
    have hassign := r.kernel.assignment_matrix T weights h (Kernel.rows_pos_of_admission hadm)
    refine congrArg Except.ok ?_
    simp only [Similarity.course, hassign]
    rfl

/-- A run on the image of the data from the image of the start is the image of the run. -/
theorem run_matrix {start : Matrix K} (h : x.Fits start) :
    (r.run (T.matrix x) (T.weights x.rows weights) (T.matrix start)).1 =
      (r.run x weights start).1.map T.refined := by
  have hprepare : prepare (T.matrix x) (T.matrix start) = prepare x start := by
    unfold prepare
    simp only [Similarity.rows_matrix, Similarity.cols_matrix]
  have hfits : Kernel.AlikeOn False x weights x.Fits r.kernel r.kernel :=
    ⟨fun _ _ => .of_eq rfl, fun _ _ => rfl, r.kernel.fits_update x weights⟩
  rw [result_run, result_run, hprepare]
  cases prepare x start with
  | error f => rfl
  | ok u =>
    have hcourse := r.course_matrix T weights r.maxIterations 1 none h
    show ((r.course _ _ r.maxIterations 1 none _).mapError _ >>= r.conclude _ _) =
      ((r.course x weights r.maxIterations 1 none start).mapError _ >>=
        r.conclude x weights).map _
    rw [Option.map_none] at hcourse
    rw [hcourse]
    cases hc : (r.course x weights r.maxIterations 1 none start).mapError Halt.failure with
    | error f => rfl
    | ok c => exact r.conclude_matrix T weights c (centroids_of_course hfits h hc)

end Refiner

end Clustering
