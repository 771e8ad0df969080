import Clustering.Proofs.MachineOrder
import Clustering.Proofs.Rows

/-!
# The direct kernel is the plain argmin

Batches and tiles are a matter of storage: with the direct metric a sweep hands over the rows one
after the other (`Kernel.Delivers`), and answers each one as if it went through all centroids by
itself (`Kernel.delivers_direct`).  Where infinity is a value, the answer is one fold over the
centroids from the first label at infinite distance (`Nearest.plain`, `Nearest.among_eq_plain`).

`Kernel.sweep_plain`: this is what a sweep delivers, for data and centroids of one positive width
within the index limit.  Wider ones are refused (`Kernel.sweep_overwide`), by the direct metric too,
which has no use for an index of that kind.

No law of arithmetic is used for the answers, and of the comparison only that it orders numbers
where the answer is said to be the nearest centroid.
-/

namespace Clustering

variable {α : Type} [Scalar α]

/-! ### One fold over the centroids -/

namespace Nearest

/-- A centroid at distance `v` replaces the nearest one so far exactly if it is strictly closer. -/
def challenge (n : Nearest α) (label : ℕ) (v : α) : Nearest α :=
  if v < n.dist then ⟨label, v⟩ else n

/-- The nearest centroid of a vector by a fold over all centroids, from the first label at infinite
distance. -/
def plain (cs : List (List α)) (x : List α) : Nearest α :=
  cs.zipIdx.foldl (fun n (c, j) => n.challenge j (sqDist x c)) ⟨0, Scalar.infinity⟩

section Infinity

variable (hinf : ∀ v : α, Scalar.belowInfinity v = true ↔ v < Scalar.infinity)
include hinf

/-- A lead that has seen nothing below infinity stands for an answer at infinite distance. -/
theorem nearest_challenge (l : Lead α) (j : ℕ) (v : α) :
    (l.challenge j v).nearest = l.nearest.challenge j v := by
  have hbeaten : l.beatenBy v = true ↔ v < l.nearest.dist := by
    rcases l with ⟨label, _ | d⟩
    · exact hinf v
    · exact decide_eq_true_iff
  unfold Lead.challenge challenge
  by_cases h : l.beatenBy v = true
  · rw [if_pos h, if_pos (hbeaten.mp h)]
    rfl
  · rw [if_neg h, if_neg fun hlt => h (hbeaten.mpr hlt)]

theorem nearest_scan (offset : ℕ) : ∀ (vs : List α) (l : Lead α),
    (l.scan offset vs).nearest =
      (vs.zipIdx offset).foldl (fun n (v, j) => n.challenge j v) l.nearest := by
  intro vs
  induction vs generalizing offset with
  | nil => exact fun l => rfl
  | cons v vs ih =>
    intro l
    have hstep : (l.challenge offset v).nearest = l.nearest.challenge offset v :=
      nearest_challenge hinf l offset v
    rw [List.zipIdx_cons, List.foldl_cons]
    dsimp only
    rw [← hstep]
    exact ih (offset + 1) _

/-- Where infinity is a value, the scan of the kernel is the plain fold. -/
theorem among_eq_plain (cs : List (List α)) (x : List α) : among cs x = plain cs x := by
  rw [among, nearest_scan hinf, List.zipIdx_map, List.foldl_map]
  rfl

end Infinity

end Nearest

namespace Kernel

/-! ### Row after row -/

/-- A sweep that hands over the rows `0` to `n - 1` in order, in batches of at most `size` rows, and
answers each row by a function of its index. -/
structure Delivers (sweep : List (NearestBatch α)) (n size : ℕ) (answer : ℕ → Nearest α) :
    Prop where
  consecutive : Batch.Consecutive 0 (sweep.map (·.batch))
  covers : Batch.rowCount (sweep.map (·.batch)) = n
  size_pos : ∀ nb ∈ sweep, 0 < nb.batch.size
  size_le : ∀ nb ∈ sweep, nb.batch.size ≤ size
  rows : ∀ nb ∈ sweep,
    nb.rows = (List.range nb.batch.size).map fun r => answer (nb.batch.offset + r)

omit [Scalar α] in
theorem Delivers.mono {sweep : List (NearestBatch α)} {n size size' : ℕ} {answer : ℕ → Nearest α}
    (h : Delivers sweep n size answer) (hle : size ≤ size') : Delivers sweep n size' answer :=
  { h with size_le := fun nb hnb => (h.size_le nb hnb).trans hle }

omit [Scalar α] in
/-- The rows of a matrix that lie in a batch. -/
theorem slice_rowList {m : Matrix α} {b : Batch} (h : b.offset + b.size ≤ m.rows) :
    b.slice m.rowList = (List.range b.size).map fun r => m.row (b.offset + r) := by
  refine eq_map_range_of_getElem? ?_ fun r hr => ?_
  · rw [Batch.slice, List.length_take, List.length_drop, m.length_rowList]
    omega
  · rw [Batch.slice, List.getElem?_take, if_pos hr, List.getElem?_drop,
      m.getElem?_rowList (by omega)]

section Delivered

variable [BlockProduct α]

theorem delivered_eq_map_slice (e : Kernel) (x c : Matrix α) :
    e.delivered x c = (e.batches x.rows).map fun b =>
      ⟨b, e.nearestIn (b.slice x.rowList) c.rowList⟩ := by
  rw [delivered, batches, Batch.deal_cover, List.zipWith_map_right, List.zipWith_self]

/-- With the direct metric each row is answered by itself. -/
theorem delivers_direct (e : Kernel) (he : e.metric ≠ .expanded) (x c : Matrix α) :
    Delivers (e.delivered x c) x.rows (min e.batchRows x.rows)
      fun i => .among c.rowList (x.row i) := by
  have hbatch : ∀ nb ∈ e.delivered x c, nb.batch ∈ e.batches x.rows := by
    intro nb hnb
    rw [← e.map_batch_delivered x c]
    exact List.mem_map_of_mem hnb
  refine ⟨?_, ?_, fun nb hnb => ?_, fun nb hnb => ?_, fun nb hnb => ?_⟩
  · rw [map_batch_delivered]
    exact Batch.consecutive_cover _ _
  · rw [map_batch_delivered, rowCount_batches]
  · exact (Batch.of_mem_cover (hbatch nb hnb)).1
  · exact (Batch.of_mem_cover (hbatch nb hnb)).2.1
  · rw [delivered_eq_map_slice] at hnb
    obtain ⟨b, hb, rfl⟩ := List.mem_map.mp hnb
    rw [e.nearestIn_eq_map _ _ fun _ _ => if_neg he,
      slice_rowList (Batch.of_mem_cover hb).2.2, List.map_map]
    rfl

end Delivered

/-! ### Sweeps that are admitted -/

variable [Memory]

/-- Within the index limit only a buffer may be refused. -/
theorem admission_of_shapes (e : Kernel) {x c : Matrix α} (hx : 0 < x.rows)
    (hc : 0 < c.rows) (hlimit : c.rows ≤ indexLimit) (hcols : x.cols = c.cols) (hpos : 0 < c.cols)
    (hwidth : c.cols ≤ indexLimit) : e.admission x c = e.sweepBuffers α x.rows c.rows := by
  rw [admission, checkShapes_eq_ok "nearest" hc hlimit hcols hpos hwidth]
  simp only [Nat.ne_of_gt hx, bind, Except.bind, if_false]

/-- What a sweep of the direct metric delivers, unless a buffer is refused: the rows in order, in
batches of at most the size asked for, each with the outcome of one scan over all centroids, which
depends on that row and the centroids only.  Where infinity is a value, the scan is the fold that
starts from it.  If all distances of a row are numbers, the label is that of the first nearest
centroid, and the distance is its distance. -/
theorem sweep_plain [BlockProduct α] {b : ℕ} (hb : 0 < b) (t : ℕ) {x c : Matrix α} (hx : 0 < x.rows)
    (hc : 0 < c.rows) (hlimit : c.rows ≤ indexLimit) (hcols : x.cols = c.cols) (hpos : 0 < c.cols)
    (hwidth : c.cols ≤ indexLimit) :
    ∃ e sweep, new? .unexpanded b t = .ok e ∧
      e.sweep x c = (e.sweepBuffers α x.rows c.rows).map (fun _ => sweep) ∧
      Delivers sweep x.rows (min b x.rows) (fun i => .among c.rowList (x.row i)) ∧
      ((∀ v : α, Scalar.belowInfinity v = true ↔ v < Scalar.infinity) →
        Delivers sweep x.rows (min b x.rows) fun i => .plain c.rowList (x.row i)) ∧
      ∀ [Scalar.Ordered α], ∀ i < x.rows,
        (∀ j < c.rows, Scalar.IsNumber (sqDist (x.row i) (c.row j))) →
          FirstLeast (c.rowList.map (sqDist (x.row i))) (Nearest.among c.rowList (x.row i)).label
            (Nearest.among c.rowList (x.row i)).dist := by
  have hbatch : 0 < min b indexLimit := lt_min hb (by decide)
  let e : Kernel := ⟨.unexpanded, min b indexLimit, t, hbatch⟩
  have hdelivers : Delivers (e.delivered x c) x.rows (min b x.rows)
      fun i => .among c.rowList (x.row i) :=
    (e.delivers_direct nofun x c).mono (min_le_min_right _ (min_le_left _ _))
  refine ⟨e, e.delivered x c, dif_pos hb, ?_, hdelivers, fun hinf => ?_, ?_⟩
  · rw [sweep_eq, e.admission_of_shapes hx hc hlimit hcols hpos hwidth]
  · simp only [← Nearest.among_eq_plain hinf]
    exact hdelivers
  · intro _ i _ hnum
    refine Lead.scan_firstLeast ?_ fun v hv => ?_
    · rw [ne_eq, List.map_eq_nil_iff, ← List.length_eq_zero_iff, Matrix.length_rowList]
      omega
    · obtain ⟨row, hrow, rfl⟩ := List.mem_map.mp hv
      obtain ⟨j, hj, rfl⟩ := Matrix.mem_rowList.mp hrow
      exact hnum j hj

end Kernel

/-! ### Ties, infinite distances, and too many features -/

namespace Kernel

/-- Two of the centroids are equally near to the first point, and all are infinitely far from the
last one. -/
def tiedPoints : Matrix Float := ⟨3, 1, [0, 2, 1e200]⟩

def tiedCentroids : Matrix Float := ⟨3, 1, [1, -1, 2]⟩

/-- Two batches of points against two tiles of centroids. -/
theorem sweep_plain_ties :
    ∃ e sweep, new? .unexpanded 2 2 = .ok e ∧ e.sweep tiedPoints tiedCentroids = .ok sweep ∧
      Delivers sweep 3 2 (fun i => .plain tiedCentroids.rowList (tiedPoints.row i)) ∧
      sweep = [⟨⟨0, 2⟩, [⟨0, 1⟩, ⟨2, 0⟩]⟩, ⟨⟨2, 1⟩, [⟨0, Scalar.infinity⟩]⟩] := by
  obtain ⟨e, sweep, hnew, hsweep, -, hplain, -⟩ :=
    sweep_plain Nat.two_pos 2 (x := tiedPoints) (c := tiedCentroids) (by decide) (by decide)
      (by decide) rfl (by decide) (by decide)
  obtain rfl := Except.ok.inj hnew
  have hdelivers := hplain fun v => Scalar.Unpacked.belowInfinity_iff
  refine ⟨_, sweep, rfl, hsweep, hdelivers, ?_⟩
  refine Except.ok.inj (hsweep.symm.trans ?_)
  decide +kernel

/-- One row with one feature more than an index of the block product reaches. -/
def overwide : Matrix Float := ⟨1, 0x8000_0000, List.replicate 0x8000_0000 0⟩

/-- The direct metric refuses it, although it is complete and has one positive width. -/
theorem sweep_overwide :
    overwide.Full ∧ 0 < overwide.rows ∧ overwide.rows ≤ indexLimit ∧ 0 < overwide.cols ∧
      ∃ e, new? .unexpanded 1 0 = .ok e ∧
        e.sweep overwide overwide = .error (.indexRange "nearest") := by
  have hfull : overwide.Full := List.length_replicate.trans (Nat.one_mul _).symm
  have hshapes : checkShapes "nearest" overwide overwide = .error (.indexRange "nearest") := by
    rw [checkShapes, if_neg (by decide), if_neg (by decide), if_neg (by decide),
      if_pos (by decide)]
  refine ⟨hfull, by decide, by decide, by decide, _, rfl, ?_⟩
  rw [sweep, hshapes]
  rfl

end Kernel

end Clustering
