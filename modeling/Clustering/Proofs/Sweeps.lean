import Clustering.Lloyd.Refiner
import Clustering.Seeding.Oversampling
import Clustering.Proofs.Batches

/-!
# Sweeps without their batches

A sweep of the kernel checks the shapes and asks for its buffers (`Kernel.admission`); what it then
delivers is `Kernel.delivered`, a plain value.  The answers of a sweep are one list, and everybody
who reads a sweep folds over its rows: the batches only cut the list.

* `ofSweep_delivered`, `tally_delivered`, `candidateWeights_delivered`: the consumers of a sweep as
  folds over all rows, for every metric.
* `Nearest.among`: the first nearest centroid, by one scan over all of them.  With the direct
  metric every answer is this one, whatever batches and tiles are (`answers_direct`).

No law of arithmetic is used here.
-/

namespace Clustering

variable {α : Type} [Scalar α]

/-- The weights of `n` rows; without weights every row counts once. -/
def weightsFor (weights : Option (List α)) (n : ℕ) : List α := weights.getD (List.replicate n 1)

theorem length_weightsFor {weights : Option (List α)} {n : ℕ} (h : ∀ ws ∈ weights, ws.length = n) :
    (weightsFor weights n).length = n := by
  cases weights with
  | none => exact List.length_replicate
  | some ws => exact h ws rfl

section Block

variable [BlockProduct α]

/-- A block of distances has a row for each row of the first block. -/
theorem Metric.length_block (metric : Metric) (xs cs : List (List α)) :
    (metric.block xs cs).length = xs.length := by
  unfold Metric.block Metric.expandedBlock Metric.addNorms Metric.products Metric.directBlock
  split_ifs
  · simp [BlockProduct.length_block]
  · simp

/-- In each of its rows there is a distance for each row of the second block. -/
theorem Metric.length_of_mem_block (metric : Metric) {xs cs : List (List α)} {row : List α}
    (h : row ∈ metric.block xs cs) : row.length = cs.length := by
  unfold Metric.block Metric.expandedBlock Metric.addNorms Metric.products Metric.directBlock at h
  split_ifs at h
  · rw [← List.map_uncurry_zip_eq_zipWith] at h
    obtain ⟨⟨x, products⟩, hp, rfl⟩ := List.mem_map.mp h
    have hproducts := BlockProduct.length_of_mem_block _ _ _ _ (List.of_mem_zip hp).2
    simp [hproducts]
  · obtain ⟨x, -, rfl⟩ := List.mem_map.mp h
    exact List.length_map _

end Block

namespace Kernel

section Delivered

variable [BlockProduct α]

/-- What a sweep delivers once it is admitted. -/
def delivered (e : Kernel) (x c : Matrix α) : List (NearestBatch α) :=
  List.zipWith (fun b xs => ⟨b, e.nearestIn xs c.rowList⟩) (e.batches x.rows)
    (Batch.deal (e.batches x.rows) x.rowList)

/-- The nearest centroids of all rows. -/
def answers (e : Kernel) (x c : Matrix α) : List (Nearest α) :=
  (e.delivered x c).flatMap (·.rows)

theorem rowCount_batches (e : Kernel) (n : ℕ) : Batch.rowCount (e.batches n) = n := by
  apply Batch.rowCount_cover
  have := e.batchRows_pos
  omega

theorem length_scanTile (e : Kernel) (xs : List (List α)) (leads : List (Lead α))
    (tile : Batch × List (List α)) (h : leads.length = xs.length) :
    (e.scanTile xs leads tile).length = xs.length := by
  rw [scanTile, List.length_zipWith, h, Metric.length_block, Nat.min_self]

theorem length_nearestIn (e : Kernel) (xs cs : List (List α)) :
    (e.nearestIn xs cs).length = xs.length := by
  have key : ∀ (ts : List (Batch × List (List α))) (leads : List (Lead α)),
      leads.length = xs.length → (ts.foldl (e.scanTile xs) leads).length = xs.length := by
    intro ts
    induction ts with
    | nil => exact fun leads h => h
    | cons t ts ih => exact fun leads h => ih _ (e.length_scanTile xs leads t h)
  rw [nearestIn, List.length_map]
  exact key _ _ (List.length_map _)

theorem delivered_eq_map (e : Kernel) (x c : Matrix α) :
    e.delivered x c = ((e.batches x.rows).zip (Batch.deal (e.batches x.rows) x.rowList)).map
      fun p => ⟨p.1, e.nearestIn p.2 c.rowList⟩ := by
  rw [List.map_zip_eq_zipWith]
  rfl

theorem map_batch_delivered (e : Kernel) (x c : Matrix α) :
    (e.delivered x c).map (·.batch) = e.batches x.rows := by
  rw [delivered_eq_map, List.map_map]
  exact List.map_fst_zip (by simp)

theorem map_rows_delivered_eq_map (e : Kernel) (x c : Matrix α) :
    (e.delivered x c).map (·.rows) =
      (Batch.deal (e.batches x.rows) x.rowList).map (e.nearestIn · c.rowList) := by
  rw [delivered_eq_map, List.map_map]
  show List.map ((e.nearestIn · c.rowList) ∘ Prod.snd) _ = _
  rw [← List.map_map, List.map_snd_zip (by simp)]

theorem answers_eq_flatten (e : Kernel) (x c : Matrix α) :
    e.answers x c = ((Batch.deal (e.batches x.rows) x.rowList).map
      (e.nearestIn · c.rowList)).flatten := by
  rw [← map_rows_delivered_eq_map, ← List.flatMap_def]
  rfl

/-- The batches of answers are the answers, dealt out. -/
theorem map_rows_delivered (e : Kernel) (x c : Matrix α) :
    (e.delivered x c).map (·.rows) = Batch.deal (e.batches x.rows) (e.answers x c) := by
  rw [map_rows_delivered_eq_map, answers_eq_flatten, Batch.deal_flatten]
  have hlen : List.length ∘ (e.nearestIn · c.rowList) = List.length :=
    funext fun xs => e.length_nearestIn xs _
  rw [List.map_map, hlen]
  exact Batch.map_length_deal (by rw [rowCount_batches, Matrix.length_rowList])

@[simp] theorem length_answers (e : Kernel) (x c : Matrix α) :
    (e.answers x c).length = x.rows := by
  have hlen : List.length ∘ (e.nearestIn · c.rowList) = List.length :=
    funext fun xs => e.length_nearestIn xs _
  have hdeal : (Batch.deal (e.batches x.rows) x.rowList).map List.length =
      (e.batches x.rows).map (·.size) :=
    Batch.map_length_deal (by rw [rowCount_batches, Matrix.length_rowList])
  rw [answers_eq_flatten, List.length_flatten, List.map_map, hlen, hdeal]
  exact e.rowCount_batches x.rows

end Delivered

/-! ### Readers of a sweep -/

section Readers

theorem batchWeights_eq_deal (weights : Option (List α)) (bs : List Batch) :
    batchWeights weights bs = Batch.deal bs (weightsFor weights (Batch.rowCount bs)) := by
  cases weights with
  | none => exact (Batch.deal_replicate bs 1).symm
  | some ws => rfl

variable [BlockProduct α]

theorem weightedBatches_delivered (weights : Option (List α)) (e : Kernel) (x c : Matrix α) :
    weightedBatches weights (e.delivered x c) =
      (Batch.deal (e.batches x.rows) (weightsFor weights x.rows)).zip
        (Batch.deal (e.batches x.rows) (e.answers x c)) := by
  rw [weightedBatches, map_batch_delivered, map_rows_delivered, batchWeights_eq_deal,
    rowCount_batches]

theorem length_answers_le (e : Kernel) (x c : Matrix α) :
    (e.answers x c).length ≤ Batch.rowCount (e.batches x.rows) := by
  rw [length_answers, rowCount_batches]

/-- The labels in row order, and the weighted distances added up in row order. -/
theorem ofSweep_delivered (weights : Option (List α)) (e : Kernel) (x c : Matrix α) :
    Assignment.ofSweep weights (e.delivered x c) =
      ⟨(e.answers x c).map (·.label),
        total (List.zipWith (fun w n => w * n.dist) (weightsFor weights x.rows)
          (e.answers x c))⟩ := by
  have hlabels : (e.delivered x c).flatMap (fun nb => nb.rows.map (·.label)) =
      (e.answers x c).map (·.label) := by
    rw [answers, List.map_flatMap]
  have hstep : (addInertia : α → List α × List (Nearest α) → α) = fun sum p =>
      (p.1.zip p.2).foldl (fun sum q => sum + q.1 * q.2.dist) sum := by
    funext sum p
    exact List.zipWith_foldl_eq_zip_foldl
  rw [Assignment.ofSweep, hlabels, weightedBatches_delivered, hstep,
    Batch.foldl_deal_zip _ _ (e.length_answers_le x c), total,
    List.zipWith_foldl_eq_zip_foldl]

/-- Every row added to its cluster, in row order. -/
theorem tally_delivered (k dim : ℕ) (weights : Option (List α)) (e : Kernel) (x c : Matrix α) :
    Tally.ofSweep k dim x.rowList weights (e.delivered x c) =
      (x.rowList.zip ((weightsFor weights x.rows).zip (e.answers x c))).foldl
        (fun t p => t.addRow p.2.2.label p.2.1 p.1) (Tally.zero k dim) := by
  have hlen : ((weightsFor weights x.rows).zip (e.answers x c)).length ≤
      Batch.rowCount (e.batches x.rows) := by
    have := e.length_answers_le x c
    rw [List.length_zip]
    omega
  rw [← Batch.foldl_deal_zip _ _ hlen, Batch.deal_zip, List.zip_map_right, List.foldl_map,
    Tally.ofSweep, map_batch_delivered, weightedBatches_delivered]
  rfl

/-- The weight of every row added to its candidate, in row order. -/
theorem candidateWeights_delivered (k : ℕ) (weights : Option (List α)) (e : Kernel)
    (x c : Matrix α) :
    Oversampling.candidateWeights k weights (e.delivered x c) =
      ((weightsFor weights x.rows).zip (e.answers x c)).foldl
        (fun sums p => sums.modify p.2.label (· + p.1)) (List.replicate k 0) := by
  rw [Oversampling.candidateWeights, weightedBatches_delivered,
    ← Batch.foldl_deal_zip _ _ (e.length_answers_le x c)]
  rfl

end Readers

/-! ### Admission -/

section Admission

/-- Steps one after the other return if each of them does. -/
theorem exists_of_bind_ok {β γ : Type} {a : Except Failure β} {f : β → Except Failure γ} {v : γ}
    (h : a >>= f = .ok v) : ∃ u, a = .ok u ∧ f u = .ok v := by
  cases a with
  | error e => cases h
  | ok u => exact ⟨u, rfl, h⟩

omit [Scalar α] in
/-- Centroids of the width of the data, with no more rows and columns than an index reaches. -/
theorem checkShapes_eq_ok (op : String) {x c : Matrix α} (hrows : 0 < c.rows)
    (hlimit : c.rows ≤ indexLimit) (hcols : x.cols = c.cols) (hpos : 0 < c.cols)
    (hwidth : c.cols ≤ indexLimit) : checkShapes op x c = .ok () := by
  rw [checkShapes, if_neg (by omega), if_neg (by omega), if_neg (by omega), if_neg (by omega)]

variable [Memory]

/-- The shapes that a sweep checks and the buffers that it asks for. -/
def admission (e : Kernel) (x c : Matrix α) : Except Failure Unit := do
  checkShapes "nearest" x c
  if x.rows = 0 then return ()
  e.sweepBuffers α x.rows c.rows

/-- Only shapes count. -/
theorem admission_congr (e : Kernel) (x : Matrix α) {c d : Matrix α} (hr : c.rows = d.rows)
    (hc : c.cols = d.cols) : e.admission x c = e.admission x d := by
  unfold admission checkShapes
  rw [hr, hc]

/-- Where the buffers are granted, the shapes decide. -/
theorem admission_of_sweepBuffers {e : Kernel} {x c : Matrix α}
    (h : e.sweepBuffers α x.rows c.rows = .ok ()) :
    e.admission x c = checkShapes "nearest" x c := by
  unfold admission
  rw [h]
  cases checkShapes "nearest" x c with
  | error f => rfl
  | ok u => by_cases hx : x.rows = 0 <;> simp [hx, bind, Except.bind, pure, Except.pure]

theorem rows_pos_of_admission {e : Kernel} {x c : Matrix α} (h : e.admission x c = .ok ()) :
    0 < c.rows := by
  by_contra hrows
  rw [admission, checkShapes, if_pos (by omega)] at h
  cases h

variable [BlockProduct α]

/-- A sweep either fails before its first batch or delivers. -/
theorem sweep_eq (e : Kernel) (x c : Matrix α) :
    e.sweep x c = (e.admission x c).map fun _ => e.delivered x c := by
  unfold sweep admission
  cases checkShapes "nearest" x c with
  | error f => rfl
  | ok u =>
    by_cases hx : x.rows = 0
    · have hnil : e.delivered x c = [] := by
        have hb : e.batches 0 = [] := by simp [batches, Batch.cover]
        simp [delivered, hx, hb]
      simp [hx, hnil, bind, Except.bind, pure, Except.pure, Except.map]
    · simp only [hx, bind, Except.bind, pure, Except.pure, if_false]
      cases e.sweepBuffers α x.rows c.rows with
      | error f => rfl
      | ok u => rfl

/-- A sweep that returns was admitted. -/
theorem eq_delivered_of_sweep {e : Kernel} {x c : Matrix α} {sweep : List (NearestBatch α)}
    (h : e.sweep x c = .ok sweep) : e.admission x c = .ok () ∧ sweep = e.delivered x c := by
  rw [sweep_eq] at h
  cases hadm : e.admission x c with
  | error f => rw [hadm] at h; cases h
  | ok u => rw [hadm] at h; cases h; exact ⟨rfl, rfl⟩

theorem nearest_eq (e : Kernel) (x c : Matrix α) :
    e.nearest x c = (e.admission x c).map fun _ => e.answers x c := by
  rw [nearest, sweep_eq]
  cases e.admission x c with
  | error f => rfl
  | ok u => rfl

theorem eq_answers_of_nearest {e : Kernel} {x c : Matrix α} {ns : List (Nearest α)}
    (h : e.nearest x c = .ok ns) : e.admission x c = .ok () ∧ ns = e.answers x c := by
  rw [nearest_eq] at h
  cases hadm : e.admission x c with
  | error f => rw [hadm] at h; cases h
  | ok u => rw [hadm] at h; cases h; exact ⟨rfl, rfl⟩

end Admission

end Kernel

/-! ### One scan over all centroids -/

/-- The first nearest centroid of a vector, by one scan over all centroids. -/
def Nearest.among (cs : List (List α)) (x : List α) : Nearest α :=
  (Lead.start.scan 0 (cs.map (sqDist x))).nearest

theorem Lead.scan_append (l : Lead α) (offset : ℕ) (us vs : List α) :
    l.scan offset (us ++ vs) = (l.scan offset us).scan (offset + us.length) vs := by
  rw [scan, scan, scan, List.zipIdx_append, List.foldl_append]

/-- Scanning tile after tile is scanning the whole list. -/
theorem Lead.foldl_scan_deal : ∀ (bs : List Batch) (l : Lead α) (start : ℕ) (vs : List α),
    Batch.Consecutive start bs → vs.length = Batch.rowCount bs →
      (bs.zip (Batch.deal bs vs)).foldl (fun l t => l.scan t.1.offset t.2) l = l.scan start vs
  | [], l, start, vs, _, hlen => by
    have hnil : vs = [] := List.eq_nil_of_length_eq_zero hlen
    subst hnil
    rfl
  | b :: bs, l, start, vs, hbs, hlen => by
    obtain ⟨hoff, hrest⟩ := hbs
    rw [Batch.rowCount_cons] at hlen
    have htake : (vs.take b.size).length = b.size := by
      rw [List.length_take]
      omega
    have hdrop : (vs.drop b.size).length = Batch.rowCount bs := by
      rw [List.length_drop]
      omega
    -- the tile ends where the next one starts, so the labels run on
    rw [Batch.deal, List.zip_cons_cons, List.foldl_cons,
      foldl_scan_deal bs _ (start + b.size) _ hrest hdrop, hoff]
    conv_rhs => rw [← List.take_append_drop b.size vs, scan_append, htake]

namespace Kernel

variable [BlockProduct α]

theorem foldl_scanTile (e : Kernel) (xs : List (List α)) :
    ∀ (ts : List (Batch × List (List α))) (f : List α → Lead α),
      (∀ t ∈ ts, e.metric.block xs t.2 = Metric.directBlock xs t.2) →
        ts.foldl (e.scanTile xs) (xs.map f) =
          xs.map fun x => ts.foldl (fun l t => l.scan t.1.offset (t.2.map (sqDist x))) (f x)
  | [], _, _ => rfl
  | t :: ts, f, h => by
    have hstep : e.scanTile xs (xs.map f) t =
        xs.map fun x => (f x).scan t.1.offset (t.2.map (sqDist x)) := by
      rw [scanTile, h t List.mem_cons_self, Metric.directBlock, List.zipWith_map,
        List.zipWith_self]
    rw [List.foldl_cons, hstep,
      foldl_scanTile e xs ts _ fun s hs => h s (List.mem_cons_of_mem _ hs)]
    rfl

theorem rowCount_tiles (e : Kernel) (k : ℕ) : Batch.rowCount (e.tiles k) = k := by
  apply Batch.rowCount_cover
  unfold tile
  split_ifs <;> omega

/-- Where the metric computes squared distances as such, each row gets its first nearest
centroid. -/
theorem nearestIn_eq_map (e : Kernel) (xs cs : List (List α))
    (h : ∀ t ∈ e.tiled cs, e.metric.block xs t.2 = Metric.directBlock xs t.2) :
    e.nearestIn xs cs = xs.map (Nearest.among cs) := by
  rw [nearestIn, foldl_scanTile e xs _ _ h, List.map_map]
  refine List.map_congr_left fun x _ => congrArg Lead.nearest ?_
  have hscan := Lead.foldl_scan_deal (e.tiles cs.length) Lead.start 0 (cs.map (sqDist x))
    (Batch.consecutive_cover _ _) (by rw [List.length_map, rowCount_tiles])
  rw [← hscan, Batch.deal_map, List.zip_map_right, List.foldl_map]
  rfl

theorem answers_eq_map (e : Kernel) (x c : Matrix α)
    (h : ∀ xs ∈ Batch.deal (e.batches x.rows) x.rowList, ∀ t ∈ e.tiled c.rowList,
      e.metric.block xs t.2 = Metric.directBlock xs t.2) :
    e.answers x c = x.rowList.map (Nearest.among c.rowList) := by
  have hmap : (Batch.deal (e.batches x.rows) x.rowList).map (e.nearestIn · c.rowList) =
      (Batch.deal (e.batches x.rows) x.rowList).map (List.map (Nearest.among c.rowList)) :=
    List.map_congr_left fun xs hxs => e.nearestIn_eq_map xs _ (h xs hxs)
  rw [answers_eq_flatten, hmap, ← List.map_flatten, Batch.flatten_deal]
  rw [rowCount_batches, Matrix.length_rowList]

/-- With the direct metric neither batches nor tiles show in the answers. -/
theorem answers_direct (e : Kernel) (he : e.metric ≠ .expanded) (x c : Matrix α) :
    e.answers x c = x.rowList.map (Nearest.among c.rowList) :=
  e.answers_eq_map x c fun _ _ _ _ => if_neg he

end Kernel

end Clustering
