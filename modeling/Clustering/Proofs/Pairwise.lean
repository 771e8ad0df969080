import Clustering.Proofs.MachineOrder

/-!
# Nearest centroids and pairwise distances

The kernel finds nearest centroids tile by tile and forgets the distances of a tile once it has
scanned them.  Pairwise distances are kept, and come about in another order: products are put
together from the tiles, and norms are added when the rows are complete.  This gives the distances
of the tiles, put together (`Kernel.distancesIn_eq_tiles`).  A scan goes through the tiles in step
with them (`Kernel.InStep`): at each seam the lead of a row is that of a scan over the distances
so far.  So nearest centroids are a scan over the rows of the distance table
(`Kernel.answers_eq_distances`).

In every row of numbers the nearest centroid is therefore the first least entry
(`Kernel.nearest_pairwise`), in any arithmetic whose comparison is a weak order on numbers.
-/

namespace Clustering

variable {α : Type}

namespace Metric

variable [Scalar α]

theorem directBlock_append (xs cs ds : List (List α)) :
    directBlock xs (cs ++ ds) =
      List.zipWith (· ++ ·) (directBlock xs cs) (directBlock xs ds) := by
  simp only [directBlock, List.zipWith_map, List.zipWith_self, List.map_append]

/-- Norms may be added piece by piece. -/
theorem addNorms_append (cs ds : List (List α)) : ∀ (xs rows blocks : List (List α)),
    (∀ r ∈ rows, r.length = cs.length) →
      addNorms xs (cs ++ ds) (List.zipWith (· ++ ·) rows blocks) =
        List.zipWith (· ++ ·) (addNorms xs cs rows) (addNorms xs ds blocks)
  | [], _, _, _ => rfl
  | _ :: _, [], _, _ => rfl
  | _ :: _, _ :: _, [], _ => rfl
  | x :: xs, row :: rows, block :: blocks, h => by
    have hrow : row.length = (cs.map sqNorm).length := by
      rw [h row List.mem_cons_self, List.length_map]
    have hrest := addNorms_append cs ds xs rows blocks
      fun r hr => h r (List.mem_cons_of_mem _ hr)
    simp only [addNorms, List.zipWith_cons_cons, List.map_append] at hrest ⊢
    rw [hrest, List.zipWith_append hrow]

end Metric

namespace Kernel

/-! ### Admission -/

section Admission

variable [Scalar α] [Memory]

/-- The shapes that pairwise distances check and the buffers that they ask for. -/
def pairwiseAdmission (e : Kernel) (x c : Matrix α) : Except Failure Unit := do
  checkShapes "pairwise" x c
  if x.rows = 0 then return ()
  e.normBuffers α x.rows c.rows

theorem of_sweepBuffers {e : Kernel} {n k : ℕ} (h : e.sweepBuffers α n k = .ok ()) :
    Memory.buffer "nearest-label batch buffer" labelBytes (min e.batchRows n) = .ok () ∧
      Memory.buffer "nearest-distance batch buffer" (Scalar.bytes α) (min e.batchRows n) =
        .ok () ∧ e.normBuffers α n k = .ok () := by
  obtain ⟨_, hlabels, h⟩ := exists_of_bind_ok h
  obtain ⟨_, hdistances, h⟩ := exists_of_bind_ok h
  refine ⟨hlabels, hdistances, ?_⟩
  split_ifs at h
  · obtain ⟨_, -, h⟩ := exists_of_bind_ok h
    exact h
  · exact h

/-- Pairwise distances ask for nothing that nearest centroids do not ask for. -/
theorem pairwiseAdmission_of_admission (e : Kernel) {x c : Matrix α}
    (h : e.admission x c = .ok ()) : e.pairwiseAdmission x c = .ok () := by
  have hshapes : checkShapes "nearest" x c = .ok () → checkShapes "pairwise" x c = .ok () := by
    unfold checkShapes
    split_ifs <;> simp
  obtain ⟨u, hc, h⟩ := exists_of_bind_ok h
  rw [pairwiseAdmission, hshapes hc]
  by_cases hx : x.rows = 0
  · rw [if_pos hx]
    rfl
  · rw [if_neg hx] at h ⊢
    exact (of_sweepBuffers h).2.2

end Admission

/-! ### Tile after tile -/

theorem map_fst_tiled (e : Kernel) (cs : List (List α)) :
    (e.tiled cs).map (·.1) = e.tiles cs.length :=
  List.map_fst_zip (by simp)

theorem flatten_tiled (e : Kernel) (cs : List (List α)) :
    ((e.tiled cs).map (·.2)).flatten = cs := by
  rw [tiled, List.map_snd_zip (by simp), Batch.flatten_deal (e.rowCount_tiles cs.length).ge]

theorem length_of_mem_tiled (e : Kernel) {cs : List (List α)} {t : Batch × List (List α)}
    (h : t ∈ e.tiled cs) : t.2.length = t.1.size := by
  have hlengths : (Batch.deal (e.tiles cs.length) cs).map List.length =
      (e.tiles cs.length).map (·.size) :=
    Batch.map_length_deal (e.rowCount_tiles cs.length).le
  obtain ⟨i, hi, rfl⟩ := List.mem_iff_getElem.mp h
  have hget := congrArg (·[i]?) hlengths
  simp only [List.getElem?_map] at hget
  unfold tiled at hi ⊢
  rw [List.length_zip] at hi
  rw [List.getElem_zip]
  simpa [List.getElem?_eq_getElem, show i < (e.tiles cs.length).length by omega,
    show i < (Batch.deal (e.tiles cs.length) cs).length by omega] using hget

variable [Scalar α] [BlockProduct α]

/-- A table of distances to the first `n` centroids, with a row for each of `count` vectors, and
the leads that scans of its rows end with. -/
structure InStep (count n : ℕ) (rows : List (List α)) (leads : List (Lead α)) : Prop where
  length : rows.length = count
  lengths : ∀ r ∈ rows, r.length = n
  leads : leads = rows.map (Lead.start.scan 0)

/-- The distances of one more tile. -/
def appendTile (e : Kernel) (xs : List (List α)) (rows : List (List α))
    (tile : Batch × List (List α)) : List (List α) :=
  List.zipWith (· ++ ·) rows (e.metric.block xs tile.2)

variable {n : ℕ} {xs rows : List (List α)} {leads : List (Lead α)}

theorem InStep.tile (e : Kernel) (h : InStep xs.length n rows leads)
    {t : Batch × List (List α)} (hoffset : t.1.offset = n) (hsize : t.2.length = t.1.size) :
    InStep xs.length (n + t.1.size) (e.appendTile xs rows t) (e.scanTile xs leads t) where
  length := by rw [appendTile, List.length_zipWith, h.length, Metric.length_block, Nat.min_self]
  lengths r hr := by
    rw [appendTile, ← List.map_uncurry_zip_eq_zipWith] at hr
    obtain ⟨⟨row, vs⟩, hp, rfl⟩ := List.mem_map.mp hr
    obtain ⟨hrow, hblock⟩ := List.of_mem_zip hp
    rw [Function.uncurry_apply_pair, List.length_append, h.lengths _ hrow,
      e.metric.length_of_mem_block hblock, hsize]
  leads := by
    rw [scanTile, h.leads, List.zipWith_map_left, appendTile, List.map_zipWith,
      ← List.map_uncurry_zip_eq_zipWith, ← List.map_uncurry_zip_eq_zipWith]
    refine List.map_congr_left fun p hp => ?_
    obtain ⟨row, vs⟩ := p
    -- the tile starts where the row ends, so the labels run on
    rw [Function.uncurry_apply_pair, Function.uncurry_apply_pair, Lead.scan_append,
      h.lengths _ (List.of_mem_zip hp).1, hoffset, Nat.zero_add]

theorem InStep.tiles (e : Kernel) : ∀ {ts : List (Batch × List (List α))} {n : ℕ}
    {rows : List (List α)} {leads : List (Lead α)}, InStep xs.length n rows leads →
      Batch.Consecutive n (ts.map (·.1)) → (∀ t ∈ ts, t.2.length = t.1.size) →
        InStep xs.length (n + Batch.rowCount (ts.map (·.1))) (ts.foldl (e.appendTile xs) rows)
          (ts.foldl (e.scanTile xs) leads)
  | [], _, _, _, h, _, _ => h
  | t :: ts, n, _, _, h, hcons, hsizes => by
    obtain ⟨hoffset, hrest⟩ := hcons
    have hnext := (h.tile e hoffset (hsizes t List.mem_cons_self)).tiles e hrest
      fun s hs => hsizes s (List.mem_cons_of_mem _ hs)
    rwa [Nat.add_assoc] at hnext

/-- What the two metrics have together when all tiles are through: one entry for each centroid. -/
theorem inStep_batch (e : Kernel) (xs cs : List (List α)) :
    InStep xs.length cs.length ((e.tiled cs).foldl (e.appendTile xs) (xs.map fun _ => []))
      ((e.tiled cs).foldl (e.scanTile xs) (xs.map fun _ => Lead.start)) := by
  have hstart : InStep xs.length 0 (xs.map fun _ => ([] : List α))
      (xs.map fun _ => Lead.start) :=
    ⟨List.length_map _, by simp, by rw [List.map_map]; rfl⟩
  have hcons : Batch.Consecutive 0 ((e.tiled cs).map (·.1)) := by
    rw [map_fst_tiled]
    exact Batch.consecutive_cover _ _
  have hend := hstart.tiles e hcons fun t ht => e.length_of_mem_tiled ht
  rwa [map_fst_tiled, rowCount_tiles, Nat.zero_add] at hend

/-! ### Norms added to complete rows -/

theorem length_of_mem_appendProducts {xs rows cs : List (List α)} {t : Batch × List (List α)}
    (h : ∀ r ∈ rows, r.length = cs.length) :
    ∀ r ∈ appendProducts xs rows t, r.length = (cs ++ t.2).length := by
  intro r hr
  rw [appendProducts, ← List.map_uncurry_zip_eq_zipWith] at hr
  obtain ⟨⟨row, products⟩, hp, rfl⟩ := List.mem_map.mp hr
  obtain ⟨hrow, hproducts⟩ := List.of_mem_zip hp
  rw [Function.uncurry_apply_pair, List.length_append, h _ hrow,
    BlockProduct.length_of_mem_block _ _ _ _ hproducts, List.length_append]

/-- The tiles of distances, put together, are what the norms make of the products put together. -/
theorem foldl_appendTile_expanded {e : Kernel} (he : e.metric = .expanded) (xs : List (List α)) :
    ∀ (ts : List (Batch × List (List α))) (cs rows : List (List α)),
      (∀ r ∈ rows, r.length = cs.length) →
        ts.foldl (e.appendTile xs) (Metric.addNorms xs cs rows) =
          Metric.addNorms xs (cs ++ (ts.map (·.2)).flatten) (ts.foldl (appendProducts xs) rows)
  | [], cs, rows, _ => by simp
  | t :: ts, cs, rows, h => by
    have htile : e.appendTile xs (Metric.addNorms xs cs rows) t =
        Metric.addNorms xs (cs ++ t.2) (appendProducts xs rows t) := by
      rw [appendProducts, Metric.addNorms_append cs t.2 xs rows _ h, appendTile, Metric.block,
        if_pos he, Metric.expandedBlock]
    rw [List.foldl_cons, htile, foldl_appendTile_expanded he xs ts _ _
      (length_of_mem_appendProducts h), List.map_cons, List.flatten_cons, List.append_assoc,
      List.foldl_cons]

theorem foldl_appendTile_direct {e : Kernel} (he : e.metric ≠ .expanded) (xs : List (List α)) :
    ∀ (ts : List (Batch × List (List α))) (cs : List (List α)),
      ts.foldl (e.appendTile xs) (Metric.directBlock xs cs) =
        Metric.directBlock xs (cs ++ (ts.map (·.2)).flatten)
  | [], cs => by simp
  | t :: ts, cs => by
    have htile : e.appendTile xs (Metric.directBlock xs cs) t =
        Metric.directBlock xs (cs ++ t.2) := by
      rw [Metric.directBlock_append, appendTile, Metric.block, if_neg he]
    rw [List.foldl_cons, htile, foldl_appendTile_direct he xs ts, List.map_cons,
      List.flatten_cons, List.append_assoc]

/-- The distances of a batch are those of its tiles, put together. -/
theorem distancesIn_eq_tiles (e : Kernel) (xs cs : List (List α)) :
    e.distancesIn xs cs = (e.tiled cs).foldl (e.appendTile xs) (xs.map fun _ => []) := by
  unfold distancesIn
  split_ifs with he
  · have hstart : Metric.addNorms xs [] (xs.map fun _ => []) = xs.map fun _ => [] := by
      show List.zipWith _ xs (xs.map fun _ => []) = _
      rw [List.zipWith_map_right, List.zipWith_self]
      rfl
    have hend := foldl_appendTile_expanded he xs (e.tiled cs) [] (xs.map fun _ => []) (by simp)
    rw [hstart, List.nil_append, flatten_tiled] at hend
    exact hend.symm
  · have hend := foldl_appendTile_direct he xs (e.tiled cs) []
    rw [List.nil_append, flatten_tiled] at hend
    exact hend.symm

/-! ### The distance table -/

/-- The squared distances from every row to every centroid. -/
def distances (e : Kernel) (x c : Matrix α) : List (List α) :=
  (Batch.deal (e.batches x.rows) x.rowList).flatMap (e.distancesIn · c.rowList)

theorem length_of_mem_distances (e : Kernel) {x c : Matrix α} {row : List α}
    (h : row ∈ e.distances x c) : row.length = c.rows := by
  obtain ⟨xs, -, hrow⟩ := List.mem_flatMap.mp h
  rw [distancesIn_eq_tiles] at hrow
  rw [(e.inStep_batch xs c.rowList).lengths row hrow, Matrix.length_rowList]

/-- Nearest centroids are scans over the rows of the distance table. -/
theorem answers_eq_distances (e : Kernel) (x c : Matrix α) :
    e.answers x c = (e.distances x c).map fun row => (Lead.start.scan 0 row).nearest := by
  have hbatch : ∀ xs, e.nearestIn xs c.rowList =
      (e.distancesIn xs c.rowList).map fun row => (Lead.start.scan 0 row).nearest := by
    intro xs
    rw [nearestIn, (e.inStep_batch xs c.rowList).leads, List.map_map, distancesIn_eq_tiles]
    rfl
  rw [answers_eq_flatten, ← List.flatMap_def, distances, List.map_flatMap]
  simp only [hbatch]

@[simp] theorem length_distances (e : Kernel) (x c : Matrix α) :
    (e.distances x c).length = x.rows := by
  rw [← e.length_answers x c, answers_eq_distances, List.length_map]

variable [Memory]

theorem pairwise_eq (e : Kernel) (x c : Matrix α) (euclidean : Bool) :
    e.pairwise x c euclidean = (e.pairwiseAdmission x c).map fun _ =>
      if euclidean then (e.distances x c).map (·.map Scalar.sqrt) else e.distances x c := by
  unfold pairwise pairwiseAdmission
  cases checkShapes "pairwise" x c with
  | error f => rfl
  | ok u =>
    by_cases hx : x.rows = 0
    · have hnil : e.distances x c = [] :=
        List.eq_nil_of_length_eq_zero (by rw [length_distances, hx])
      simp [hx, hnil, bind, Except.bind, pure, Except.pure, Except.map]
    · simp only [hx, bind, Except.bind, pure, Except.pure, if_false]
      cases e.normBuffers α x.rows c.rows with
      | error f => rfl
      | ok u => rfl

/-- Nearest centroids and pairwise distances agree: where the distances of a row are numbers, its
nearest centroid is the first one at the least distance, and the distance is that entry of the
row. -/
theorem nearest_pairwise [Scalar.Ordered α] (e : Kernel) (x c : Matrix α)
    (h : e.admission x c = .ok ()) :
    ∃ ns out, e.nearest x c = .ok ns ∧ e.pairwise x c false = .ok out ∧
      ns.length = x.rows ∧ out.length = x.rows ∧
      ∀ (i : ℕ) (row : List α), out[i]? = some row → row.length = c.rows ∧
        ((∀ v ∈ row, Scalar.IsNumber v) →
          ∃ n, ns[i]? = some n ∧ FirstLeast row n.label n.dist) := by
  refine ⟨e.answers x c, e.distances x c, ?_, ?_, e.length_answers x c, e.length_distances x c,
    ?_⟩
  · rw [nearest_eq, h]
    rfl
  · rw [pairwise_eq, pairwiseAdmission_of_admission e h]
    rfl
  · intro i row hrow
    have hlength : row.length = c.rows := e.length_of_mem_distances (List.mem_of_getElem? hrow)
    refine ⟨hlength, fun hnum => ⟨(Lead.start.scan 0 row).nearest, ?_, ?_⟩⟩
    · rw [answers_eq_distances, List.getElem?_map, hrow]
      rfl
    · refine Lead.scan_firstLeast ?_ hnum
      have hcentroids := rows_pos_of_admission h
      rintro rfl
      exact absurd hlength (by simpa using Nat.ne_of_lt hcentroids)

end Kernel

/-! ### Overflowing distances -/

namespace Kernel

/-- The direct metric, with two rows in a batch and two centroids in a tile. -/
def pairs : Kernel := ⟨.unexpanded, 2, 2, Nat.two_pos⟩

/-- Three centroids, in two tiles. -/
def farCentroids : Matrix Float := ⟨3, 1, [1, -1, 1e200]⟩

/-- Three points.  The squared distances of the last one all overflow. -/
def farPoints : Matrix Float := ⟨3, 1, [0, 1e200, -1e200]⟩

/-- The first centroid is the nearest one of a point at infinite distance from all of them. -/
theorem nearest_pairwise_overflow :
    pairs.admission farPoints farCentroids = .ok () ∧
      (∀ v ∈ List.replicate 3 (Scalar.infinity : Float), Scalar.IsNumber v) ∧
      ∃ ns out, pairs.nearest farPoints farCentroids = .ok ns ∧
        pairs.pairwise farPoints farCentroids false = .ok out ∧
          out[2]? = some (List.replicate 3 Scalar.infinity) ∧
            ∃ n, ns[2]? = some n ∧
              FirstLeast (List.replicate 3 Scalar.infinity) n.label n.dist := by
  have hadm : pairs.admission farPoints farCentroids = .ok () := by decide +kernel
  have hnum : ∀ v ∈ List.replicate 3 (Scalar.infinity : Float), Scalar.IsNumber v :=
    fun v hv => Or.inr (List.eq_of_mem_replicate hv)
  have htable : pairs.pairwise farPoints farCentroids false =
      .ok [[1, 1, Scalar.infinity], [Scalar.infinity, Scalar.infinity, 0],
        List.replicate 3 Scalar.infinity] := by
    decide +kernel
  obtain ⟨ns, out, hns, hout, -, -, hrows⟩ := nearest_pairwise pairs farPoints farCentroids hadm
  obtain rfl := Except.ok.inj (hout.symm.trans htable)
  exact ⟨hadm, hnum, ns, _, hns, hout, rfl, (hrows 2 _ rfl).2 hnum⟩

end Kernel

end Clustering
