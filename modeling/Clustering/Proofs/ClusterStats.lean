import Clustering.Proofs.Purity
import Clustering.Proofs.Recount

/-!
# Statistics of the clusters

One pass over the rows updates the record of the cluster that each label names.  Seen from one
cluster, its record collects the distances of the rows that carry its label, in row order
(`ClusterStats.ofLabels_eq`), and a record that has collected distances holds their number, their
sum and, unless one is beyond the value it starts from, their extremes
(`ClusterStats.collects_foldl`).  The sizes of the clusters count the same rows (`clusterSizes_eq`).

`ClusterStats.ofLabels_describes`: in real numbers the statistics describe the Euclidean distances
of exactly the rows of each cluster.
-/

namespace Clustering

/-! ### Sizes -/

section Sizes

theorem countLabel_map_range (k : ℕ) (f : ℕ → ℕ) (label : ℤ) :
    countLabel ((List.range k).map f) label =
      (List.range k).map fun l : ℕ => f l + if label = (l : ℤ) then 1 else 0 := by
  unfold countLabel
  rw [List.length_map, List.length_range]
  split
  · rename_i c hc
    obtain ⟨rfl, -⟩ := clusterOf?_eq_some.mp hc
    rw [modify_map_range]
    refine List.map_congr_left fun l _ => ?_
    simp only [Nat.cast_inj, eq_comm (a := c)]
    split_ifs <;> rfl
  · rename_i hnone
    refine List.map_congr_left fun l hl => ?_
    rw [if_neg, Nat.add_zero]
    rintro rfl
    rw [clusterOf?_eq_some.mpr ⟨rfl, List.mem_range.mp hl⟩] at hnone
    cases hnone

/-- The size of a cluster counts the labels that name it. -/
theorem clusterSizes_eq (labels : List ℤ) (k : ℕ) :
    clusterSizes labels k = (List.range k).map fun l : ℕ => labels.count (l : ℤ) := by
  have hfold : ∀ (ls : List ℤ) (f : ℕ → ℕ),
      ls.foldl countLabel ((List.range k).map f) =
        (List.range k).map fun l : ℕ => f l + ls.count (l : ℤ) := by
    intro ls
    induction ls with
    | nil => exact fun f => rfl
    | cons label ls ih =>
      intro f
      rw [List.foldl_cons, countLabel_map_range, ih]
      refine List.map_congr_left fun l _ => ?_
      rw [List.count_cons, Nat.add_assoc, Nat.add_comm _ (ls.count _)]
      simp only [beq_iff_eq]
  have hzero : List.replicate k 0 = (List.range k).map fun _ => 0 := by
    rw [List.map_const', List.length_range]
  rw [clusterSizes, hzero, hfold]
  exact List.map_congr_left fun l _ => Nat.zero_add _

/-- Together the sizes count the labels that are in range. -/
theorem sum_clusterSizes (labels : List ℤ) (k : ℕ) :
    (clusterSizes labels k).sum = labels.countP fun label : ℤ => 0 ≤ label ∧ label < k := by
  rw [clusterSizes_eq]
  induction labels with
  | nil => simp
  | cons label labels ih =>
    have hone : ((List.range k).map fun l : ℕ => if label = (l : ℤ) then 1 else 0).sum =
        if 0 ≤ label ∧ label < k then 1 else 0 := by
      show ∑ l ∈ Finset.range k, (if label = (l : ℤ) then 1 else 0) = _
      split_ifs with hrange
      · obtain ⟨c, rfl⟩ := Int.eq_ofNat_of_zero_le hrange.1
        simp only [Nat.cast_inj]
        rw [Finset.sum_ite_eq, if_pos (Finset.mem_range.mpr (by omega))]
      · refine Finset.sum_eq_zero fun l hl => if_neg fun heq => hrange ?_
        have := Finset.mem_range.mp hl
        omega
    simp only [List.count_cons, List.countP_cons, List.sum_map_add, ih, beq_iff_eq, hone,
      decide_eq_true_eq]

end Sizes

/-! ### One cluster of the pass -/

namespace ClusterStats

section Pass

variable {α ω : Type} [Scalar α] [Scalar ω] [Widening α ω]

/-- The distances to a centroid of the rows that carry its label, in row order. -/
def memberDists (x : Matrix α) (labels : List ℤ) (c : Matrix α) (l : ℕ) : List ω :=
  ((x.rowList.zip labels).filter fun p => p.2 = (l : ℤ)).map fun p =>
    Scalar.sqrt (widen (centroidDist c p.1 l))

theorem addRow_map_range (c : Matrix α) (f : ℕ → ClusterStats ω) (row : List α × ℤ) :
    addRow c ((List.range c.rows).map f) row =
      (List.range c.rows).map fun l : ℕ =>
        if row.2 = (l : ℤ) then (f l).add (Scalar.sqrt (widen (centroidDist c row.1 l)))
        else f l := by
  unfold addRow
  split
  · rename_i m hm
    obtain ⟨hlabel, -⟩ := clusterOf?_eq_some.mp hm
    rw [modify_map_range]
    refine List.map_congr_left fun l _ => ?_
    by_cases hl : l = m
    · subst hl
      rw [if_pos rfl, if_pos hlabel]
    · rw [if_neg hl, if_neg fun heq => hl (Int.ofNat.inj (heq.symm.trans hlabel))]
  · rename_i hnone
    refine List.map_congr_left fun l hl => ?_
    rw [if_neg fun heq => ?_]
    rw [clusterOf?_eq_some.mpr ⟨heq, List.mem_range.mp hl⟩] at hnone
    cases hnone

/-- The record of a cluster collects the distances of its members. -/
theorem ofLabels_eq (x : Matrix α) (labels : List ℤ) (c : Matrix α) :
    (ofLabels x labels c : List (ClusterStats ω)) =
      (List.range c.rows).map fun l => ((memberDists x labels c l).foldl add start).finish := by
  have hfold : ∀ (ps : List (List α × ℤ)) (f : ℕ → ClusterStats ω),
      ps.foldl (addRow c) ((List.range c.rows).map f) =
        (List.range c.rows).map fun l : ℕ =>
          ((ps.filter fun p => p.2 = (l : ℤ)).map fun p =>
            Scalar.sqrt (widen (centroidDist c p.1 l))).foldl add (f l) := by
    intro ps
    induction ps with
    | nil => exact fun f => rfl
    | cons p ps ih =>
      intro f
      rw [List.foldl_cons, addRow_map_range, ih]
      refine List.map_congr_left fun l _ => ?_
      by_cases hl : p.2 = (l : ℤ)
      · simp [hl]
      · simp [hl]
  have hstart : List.replicate c.rows (start : ClusterStats ω) =
      (List.range c.rows).map fun _ => start := by
    rw [List.map_const', List.length_range]
  rw [ofLabels, hstart, hfold, List.map_map]
  rfl

theorem count_foldl_add (ds : List ω) (s : ClusterStats ω) :
    (ds.foldl add s).count = s.count + ds.length := by
  induction ds generalizing s with
  | nil => rfl
  | cons d ds ih =>
    rw [List.foldl_cons, ih, List.length_cons]
    show s.count + 1 + ds.length = _
    omega

theorem count_finish (s : ClusterStats ω) : s.finish.count = s.count := by
  unfold finish
  split_ifs <;> rfl

/-- The statistics count the rows that the sizes of the clusters count. -/
theorem map_count_ofLabels {x : Matrix α} {labels : List ℤ} (hlabels : labels.length = x.rows)
    (c : Matrix α) :
    (ofLabels x labels c : List (ClusterStats ω)).map (·.count) = clusterSizes labels c.rows := by
  have hzip : labels.length ≤ x.rowList.length := by rw [x.length_rowList, hlabels]
  rw [ofLabels_eq, clusterSizes_eq, List.map_map]
  refine List.map_congr_left fun l _ => ?_
  show (finish _).count = _
  rw [count_finish, count_foldl_add, memberDists, List.length_map, ← List.countP_eq_length_filter]
  conv_rhs => rw [← List.map_snd_zip hzip, List.count, List.countP_map]
  exact Nat.zero_add _

/-- The rows that carry the label of a cluster. -/
def rowsLabelled (labels : List ℤ) (l : ℕ) : Finset ℕ :=
  {i ∈ Finset.range labels.length | labels[i]? = some (l : ℤ)}

theorem memberDists_eq {x : Matrix α} {labels : List ℤ} (hlabels : labels.length = x.rows)
    (c : Matrix α) (l : ℕ) :
    (memberDists x labels c l : List ω) =
      ((List.range labels.length).filter fun i => labels[i]? = some (l : ℤ)).map fun i =>
        Scalar.sqrt (widen (centroidDist c (x.row i) l)) := by
  have hzip : x.rowList.zip labels =
      (List.range labels.length).map fun i => (x.row i, labels.getD i 0) := by
    rw [← List.zip_map', ← eq_map_range_getD rfl, x.rowList_eq_map, hlabels]
  rw [memberDists, hzip, List.filter_map, List.map_map]
  refine congrArg (List.map _) (List.filter_congr fun i hi => ?_)
  rw [List.mem_range] at hi
  simp [hi]

end Pass

/-! ### Collected distances -/

section Collect

variable {K : Type} [ExactScalar K]

/-- What a record holds of the distances that it has collected.  Its extremes are among them,
unless they are still the values that the record started from. -/
structure Collects (ds : List K) (s : ClusterStats K) : Prop where
  count : s.count = ds.length
  sum : s.meanDist = ds.sum
  min_le : ∀ d ∈ ds, s.minDist ≤ d
  min_mem : s.minDist = Scalar.largest ∨ s.minDist ∈ ds
  le_max : ∀ d ∈ ds, d ≤ s.maxDist
  max_mem : s.maxDist = 0 ∨ s.maxDist ∈ ds
  ratio : s.radiusRatio = 0

theorem collects_start : Collects ([] : List K) start :=
  ⟨rfl, rfl, nofun, Or.inl rfl, nofun, Or.inl rfl, rfl⟩

theorem Collects.add {ds : List K} {s : ClusterStats K} (h : Collects ds s) (d : K) :
    Collects (ds ++ [d]) (s.add d) where
  count := by rw [List.length_append, ← h.count]; rfl
  sum := by
    rw [List.sum_append, List.sum_singleton, ← h.sum]
    rfl
  min_le := by
    show ∀ u ∈ ds ++ [d], (if d < s.minDist then d else s.minDist) ≤ u
    refine List.forall_mem_append.mpr ⟨fun u hu => ?_, ?_⟩
    · split_ifs with hlt
      · exact hlt.le.trans (h.min_le u hu)
      · exact h.min_le u hu
    · rw [List.forall_mem_singleton]
      split_ifs with hlt
      · exact le_rfl
      · exact not_lt.mp hlt
  min_mem := by
    show (if d < s.minDist then d else s.minDist) = _ ∨ (if d < s.minDist then d else s.minDist) ∈ _
    split_ifs
    · exact Or.inr (List.mem_append_right _ List.mem_cons_self)
    · exact h.min_mem.imp_right (List.mem_append_left _)
  le_max := by
    show ∀ u ∈ ds ++ [d], u ≤ if s.maxDist < d then d else s.maxDist
    refine List.forall_mem_append.mpr ⟨fun u hu => ?_, ?_⟩
    · split_ifs with hlt
      · exact (h.le_max u hu).trans hlt.le
      · exact h.le_max u hu
    · rw [List.forall_mem_singleton]
      split_ifs with hlt
      · exact le_rfl
      · exact not_lt.mp hlt
  max_mem := by
    show (if s.maxDist < d then d else s.maxDist) = _ ∨ (if s.maxDist < d then d else s.maxDist) ∈ _
    split_ifs
    · exact Or.inr (List.mem_append_right _ List.mem_cons_self)
    · exact h.max_mem.imp_right (List.mem_append_left _)
  ratio := h.ratio

theorem collects_foldl (ds : List K) : Collects ds (ds.foldl add start) := by
  induction ds using List.reverseRecOn with
  | nil => exact collects_start
  | append_singleton ds d ih =>
    rw [List.foldl_append]
    exact ih.add d

/-- Of distances up to the value that a record starts from, it holds the least one. -/
theorem Collects.isLeast {ds : List K} {s : ClusterStats K} (h : Collects ds s) (hne : ds ≠ [])
    (hreach : ∀ d ∈ ds, d ≤ Scalar.largest) : IsLeast {d | d ∈ ds} s.minDist := by
  refine ⟨?_, h.min_le⟩
  rcases h.min_mem with hstart | hmem
  · obtain ⟨d, hd⟩ := List.exists_mem_of_ne_nil ds hne
    have heq : s.minDist = d := le_antisymm (h.min_le d hd) (hstart ▸ hreach d hd)
    exact heq ▸ hd
  · exact hmem

theorem Collects.isGreatest {ds : List K} {s : ClusterStats K} (h : Collects ds s) (hne : ds ≠ [])
    (hnonneg : ∀ d ∈ ds, 0 ≤ d) : IsGreatest {d | d ∈ ds} s.maxDist := by
  refine ⟨?_, h.le_max⟩
  rcases h.max_mem with hstart | hmem
  · obtain ⟨d, hd⟩ := List.exists_mem_of_ne_nil ds hne
    have heq : s.maxDist = d := le_antisymm (hstart ▸ hnonneg d hd) (h.le_max d hd)
    exact heq ▸ hd
  · exact hmem

/-- The statistics of a cluster describe the distances of its rows. -/
structure Describes (s : ClusterStats K) (rows : Finset ℕ) (dist : ℕ → K) : Prop where
  count : s.count = rows.card
  least : rows.Nonempty → IsLeast (dist '' rows) s.minDist
  greatest : rows.Nonempty → IsGreatest (dist '' rows) s.maxDist
  mean : rows.Nonempty → s.meanDist = (∑ i ∈ rows, dist i) / (rows.card : K)
  ordered : 0 ≤ s.minDist ∧ s.minDist ≤ s.meanDist ∧ s.meanDist ≤ s.maxDist
  /-- The ratio is at least one, unless all rows lie at the centroid. -/
  ratio : (∃ i ∈ rows, dist i ≠ 0) → s.radiusRatio = s.maxDist / s.meanDist ∧ 1 ≤ s.radiusRatio
  ratio_of_zero : (∀ i ∈ rows, dist i = 0) → s.radiusRatio = 0
  empty : rows = ∅ → s = ⟨0, 0, 0, 0, 0⟩

theorem finish_of_pos {s : ClusterStats K} (h : 0 < s.count) :
    s.finish = { s with
      meanDist := s.meanDist / (s.count : K)
      radiusRatio := if 0 < s.meanDist / (s.count : K) then s.maxDist / (s.meanDist / (s.count : K))
        else 0 } :=
  if_pos h

/-- A record of the distances of some rows, each once, is finished to their statistics. -/
theorem describes_finish {rows : List ℕ} (hnodup : rows.Nodup) {dist : ℕ → K} {s : ClusterStats K}
    (h : Collects (rows.map dist) s) (hnonneg : ∀ i ∈ rows, 0 ≤ dist i)
    (hreach : ∀ i ∈ rows, dist i ≤ Scalar.largest) : s.finish.Describes rows.toFinset dist := by
  have hcard : s.count = rows.toFinset.card := by
    rw [h.count, List.length_map, List.toFinset_card_of_nodup hnodup]
  have hsum : s.meanDist = ∑ i ∈ rows.toFinset, dist i := by
    rw [h.sum, List.sum_toFinset dist hnodup]
  rcases eq_or_ne rows [] with rfl | hne
  · have hfinish : s.finish = ⟨0, 0, 0, 0, 0⟩ := by
      have hmax : s.maxDist = 0 := h.max_mem.resolve_right (List.not_mem_nil)
      have hzero : s.finish = { s with minDist := 0 } := if_neg (by simp [hcard])
      rw [hzero, hmax, h.ratio, hcard, hsum]
      rfl
    rw [hfinish]
    exact ⟨rfl, by simp, by simp, by simp, ⟨le_rfl, le_rfl, le_rfl⟩, by simp, fun _ => rfl,
      fun _ => rfl⟩
  · have hpos : 0 < s.count := by
      rw [h.count, List.length_map]
      exact List.length_pos_iff.mpr hne
    have hpos' : (0 : K) < (s.count : K) := Nat.cast_pos.mpr hpos
    -- the record collects a list, and is to describe a set of rows
    have hset : dist '' (rows.toFinset : Set ℕ) = {d | d ∈ rows.map dist} := by
      ext d
      simp
    have hne' : rows.map dist ≠ [] := fun hnil => hne (List.map_eq_nil_iff.mp hnil)
    have hleast := h.isLeast hne' (by simpa using hreach)
    have hgreatest := h.isGreatest hne' (by simpa using hnonneg)
    have hmin : s.minDist ≤ s.meanDist / (s.count : K) := by
      rw [le_div_iff₀ hpos', mul_comm, ← nsmul_eq_mul, hcard, hsum]
      exact Finset.card_nsmul_le_sum _ _ _ fun i hi =>
        hleast.2 (List.mem_map_of_mem (List.mem_toFinset.mp hi))
    have hmax : s.meanDist / (s.count : K) ≤ s.maxDist := by
      rw [div_le_iff₀ hpos', mul_comm, ← nsmul_eq_mul, hcard, hsum]
      exact Finset.sum_le_card_nsmul _ _ _ fun i hi =>
        hgreatest.2 (List.mem_map_of_mem (List.mem_toFinset.mp hi))
    have hmin_nonneg : 0 ≤ s.minDist := by
      obtain ⟨i, hi, heq⟩ := List.mem_map.mp hleast.1
      exact heq ▸ hnonneg i hi
    rw [finish_of_pos hpos]
    refine ⟨hcard, fun _ => hset ▸ hleast, fun _ => hset ▸ hgreatest,
      fun _ => by rw [← hcard, ← hsum], ⟨hmin_nonneg, hmin, hmax⟩, fun ⟨i, hi, hi0⟩ => ?_,
      fun hzero => ?_, fun hempty => ?_⟩
    · -- a distance that is not zero makes the mean positive, so that the ratio is formed
      have hmean : 0 < s.meanDist / (s.count : K) := by
        refine div_pos ?_ hpos'
        rw [hsum]
        exact Finset.sum_pos' (fun j hj => hnonneg j (List.mem_toFinset.mp hj))
          ⟨i, hi, (hnonneg i (List.mem_toFinset.mp hi)).lt_of_ne' hi0⟩
      dsimp only
      rw [if_pos hmean]
      exact ⟨rfl, (one_le_div hmean).mpr hmax⟩
    · refine if_neg ?_
      rw [hsum, Finset.sum_eq_zero hzero, zero_div]
      exact lt_irrefl 0
    · rw [hempty, Finset.card_empty] at hcard
      omega

end Collect

end ClusterStats

/-! ### Labels of a prediction -/

namespace Model

variable {E : Precision → Type} {ω : Type}

theorem stored_of_centroids {m : Model E ω} {p : Precision} {c : Matrix (E p)}
    (h : m.centroids p = .ok c) : m.stored p = c := by
  unfold centroids centroidsFor at h
  unfold stored
  cases hfitted : m.fitted with
  | none => rw [hfitted] at h; cases h
  | some f =>
    rw [hfitted] at h
    dsimp only at h ⊢
    split_ifs at h with hp
    rw [dif_pos hp]
    exact Except.ok.inj h

variable [∀ p, Scalar (E p)] [Scalar ω] [∀ p, Widening (E p) ω] [∀ p, BlockProduct (E p)] [Memory]

/-- The statistics of a model count every row of the data. -/
theorem sum_count_clusterStats {m : Model E ω} {p : Precision} {x : Dataset (E p)}
    {stats : List (ClusterStats ω)} (h : m.clusterStats p x = .ok stats) :
    (stats.map (·.count)).sum = x.table.rows := by
  obtain ⟨a, ha, h⟩ := Kernel.exists_of_bind_ok h
  obtain ⟨_, -, h⟩ := Kernel.exists_of_bind_ok h
  cases h
  obtain ⟨e, c, -, hc, hassign⟩ := assign_of_predict ha
  obtain ⟨hrows, hlabels⟩ := Kernel.labels_of_assign hassign
  have hlength : (a.labels.map fun l : ℕ => (l : ℤ)).length = x.table.rows := by
    rw [List.length_map, hlabels, List.length_map, Kernel.length_answers]
  have hrange : ∀ label ∈ a.labels.map fun l : ℕ => (l : ℤ), 0 ≤ label ∧ label < c.rows := by
    intro label hlabel
    obtain ⟨l, hl, rfl⟩ := List.mem_map.mp hlabel
    rw [hlabels] at hl
    obtain ⟨n, hn, rfl⟩ := List.mem_map.mp hl
    have hlt := e.label_lt_of_mem_answers hrows hn
    omega
  rw [stored_of_centroids hc, ClusterStats.map_count_ofLabels hlength, sum_clusterSizes,
    List.countP_eq_length.mpr (by simpa using hrange), hlength]

end Model

/-! ### Euclidean distances -/

/-- A vector as a point of Euclidean space. -/
def euclidean (dim : ℕ) (v : List ℝ) : EuclideanSpace ℝ (Fin dim) :=
  WithLp.toLp _ fun j => v.getD j 0

/-- The Euclidean distance of row `i` to centroid `l`. -/
noncomputable def Matrix.distanceTo (x c : Matrix ℝ) (l i : ℕ) : ℝ :=
  dist (euclidean x.cols (x.row i)) (euclidean x.cols (c.row l))

theorem sqrt_sqDist {dim : ℕ} {a b : List ℝ} (ha : a.length = dim) (hb : b.length = dim) :
    Scalar.sqrt (sqDist a b) = dist (euclidean dim a) (euclidean dim b) := by
  rw [sqDist_eq_sum ha hb, EuclideanSpace.dist_eq]
  refine congrArg Real.sqrt ?_
  rw [← Fin.sum_univ_eq_sum_range (fun i => (a.getD i 0 - b.getD i 0) * (a.getD i 0 - b.getD i 0))]
  refine Finset.sum_congr rfl fun j _ => ?_
  rw [Real.dist_eq, sq_abs, sq]
  rfl

namespace ClusterStats

/-- The statistics of the clusters, in real numbers.  They count the rows that the sizes of the
clusters count, and so all rows whose label is in range; of the labels of a prediction all are.
Each record describes the distances of exactly the rows of its cluster, as long as none is beyond
the largest finite number. -/
theorem ofLabels_describes [Memory] {x c : Matrix ℝ} {labels : List ℤ} (h : x.Fits c)
    (hlabels : labels.length = x.rows)
    (hreach : ∀ l < c.rows, ∀ i ∈ rowsLabelled labels l, x.distanceTo c l i ≤ Scalar.largest) :
    (∃ stats : List (ClusterStats ℝ),
      ofLabels? x labels c = (Memory.storage storedBytes c.rows).map (fun _ => stats) ∧
      stats.map (·.count) = clusterSizes labels c.rows ∧
      (stats.map (·.count)).sum = labels.countP (fun label : ℤ => 0 ≤ label ∧ label < c.rows) ∧
      ∀ l < c.rows, ∃ s, stats[l]? = some s ∧
        s.Describes (rowsLabelled labels l) (x.distanceTo c l)) ∧
    ∀ {E : Precision → Type} {ω : Type} [∀ p, Scalar (E p)] [Scalar ω] [∀ p, Widening (E p) ω]
      [∀ p, BlockProduct (E p)] (m : Model E ω) (p : Precision) (x : Dataset (E p))
      (stats : List (ClusterStats ω)), m.clusterStats p x = .ok stats →
        (stats.map (·.count)).sum = x.table.rows := by
  have hcounts := map_count_ofLabels (ω := ℝ) hlabels c
  refine ⟨⟨ofLabels x labels c, ?_, hcounts, ?_, fun l hl => ?_⟩,
    fun m p x stats => Model.sum_count_clusterStats⟩
  · unfold ofLabels?
    cases Memory.storage storedBytes c.rows <;> rfl
  · rw [hcounts, sum_clusterSizes]
  · let rows := (List.range labels.length).filter fun i => labels[i]? = some (l : ℤ)
    have hset : rows.toFinset = rowsLabelled labels l := by
      rw [List.toFinset_filter, List.toFinset_range]
      simp only [decide_eq_true_eq]
      rfl
    have hnodup : rows.Nodup := List.Nodup.filter _ List.nodup_range
    -- each row of the cluster is measured once, and to its own centroid
    have hdists : memberDists x labels c l = rows.map (x.distanceTo c l) := by
      rw [memberDists_eq hlabels]
      refine List.map_congr_left fun i hi => ?_
      have hi' : i < x.rows := hlabels ▸ List.mem_range.mp (List.mem_of_mem_filter hi)
      have hrow := Matrix.length_row h.full hi'
      rw [centroidDist_eq (hrow.trans h.cols.symm).le]
      exact sqrt_sqDist hrow ((Matrix.length_row h.full_centroids hl).trans h.cols)
    refine ⟨((memberDists x labels c l).foldl add start).finish, ?_, ?_⟩
    · rw [ofLabels_eq, List.getElem?_map, List.getElem?_range hl, Option.map_some]
    · rw [hdists, ← hset]
      refine describes_finish hnodup (collects_foldl _) (fun i _ => dist_nonneg) fun i hi => ?_
      exact hreach l hl i (hset ▸ List.mem_toFinset.mpr hi)

/-! ### Five points in the plane -/

/-- Three points on a line through the origin, and two on the diagonal. -/
noncomputable def planePoints : Matrix ℝ :=
  ⟨5, 2, [0, 0, 3, 4, 6, 8, 1, 1, 9, 9].map fun v : ℕ => (v : ℝ)⟩

/-- The origin, and two points of the diagonal. -/
noncomputable def planeCentroids : Matrix ℝ := ⟨3, 2, [0, 0, 1, 1, 7, 7].map fun v : ℕ => (v : ℝ)⟩

/-- The line belongs to the origin; the last point belongs to no cluster. -/
def planeLabels : List ℤ := [0, 0, 0, 1, -1]

theorem planePoints_fits : planePoints.Fits planeCentroids := ⟨rfl, rfl, rfl⟩

theorem rowsLabelled_plane :
    rowsLabelled planeLabels 0 = {0, 1, 2} ∧ rowsLabelled planeLabels 1 = {3} ∧
      rowsLabelled planeLabels 2 = ∅ := by
  decide

theorem distanceTo_plane :
    planePoints.distanceTo planeCentroids 0 0 = 0 ∧
      planePoints.distanceTo planeCentroids 0 1 = 5 ∧
      planePoints.distanceTo planeCentroids 0 2 = 10 ∧
      planePoints.distanceTo planeCentroids 1 3 = 0 := by
  have hdist : ∀ l < 3, ∀ i < 5, planePoints.distanceTo planeCentroids l i =
      Scalar.sqrt (sqDist (planePoints.row i) (planeCentroids.row l)) := fun l hl i hi =>
    (sqrt_sqDist (Matrix.length_row planePoints_fits.full hi)
      (Matrix.length_row planePoints_fits.full_centroids hl)).symm
  have hroot : ∀ a b c d : ℕ, Scalar.sqrt (sqDist [(a : ℝ), (b : ℝ)] [(c : ℝ), (d : ℝ)]) =
      √(0 + (a - c) * (a - c) + (b - d) * (b - d)) := fun _ _ _ _ => rfl
  refine ⟨?_, ?_, ?_, ?_⟩
  · rw [hdist 0 (by decide) 0 (by decide)]
    refine (hroot 0 0 0 0).trans ?_
    norm_num
  · rw [hdist 0 (by decide) 1 (by decide)]
    refine (hroot 3 4 0 0).trans ?_
    rw [Real.sqrt_eq_iff_mul_self_eq] <;> norm_num
  · rw [hdist 0 (by decide) 2 (by decide)]
    refine (hroot 6 8 0 0).trans ?_
    rw [Real.sqrt_eq_iff_mul_self_eq] <;> norm_num
  · rw [hdist 1 (by decide) 3 (by decide)]
    refine (hroot 1 1 1 1).trans ?_
    norm_num

/-- A cluster of three points, one whose only point lies at the centroid, and an empty one. -/
theorem ofLabels_describes_plane :
    planePoints.Fits planeCentroids ∧ planeLabels.length = planePoints.rows ∧
      ∃ stats : List (ClusterStats ℝ),
        ofLabels? planePoints planeLabels planeCentroids = .ok stats ∧
        stats.map (·.count) = [3, 1, 0] ∧
        (∃ s, stats[0]? = some s ∧ IsLeast {0, 5, 10} s.minDist ∧ IsGreatest {0, 5, 10} s.maxDist ∧
          s.meanDist = 5 ∧ 1 ≤ s.radiusRatio) ∧
        (∃ s, stats[1]? = some s ∧ s.radiusRatio = 0) ∧ stats[2]? = some ⟨0, 0, 0, 0, 0⟩ := by
  obtain ⟨hline, hcorner, hnone⟩ := rowsLabelled_plane
  obtain ⟨h0, h1, h2, h3⟩ := distanceTo_plane
  have hlargest : (10 : ℝ) ≤ Scalar.largest := by
    have hbound : ∀ k, 10 ≤ (2 ^ 53 - 1) * 2 ^ k := fun k =>
      le_mul_of_le_of_one_le (by decide) Nat.one_le_two_pow
    have hcast : ((10 : ℕ) : ℝ) ≤ Scalar.largest := Nat.cast_le.mpr (hbound 971)
    rwa [Nat.cast_ofNat] at hcast
  have hreach : ∀ l < planeCentroids.rows, ∀ i ∈ rowsLabelled planeLabels l,
      planePoints.distanceTo planeCentroids l i ≤ Scalar.largest := by
    intro l hl i hi
    refine le_trans ?_ hlargest
    replace hl : l < 3 := hl
    interval_cases l
    · rw [hline] at hi
      simp only [Finset.mem_insert, Finset.mem_singleton] at hi
      rcases hi with rfl | rfl | rfl <;> linarith
    · rw [hcorner, Finset.mem_singleton] at hi
      subst hi
      linarith
    · rw [hnone] at hi
      cases hi
  obtain ⟨⟨stats, hok, hsizes, -, hstats⟩, -⟩ := ofLabels_describes planePoints_fits rfl hreach
  obtain ⟨line, hget, hdescribes⟩ := hstats 0 (by decide)
  obtain ⟨corner, hget', hdescribes'⟩ := hstats 1 (by decide)
  obtain ⟨rest, hget'', hdescribes''⟩ := hstats 2 (by decide)
  rw [hline] at hdescribes
  rw [hcorner] at hdescribes'
  have himage : planePoints.distanceTo planeCentroids 0 '' (({0, 1, 2} : Finset ℕ) : Set ℕ) =
      {0, 5, 10} := by
    simp [Set.image_insert_eq, h0, h1, h2]
  refine ⟨planePoints_fits, rfl, stats, hok, hsizes.trans (by decide), ⟨line, hget, ?_, ?_, ?_, ?_⟩,
    ⟨corner, hget', ?_⟩, ?_⟩
  · exact himage ▸ hdescribes.least (by decide)
  · exact himage ▸ hdescribes.greatest (by decide)
  · rw [hdescribes.mean (by decide)]
    simp [h0, h1, h2]
    norm_num
  · exact (hdescribes.ratio ⟨1, by decide, by rw [h1]; norm_num⟩).2
  · refine hdescribes'.ratio_of_zero fun i hi => ?_
    rw [Finset.mem_singleton.mp hi, h3]
  · rw [hget'', hdescribes''.empty hnone]

end ClusterStats

end Clustering
