import Clustering.Proofs.Exact
import Clustering.Quality.Sizes

/-!
# Purity is the best relabelling

Predicted clusters are renamed to true ones by a map, and `hits` counts the rows that it puts right.
The table of predicted against true clusters holds the counts of its cells (`contingency_eq`), so
that the hits of a map are a sum of cells, one for each predicted cluster (`hits_eq_sum`).  The
cells are chosen independently of each other, which is why the sum of the row maxima is the most
that a map can hit (`isGreatest_majorityCount`).

`purity_best`: purity is this maximum over the number of rows.  What it says on permuted labels, on
clusters that are split, and of a perfect prediction follows from how maps carry over.
-/

namespace Clustering

/-! ### Counting in a table -/

section Table

/-- A table with `k` rows and `classes` columns. -/
def tableOf (k classes : ℕ) (f : ℕ → ℕ → ℕ) : List (List ℕ) :=
  (List.range k).map fun p => (List.range classes).map (f p)

theorem modify_map_range {β : Type} (k p : ℕ) (g : ℕ → β) (h : β → β) :
    ((List.range k).map g).modify p h =
      (List.range k).map fun q => if q = p then h (g q) else g q := by
  refine eq_map_range_of_getElem? (by simp) fun q hq => ?_
  rw [List.getElem?_modify, List.getElem?_map, List.getElem?_range hq]
  by_cases hpq : p = q
  · simp [hpq]
  · simp [hpq, Ne.symm hpq]

theorem clusterOf?_eq_some {k c : ℕ} {label : ℤ} :
    clusterOf? k label = some c ↔ label = c ∧ c < k := by
  unfold clusterOf?
  split_ifs with h
  · rw [Option.some.injEq]
    omega
  · constructor
    · exact nofun
    · rintro ⟨rfl, hc⟩
      omega

theorem tableOf_congr {k classes : ℕ} {f g : ℕ → ℕ → ℕ}
    (h : ∀ p < k, ∀ t < classes, f p t = g p t) : tableOf k classes f = tableOf k classes g :=
  List.map_congr_left fun p hp => List.map_congr_left fun t ht =>
    h p (List.mem_range.mp hp) t (List.mem_range.mp ht)

theorem modify_tableOf (k classes : ℕ) (f : ℕ → ℕ → ℕ) (p t : ℕ) :
    (tableOf k classes f).modify p (fun row => row.modify t (· + 1)) =
      tableOf k classes fun q s => if q = p ∧ s = t then f q s + 1 else f q s := by
  rw [tableOf, modify_map_range]
  refine List.map_congr_left fun q _ => ?_
  by_cases hq : q = p
  · rw [if_pos hq, modify_map_range]
    exact List.map_congr_left fun s _ => by simp [hq]
  · rw [if_neg hq]
    exact List.map_congr_left fun s _ => by simp [hq]

/-- A row counts in its own cell, if the table has one for it. -/
theorem countPair_tableOf (k classes : ℕ) (f : ℕ → ℕ → ℕ) (pair : ℤ × ℤ) :
    countPair classes (tableOf k classes f) pair =
      tableOf k classes fun p t => f p t + if pair = ((p : ℤ), (t : ℤ)) then 1 else 0 := by
  have hlength : (tableOf k classes f).length = k := by simp [tableOf]
  unfold countPair
  rw [hlength]
  split
  · rename_i p t hp ht
    obtain ⟨hpred, -⟩ := clusterOf?_eq_some.mp hp
    obtain ⟨htrue, -⟩ := clusterOf?_eq_some.mp ht
    rw [modify_tableOf]
    refine tableOf_congr fun q _ s _ => ?_
    have hcell : pair = ((q : ℤ), (s : ℤ)) ↔ q = p ∧ s = t := by
      rw [Prod.ext_iff, hpred, htrue, Nat.cast_inj, Nat.cast_inj, eq_comm (a := p),
        eq_comm (a := t)]
    simp only [hcell]
    split_ifs <;> rfl
  · -- of a row with a cell both labels name clusters
    rename_i hnone
    refine tableOf_congr fun q hq s hs => ?_
    rw [if_neg, Nat.add_zero]
    rintro rfl
    exact hnone q s (clusterOf?_eq_some.mpr ⟨rfl, hq⟩) (clusterOf?_eq_some.mpr ⟨rfl, hs⟩)

/-- The cells of the table count the rows with their labels. -/
theorem contingency_eq (k classes : ℕ) (pairs : List (ℤ × ℤ)) :
    contingency k classes pairs =
      tableOf k classes fun p t => pairs.count ((p : ℤ), (t : ℤ)) := by
  have hfold : ∀ (ps : List (ℤ × ℤ)) (f : ℕ → ℕ → ℕ),
      ps.foldl (countPair classes) (tableOf k classes f) =
        tableOf k classes fun p t => f p t + ps.count ((p : ℤ), (t : ℤ)) := by
    intro ps
    induction ps with
    | nil => exact fun f => rfl
    | cons pair ps ih =>
      intro f
      rw [List.foldl_cons, countPair_tableOf, ih]
      refine tableOf_congr fun p _ t _ => ?_
      rw [List.count_cons, Nat.add_assoc, Nat.add_comm _ (ps.count _)]
      simp only [beq_iff_eq]
  have hzero : List.replicate k (List.replicate classes 0) = tableOf k classes fun _ _ => 0 := by
    simp [tableOf, List.map_const']
  rw [contingency, hzero, hfold]
  exact tableOf_congr fun p _ t _ => Nat.zero_add _

theorem isGreatest_foldl_max {row : List ℕ} (hne : row ≠ []) :
    IsGreatest {v | v ∈ row} (row.foldl max 0) := by
  induction row using List.reverseRecOn with
  | nil => exact absurd rfl hne
  | append_singleton row v ih =>
    rw [List.foldl_append, List.foldl_cons, List.foldl_nil]
    rcases eq_or_ne row [] with rfl | hrow
    · simp [IsGreatest, upperBounds]
    · obtain ⟨hmem, hle⟩ := ih hrow
      constructor
      · rcases max_choice (row.foldl max 0) v with h | h
        · rw [h]
          exact List.mem_append_left _ hmem
        · rw [h]
          exact List.mem_append_right _ List.mem_cons_self
      · intro u hu
        rcases List.mem_append.mp hu with hu | hu
        · exact (hle hu).trans (le_max_left _ _)
        · rw [List.mem_singleton.mp hu]
          exact le_max_right _ _

end Table

/-! ### Hits of a map -/

namespace Purity

section Hits

variable {n k classes : ℕ} (pred truth : Fin n → ℤ)

/-- The predicted and the true label of each row. -/
def labelPairs : List (ℤ × ℤ) := List.ofFn fun i => (pred i, truth i)

/-- How many rows lie in a predicted and in a true cluster. -/
def cell (p t : ℕ) : ℕ := Finset.card {i | pred i = p ∧ truth i = t}

/-- Both labels of the row are in range, and the map takes the one to the other. -/
def Hit (f : Fin k → Fin classes) (i : Fin n) : Prop := ∃ p : Fin k, pred i = p ∧ truth i = f p

instance (f : Fin k → Fin classes) : DecidablePred (Hit pred truth f) :=
  fun _ => inferInstanceAs (Decidable (∃ _, _))

/-- How many rows a map from predicted to true clusters puts right. -/
def hits (f : Fin k → Fin classes) : ℕ := Finset.card {i | Hit pred truth f i}

theorem count_labelPairs (p t : ℕ) :
    (labelPairs pred truth).count ((p : ℤ), (t : ℤ)) = cell pred truth p t := by
  rw [labelPairs, List.ofFn_eq_map, List.count, List.countP_map, List.countP_eq_length_filter]
  have hcell : ∀ i, ((pred i, truth i) == ((p : ℤ), (t : ℤ))) =
      decide (pred i = p ∧ truth i = t) := by
    intro i
    rw [beq_eq_decide]
    simp
  simp only [Function.comp_def, hcell]
  rfl

/-- The hits of a map, one predicted cluster after the other. -/
theorem hits_eq_sum (f : Fin k → Fin classes) :
    hits pred truth f = ∑ p : Fin k, cell pred truth p (f p) := by
  have hunion : ({i | Hit pred truth f i} : Finset (Fin n)) =
      Finset.univ.biUnion fun p : Fin k => {i | pred i = (p : ℕ) ∧ truth i = (f p : ℕ)} := by
    ext i
    rw [Finset.mem_filter_univ, Finset.mem_biUnion]
    simp only [Finset.mem_filter_univ, Finset.mem_univ, true_and]
    rfl
  rw [hits, hunion, Finset.card_biUnion]
  · rfl
  · intro p _ q _ hpq
    refine Finset.disjoint_filter.mpr fun i _ hp hq => hpq ?_
    exact Fin.ext (Int.ofNat.inj (hp.1.symm.trans hq.1))

/-- The row maxima add up to the most that a map can hit: a map may take each predicted cluster to
its most frequent true one. -/
theorem isGreatest_majorityCount (hclasses : 0 < classes) :
    IsGreatest (Set.range (hits pred truth : (Fin k → Fin classes) → ℕ))
      (majorityCount k classes (labelPairs pred truth)) := by
  let row (p : ℕ) : List ℕ := (List.range classes).map (cell pred truth p)
  have hrow : ∀ p, IsGreatest {v | v ∈ row p} ((row p).foldl max 0) := by
    intro p
    refine isGreatest_foldl_max fun hnil => ?_
    rw [List.map_eq_nil_iff, List.range_eq_nil] at hnil
    exact hclasses.ne' hnil
  have hsum : majorityCount k classes (labelPairs pred truth) =
      ∑ p : Fin k, (row p).foldl max 0 := by
    rw [majorityCount, contingency_eq, tableOf, List.map_map, ← List.sum_eq_foldl]
    simp only [count_labelPairs]
    exact (Fin.sum_univ_eq_sum_range (fun p => (row p).foldl max 0) k).symm
  rw [hsum]
  constructor
  · -- the rows of the table are chosen from one by one, so the greatest cells make up a map
    have hchoice : ∀ p : Fin k, ∃ t : Fin classes,
        cell pred truth p t = (row p).foldl max 0 := by
      intro p
      obtain ⟨t, ht, heq⟩ := List.mem_map.mp (hrow p).1
      exact ⟨⟨t, List.mem_range.mp ht⟩, heq⟩
    choose f hf using hchoice
    exact ⟨f, (hits_eq_sum pred truth f).trans (Finset.sum_congr rfl fun p _ => hf p)⟩
  · rintro _ ⟨f, rfl⟩
    rw [hits_eq_sum]
    exact Finset.sum_le_sum fun p _ =>
      (hrow p).2 (List.mem_map.mpr ⟨f p, List.mem_range.mpr (f p).isLt, rfl⟩)

theorem hits_le (f : Fin k → Fin classes) : hits pred truth f ≤ n := by
  have hle := Finset.card_le_univ ({i | Hit pred truth f i} : Finset (Fin n))
  rwa [Fintype.card_fin] at hle

/-- A map that puts all rows right leaves no label out of range, and none ambiguous. -/
theorem exists_hits_eq_iff (hclasses : 0 < classes) :
    (∃ f : Fin k → Fin classes, hits pred truth f = n) ↔
      (∀ i, (∃ p : Fin k, pred i = p) ∧ ∃ t : Fin classes, truth i = t) ∧
        ∀ i j, pred i = pred j → truth i = truth j := by
  have hall : ∀ f : Fin k → Fin classes, hits pred truth f = n ↔ ∀ i, Hit pred truth f i := by
    intro f
    have huniv := Finset.card_eq_iff_eq_univ ({i | Hit pred truth f i} : Finset (Fin n))
    rw [Fintype.card_fin] at huniv
    rw [hits, huniv, Finset.filter_eq_self]
    exact ⟨fun h i => h i (Finset.mem_univ i), fun h i _ => h i⟩
  constructor
  · rintro ⟨f, hf⟩
    have hhit := (hall f).mp hf
    refine ⟨fun i => ?_, fun i j hij => ?_⟩
    · obtain ⟨p, hp, ht⟩ := hhit i
      exact ⟨⟨p, hp⟩, f p, ht⟩
    · obtain ⟨p, hp, ht⟩ := hhit i
      obtain ⟨q, hq, hs⟩ := hhit j
      have hpq : p = q := Fin.ext (Int.ofNat.inj (hp.symm.trans (hij.trans hq)))
      rw [ht, hs, hpq]
  · rintro ⟨hrange, hdetermined⟩
    -- each predicted cluster with a row gets the true cluster of that row
    have hchoice : ∀ p : Fin k, ∃ t : Fin classes, ∀ i, pred i = p → truth i = t := by
      intro p
      by_cases hp : ∃ i, pred i = p
      · obtain ⟨i, hi⟩ := hp
        obtain ⟨t, ht⟩ := (hrange i).2
        exact ⟨t, fun j hj => (hdetermined j i (hj.trans hi.symm)).trans ht⟩
      · exact ⟨⟨0, hclasses⟩, fun i hi => absurd ⟨i, hi⟩ hp⟩
    choose f hf using hchoice
    refine ⟨f, (hall f).mpr fun i => ?_⟩
    obtain ⟨p, hp⟩ := (hrange i).1
    exact ⟨p, hp, hf p i hp⟩

end Hits

/-! ### Other labels for the same rows -/

section Relabel

variable {n k classes : ℕ}

/-- The label with the number of its cluster replaced; labels out of range stay as they are. -/
def relabel (σ : Equiv.Perm (Fin k)) (label : ℤ) : ℤ :=
  if h : 0 ≤ label ∧ label < k then (σ ⟨label.toNat, by omega⟩ : ℕ) else label

theorem relabel_eq_iff (σ : Equiv.Perm (Fin k)) {label : ℤ} {p : Fin k} :
    relabel σ label = p ↔ label = (σ.symm p : ℕ) := by
  unfold relabel
  split_ifs with h
  · obtain ⟨c, rfl⟩ := Int.eq_ofNat_of_zero_le h.1
    have hc : c < k := by omega
    rw [Nat.cast_inj, Nat.cast_inj, ← Fin.ext_iff, ← Equiv.eq_symm_apply, Fin.ext_iff]
    rfl
  · have hp := p.isLt
    have hp' := (σ.symm p).isLt
    omega

/-- Permuted predictions hit with the permuted map. -/
theorem hits_relabel_pred (σ : Equiv.Perm (Fin k)) (pred truth : Fin n → ℤ)
    (f : Fin k → Fin classes) :
    hits (relabel σ ∘ pred) truth f = hits pred truth (f ∘ σ) := by
  refine congrArg Finset.card (Finset.filter_congr fun i _ => ?_)
  simp only [Hit, Function.comp_apply, relabel_eq_iff]
  constructor
  · rintro ⟨p, hp, ht⟩
    exact ⟨σ.symm p, hp, by rwa [Equiv.apply_symm_apply]⟩
  · rintro ⟨p, hp, ht⟩
    exact ⟨σ p, by rwa [Equiv.symm_apply_apply], ht⟩

theorem hits_relabel_true (τ : Equiv.Perm (Fin classes)) (pred truth : Fin n → ℤ)
    (f : Fin k → Fin classes) :
    hits pred (relabel τ ∘ truth) f = hits pred truth (τ.symm ∘ f) := by
  refine congrArg Finset.card (Finset.filter_congr fun i _ => ?_)
  simp only [Hit, Function.comp_apply, relabel_eq_iff]

/-- Labels whose maps hit as others do, up to a change of the map, have the same maximum. -/
theorem majorityCount_eq_of_maps (hclasses : 0 < classes) {pred truth pred' truth' : Fin n → ℤ}
    {change : (Fin k → Fin classes) → Fin k → Fin classes} (hchange : Function.Surjective change)
    (h : ∀ f, hits pred' truth' f = hits pred truth (change f)) :
    majorityCount k classes (labelPairs pred' truth') =
      majorityCount k classes (labelPairs pred truth) := by
  have hrange : Set.range (hits pred' truth' : (Fin k → Fin classes) → ℕ) =
      Set.range (hits pred truth : (Fin k → Fin classes) → ℕ) := by
    rw [← hchange.range_comp (hits pred truth)]
    exact congrArg Set.range (funext h)
  have hbest := isGreatest_majorityCount (k := k) pred' truth' hclasses
  rw [hrange] at hbest
  exact hbest.unique (isGreatest_majorityCount pred truth hclasses)

theorem majorityCount_relabel_pred (hclasses : 0 < classes) (σ : Equiv.Perm (Fin k))
    (pred truth : Fin n → ℤ) :
    majorityCount k classes (labelPairs (relabel σ ∘ pred) truth) =
      majorityCount k classes (labelPairs pred truth) := by
  refine majorityCount_eq_of_maps hclasses (fun f => ?_) (hits_relabel_pred σ pred truth)
  exact ⟨f ∘ σ.symm, funext fun p => congrArg f (σ.symm_apply_apply p)⟩

theorem majorityCount_relabel_true (hclasses : 0 < classes) (τ : Equiv.Perm (Fin classes))
    (pred truth : Fin n → ℤ) :
    majorityCount k classes (labelPairs pred (relabel τ ∘ truth)) =
      majorityCount k classes (labelPairs pred truth) := by
  refine majorityCount_eq_of_maps hclasses (fun f => ?_) (hits_relabel_true τ pred truth)
  exact ⟨τ ∘ f, funext fun p => τ.symm_apply_apply (f p)⟩

/-- The rows of each predicted cluster lie in parts of it. -/
def Splits {k' : ℕ} (part : Fin k' → Fin k) (pred pred' : Fin n → ℤ) : Prop :=
  ∀ i, ∀ p : Fin k, pred i = p → ∃ p' : Fin k', pred' i = p' ∧ part p' = p

/-- A map on clusters is a map on their parts. -/
theorem majorityCount_le_of_splits {k' : ℕ} (hclasses : 0 < classes) {part : Fin k' → Fin k}
    {pred pred' : Fin n → ℤ} (h : Splits part pred pred') (truth : Fin n → ℤ) :
    majorityCount k classes (labelPairs pred truth) ≤
      majorityCount k' classes (labelPairs pred' truth) := by
  obtain ⟨f, hf⟩ := (isGreatest_majorityCount (k := k) pred truth hclasses).1
  have hparts : hits pred truth f ≤ hits pred' truth (f ∘ part) := by
    refine Finset.card_le_card (Finset.monotone_filter_right _ fun i _ hi => ?_)
    obtain ⟨p, hp, ht⟩ := hi
    obtain ⟨p', hp', rfl⟩ := h i p hp
    exact ⟨p', hp', ht⟩
  rw [← hf]
  exact hparts.trans ((isGreatest_majorityCount pred' truth hclasses).2 ⟨f ∘ part, rfl⟩)

end Relabel

/-! ### Purity -/

section Quotient

variable {n k classes : ℕ}

theorem purity_eq {ω : Type} [Scalar ω] [Memory] (hn : 0 < n) (hk : 0 < k) (hclasses : 0 < classes)
    (pred truth : Fin n → ℤ) :
    purity k classes (labelPairs pred truth) =
      (do Memory.storage 8 classes; Memory.storage 24 k).map fun _ =>
        (majorityCount k classes (labelPairs pred truth) : ω) / (n : ω) := by
  have hlength : (labelPairs pred truth).length = n := List.length_ofFn
  have hne : (labelPairs pred truth).isEmpty = false := by
    rw [List.isEmpty_eq_false_iff_exists_mem]
    exact ⟨_, List.mem_ofFn.mpr ⟨⟨0, hn⟩, rfl⟩⟩
  unfold purity
  rw [if_neg (by simp [hne, hk.ne', hclasses.ne']), hlength]
  cases Memory.storage 8 classes with
  | error f => rfl
  | ok u => cases Memory.storage 24 k <;> rfl

variable {K : Type} [ExactScalar K] [Memory]

theorem eq_of_purity (hn : 0 < n) (hk : 0 < k) (hclasses : 0 < classes) {pred truth : Fin n → ℤ}
    {q : K} (h : purity k classes (labelPairs pred truth) = .ok q) :
    q = (majorityCount k classes (labelPairs pred truth) : K) / (n : K) := by
  rw [purity_eq hn hk hclasses] at h
  cases hstorage : (do Memory.storage 8 classes; Memory.storage 24 k : Except Failure Unit) with
  | error f => rw [hstorage] at h; cases h
  | ok u => rw [hstorage] at h; exact (Except.ok.inj h).symm

/-- Purity is the most hits of a map over the number of rows, unless the table does not fit into
memory.  So it is the same for permuted predicted and for permuted true labels, it does not decrease
when predicted clusters are split, and it is at most one, which it is exactly if all labels are in
range and the predicted one determines the true one. -/
theorem purity_best (hn : 0 < n) (hk : 0 < k) (hclasses : 0 < classes) (pred truth : Fin n → ℤ) :
    (∃ M : ℕ, IsGreatest {m | ∃ f : Fin k → Fin classes, m = hits pred truth f} M ∧
      ∀ {ω : Type} [Scalar ω], purity k classes (labelPairs pred truth) =
        (do Memory.storage 8 classes; Memory.storage 24 k).map fun _ => (M : ω) / (n : ω)) ∧
    (∀ (σ : Equiv.Perm (Fin k)) {ω : Type} [Scalar ω],
      (purity k classes (labelPairs (relabel σ ∘ pred) truth) : Except Failure ω) =
        purity k classes (labelPairs pred truth)) ∧
    (∀ (τ : Equiv.Perm (Fin classes)) {ω : Type} [Scalar ω],
      (purity k classes (labelPairs pred (relabel τ ∘ truth)) : Except Failure ω) =
        purity k classes (labelPairs pred truth)) ∧
    (∀ {k' : ℕ} (part : Fin k' → Fin k) (pred' : Fin n → ℤ), 0 < k' → Splits part pred pred' →
      ∀ q q' : K, purity k classes (labelPairs pred truth) = .ok q →
        purity k' classes (labelPairs pred' truth) = .ok q' → q ≤ q') ∧
    ∀ q : K, purity k classes (labelPairs pred truth) = .ok q →
      q ≤ 1 ∧ (q = 1 ↔
        (∀ i, (∃ p : Fin k, pred i = p) ∧ ∃ t : Fin classes, truth i = t) ∧
          ∀ i j, pred i = pred j → truth i = truth j) := by
  have hpos : (0 : K) < n := Nat.cast_pos.mpr hn
  have hbest := isGreatest_majorityCount (k := k) pred truth hclasses
  refine ⟨⟨majorityCount k classes (labelPairs pred truth), ?_, fun {ω} _ => ?_⟩,
    fun σ {ω} _ => ?_, fun τ {ω} _ => ?_, fun {k'} part pred' hk' hsplit q q' hq hq' => ?_,
    fun q hq => ?_⟩
  · simpa only [Set.range, eq_comm] using hbest
  · exact purity_eq hn hk hclasses pred truth
  · rw [purity_eq hn hk hclasses, purity_eq hn hk hclasses, majorityCount_relabel_pred hclasses]
  · rw [purity_eq hn hk hclasses, purity_eq hn hk hclasses, majorityCount_relabel_true hclasses]
  · rw [eq_of_purity hn hk hclasses hq, eq_of_purity hn hk' hclasses hq']
    have hle := majorityCount_le_of_splits hclasses hsplit truth
    exact div_le_div_of_nonneg_right (Nat.cast_le.mpr hle) hpos.le
  · obtain ⟨⟨f, hf⟩, hmax⟩ := hbest
    have hle : majorityCount k classes (labelPairs pred truth) ≤ n := by
      rw [← hf]
      exact hits_le pred truth f
    rw [eq_of_purity hn hk hclasses hq, div_le_one hpos, div_eq_one_iff_eq hpos.ne', Nat.cast_le,
      Nat.cast_inj, ← exists_hits_eq_iff pred truth hclasses]
    refine ⟨hle, fun hfull => ⟨f, hf.trans hfull⟩, fun ⟨g, hg⟩ => le_antisymm hle ?_⟩
    exact hg.symm.trans_le (hmax ⟨g, rfl⟩)

end Quotient

/-! ### Labels out of range -/

/-- Six rows, of which one has no predicted and one no true cluster. -/
def sixPredicted : Fin 6 → ℤ := ![0, 0, 0, 1, -1, 1]

def sixTrue : Fin 6 → ℤ := ![1, 1, 0, 0, 0, 2]

/-- A map hits three of the rows. -/
theorem purity_best_six :
    (purity 2 2 (labelPairs sixPredicted sixTrue) : Except Failure ℚ) = .ok (1 / 2) ∧
      IsGreatest {m | ∃ f : Fin 2 → Fin 2, m = hits sixPredicted sixTrue f} 3 ∧
      (purity 2 2 (labelPairs (relabel (Equiv.swap (0 : Fin 2) 1) ∘ sixPredicted) sixTrue) :
        Except Failure ℚ) = .ok (1 / 2) := by
  have hpurity : (purity 2 2 (labelPairs sixPredicted sixTrue) : Except Failure ℚ) =
      .ok (1 / 2) := by
    decide +kernel
  obtain ⟨⟨M, hbest, hM⟩, hswap, -⟩ := @purity_best 6 2 2 ℚ _ _ (by decide) (by decide)
    (by decide) sixPredicted sixTrue
  have hquotient : (M : ℚ) / (6 : ℕ) = 1 / 2 := by
    have hstorage : (do Memory.storage 8 2; Memory.storage 24 2 : Except Failure Unit) =
        .ok () := by
      decide
    have hvalue := (hM (ω := ℚ)).symm.trans hpurity
    rw [hstorage] at hvalue
    exact Except.ok.inj hvalue
  obtain rfl : M = 3 := by
    have hthree : (M : ℚ) = 3 := by
      push_cast at hquotient
      linarith
    exact_mod_cast hthree
  exact ⟨hpurity, hbest, (hswap _).trans hpurity⟩

end Purity

end Clustering
