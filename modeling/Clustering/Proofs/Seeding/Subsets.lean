import Clustering.Proofs.Exact
import Clustering.Proofs.Seeding.Failures

/-!
# Samples are uniform over subsets

Floyd's method draws once for each of its tops, so that a sample of `k` out of `n` is a function of
`k` draws (`FloydDraws`).  The last pick is the last draw, or the last top in its place.  So the
draws whose picks are a given set end with a member of it, and the draws before pick the set without
the member that the last one adds (`floyd_concat_eq_iff`).  By induction on `k` every set of `k`
indices has `k !` lists of draws (`card_filter_floyd`).

Independent draws, each uniform up to its top, give every list of draws with one probability
(`mapM_uniformUpTo`), and hence every set of `k` indices (`Seeding.sampleRows_uniform`).
-/

namespace Clustering

open scoped Nat

/-! ### Draws -/

/-- The lists of draws from which a sample of `k` out of `n` may be made: one index up to each
top. -/
def FloydDraws (n k : ℕ) : Set (List ℕ) :=
  {ds | List.Forall₂ (fun top i => i ≤ top) (floydTops n k) ds}

/-- The last pick is the last draw, or the last top if that draw is picked already. -/
theorem floydFrom_concat (picked : Std.TreeSet ℕ) (ps : List (ℕ × ℕ)) (top drawn : ℕ) :
    floydFrom picked (ps ++ [(top, drawn)]) =
      floydFrom picked ps ++
        [if drawn ∈ picked ∨ drawn ∈ floydFrom picked ps then top else drawn] := by
  induction ps generalizing picked with
  | nil => simp [floydFrom]
  | cons p ps ih =>
    obtain ⟨t, d⟩ := p
    rw [List.cons_append, floydFrom, ih, floydFrom]
    generalize (if d ∈ picked then t else d) = i
    have hmem : (drawn ∈ picked.insert i ∨ drawn ∈ floydFrom (picked.insert i) ps) ↔
        (drawn ∈ picked ∨ drawn ∈ i :: floydFrom (picked.insert i) ps) := by
      rw [mem_insert_iff, List.mem_cons]
      tauto
    simp only [hmem, List.cons_append]

theorem floydTops_add (m k : ℕ) : floydTops (m + k) k = List.range' m k := by
  rw [floydTops, Nat.add_sub_cancel]

theorem floyd_concat (m : ℕ) {k : ℕ} {ds : List ℕ} (hds : ds.length = k) (t : ℕ) :
    floyd (m + (k + 1)) (k + 1) (ds ++ [t]) =
      floyd (m + k) k ds ++ [if t ∈ floyd (m + k) k ds then m + k else t] := by
  have hlen : (List.range' m k).length = ds.length := by simp [hds]
  have hzip : (List.range' m (k + 1)).zip (ds ++ [t]) =
      (List.range' m k).zip ds ++ [(m + k, t)] := by
    rw [List.range'_1_concat, List.zip_append hlen]
    rfl
  simp only [floyd, floydTops_add, hzip, floydFrom_concat]
  simp

/-- The lists of `k` draws up to the tops from `m` on. -/
def drawTable (m : ℕ) : ℕ → Finset (List ℕ)
  | 0 => {[]}
  | k + 1 => (drawTable m k ×ˢ Finset.range (m + k + 1)).image fun p => p.1 ++ [p.2]

theorem forall₂_concat {α β : Type} {R : α → β → Prop} {as : List α} {a : α} {bs : List β} {b : β} :
    List.Forall₂ R (as ++ [a]) (bs ++ [b]) ↔ List.Forall₂ R as bs ∧ R a b := by
  rw [← List.forall₂_reverse_iff, List.reverse_append, List.reverse_append]
  show List.Forall₂ R (a :: as.reverse) (b :: bs.reverse) ↔ _
  rw [List.forall₂_cons, List.forall₂_reverse_iff, and_comm]

theorem mem_drawTable {m k : ℕ} {ds : List ℕ} :
    ds ∈ drawTable m k ↔ ds ∈ FloydDraws (m + k) k := by
  show _ ↔ List.Forall₂ _ (floydTops (m + k) k) ds
  rw [floydTops_add]
  induction k generalizing ds with
  | zero => simp [drawTable]
  | succ k ih =>
    rw [drawTable, Finset.mem_image, List.range'_1_concat]
    constructor
    · rintro ⟨⟨ds, t⟩, hmem, rfl⟩
      rw [Finset.mem_product, Finset.mem_range, ih] at hmem
      exact forall₂_concat.mpr ⟨hmem.1, Nat.le_of_lt_succ hmem.2⟩
    · intro h
      rcases List.eq_nil_or_concat' ds with rfl | ⟨ds, t, rfl⟩
      · simp at h
      · obtain ⟨hds, ht⟩ := forall₂_concat.mp h
        refine ⟨(ds, t), ?_, rfl⟩
        rw [Finset.mem_product, Finset.mem_range, ih]
        exact ⟨hds, Nat.lt_succ_of_le ht⟩

theorem length_of_mem_drawTable {m k : ℕ} {ds : List ℕ} (h : ds ∈ drawTable m k) :
    ds.length = k := by
  have hforall := mem_drawTable.mp h
  rw [← hforall.length_eq, floydTops, List.length_range']

theorem concat_injective {α : Type} :
    Function.Injective fun p : List α × α => p.1 ++ [p.2] := by
  rintro ⟨as, a⟩ ⟨bs, b⟩ h
  simpa using h

theorem card_drawTable_succ (m k : ℕ) :
    (drawTable m (k + 1)).card = (drawTable m k).card * (m + k + 1) := by
  rw [drawTable, Finset.card_image_of_injective _ concat_injective, Finset.card_product,
    Finset.card_range]

theorem card_drawTable (m k : ℕ) : (drawTable m k).card = (m + 1).ascFactorial k := by
  induction k with
  | zero => rfl
  | succ k ih =>
    rw [card_drawTable_succ, ih, Nat.ascFactorial_succ]
    ring

/-! ### Draws for a set -/

/-- A set is made of a smaller one by an index, or by a top in place of an index that is in it. -/
theorem insert_eq_iff {A S : Finset ℕ} {top t : ℕ} (hA : top ∉ A) :
    insert (if t ∈ A then top else t) A = S ↔
      t ∈ S ∧ A = S.erase (if top ∈ S then top else t) := by
  constructor
  · rintro rfl
    by_cases ht : t ∈ A
    · simp [ht, hA]
    · by_cases htop : top = t
      · simp [htop, ht]
      · simp [ht, htop, hA]
  · rintro ⟨ht, hA'⟩
    by_cases htop : top ∈ S
    · rw [if_pos htop] at hA'
      by_cases hne : t = top
      · subst hne
        simp [hA', htop]
      · simp [hA', hne, ht, htop]
    · rw [if_neg htop] at hA'
      simp [hA', ht]

theorem floyd_concat_eq_iff {m k : ℕ} {ds : List ℕ} (h : ds ∈ drawTable m k) (t : ℕ)
    (S : Finset ℕ) :
    (floyd (m + (k + 1)) (k + 1) (ds ++ [t])).toFinset = S ↔
      t ∈ S ∧ (floyd (m + k) k ds).toFinset = S.erase (if m + k ∈ S then m + k else t) := by
  have hlt := (Seeding.rowIndices_floyd (Nat.le_add_left k m) (mem_drawTable.mp h)).lt
  have htop : m + k ∉ (floyd (m + k) k ds).toFinset := fun hmem =>
    (hlt _ (List.mem_toFinset.mp hmem)).false
  rw [← insert_eq_iff htop, floyd_concat m (length_of_mem_drawTable h), List.toFinset_append,
    Finset.union_comm]
  simp only [List.mem_toFinset]
  rfl

/-- What is picked is a set of `k` indices. -/
theorem toFinset_floyd_mem {m k : ℕ} {ds : List ℕ} (h : ds ∈ drawTable m k) :
    (floyd (m + k) k ds).toFinset ∈ (Finset.range (m + k)).powersetCard k := by
  have hdraws := mem_drawTable.mp h
  obtain ⟨hlength, hlt⟩ := Seeding.rowIndices_floyd (Nat.le_add_left k m) hdraws
  rw [Finset.mem_powersetCard, List.toFinset_card_of_nodup (nodup_floyd hdraws)]
  refine ⟨fun i hi => ?_, hlength⟩
  exact Finset.mem_range.mpr (hlt i (List.mem_toFinset.mp hi))

/-- The lists of draws for a set, by their last draw: it is a member, and the draws before it are
for the set without the member that it adds. -/
theorem card_filter_succ {m k : ℕ} {S : Finset ℕ} (hS : S ⊆ Finset.range (m + k + 1)) :
    ((drawTable m (k + 1)).filter fun ds =>
        (floyd (m + (k + 1)) (k + 1) ds).toFinset = S).card =
      ∑ t ∈ S, ((drawTable m k).filter fun ds =>
        (floyd (m + k) k ds).toFinset = S.erase (if m + k ∈ S then m + k else t)).card := by
  -- the lists are grouped by their last draw; one outside `S` cannot produce `S`
  have hlast : ∀ t, (∑ ds ∈ drawTable m k,
      if (floyd (m + (k + 1)) (k + 1) (ds ++ [t])).toFinset = S then 1 else 0) =
        if t ∈ S then ((drawTable m k).filter fun ds => (floyd (m + k) k ds).toFinset =
          S.erase (if m + k ∈ S then m + k else t)).card else 0 := by
    intro t
    rw [Finset.card_filter]
    by_cases ht : t ∈ S
    · rw [if_pos ht]
      refine Finset.sum_congr rfl fun ds hds => if_congr ?_ rfl rfl
      rw [floyd_concat_eq_iff hds, and_iff_right ht]
    · rw [if_neg ht]
      refine Finset.sum_eq_zero fun ds hds => if_neg ?_
      rw [floyd_concat_eq_iff hds]
      exact fun h => ht h.1
  rw [drawTable, Finset.filter_image, Finset.card_image_of_injective _ concat_injective,
    Finset.card_filter, Finset.sum_product_right, Finset.sum_congr rfl fun t _ => hlast t,
    ← Finset.sum_filter, Finset.filter_mem_eq_inter, Finset.inter_eq_right.mpr hS]

/-- Every set of `k` indices has `k !` lists of draws. -/
theorem card_filter_floyd (m : ℕ) : ∀ (k : ℕ) {S : Finset ℕ}, S ⊆ Finset.range (m + k) →
    S.card = k →
      ((drawTable m k).filter fun ds => (floyd (m + k) k ds).toFinset = S).card = k !
  | 0, S, _, hcard => by
    rw [Finset.card_eq_zero] at hcard
    subst hcard
    rfl
  | k + 1, S, hS, hcard => by
    -- whatever the last draw was, taking its element away leaves a set of size `k` below the
    -- last top, which the induction counts
    have hlast : ∀ t ∈ S, ((drawTable m k).filter fun ds => (floyd (m + k) k ds).toFinset =
        S.erase (if m + k ∈ S then m + k else t)).card = k ! := by
      intro t ht
      have hmem : (if m + k ∈ S then m + k else t) ∈ S := by split_ifs <;> assumption
      refine card_filter_floyd m k (fun i hi => ?_) ?_
      · obtain ⟨hne, hi⟩ := Finset.mem_erase.mp hi
        have hlt := Finset.mem_range.mp (hS hi)
        have hbelow : i ≠ m + k := by
          rintro rfl
          rw [if_pos hi] at hne
          exact hne rfl
        exact Finset.mem_range.mpr (by omega)
      · rw [Finset.card_erase_of_mem hmem, hcard]
        rfl
    rw [card_filter_succ hS, Finset.sum_congr rfl hlast, Finset.sum_const, hcard, smul_eq_mul,
      Nat.factorial_succ]

/-! ### Independent draws -/

/-- A number up to a top, all equally likely. -/
noncomputable def uniformUpTo (top : ℕ) : PMF ℕ :=
  PMF.uniformOfFinset (Finset.range (top + 1)) (Finset.nonempty_range_add_one)

theorem drawTable_nonempty (m k : ℕ) : (drawTable m k).Nonempty := by
  rw [← Finset.card_pos, card_drawTable]
  exact Nat.ascFactorial_pos _ _

section Concat

variable {β : Type}

/-- Draw a list, then an entry. -/
theorem bind_concat_apply (p : PMF (List β)) (q : PMF β) (bs : List β) (b : β) :
    (p.bind fun as => q.bind fun a => PMF.pure (as ++ [a])) (bs ++ [b]) = p bs * q b := by
  rw [PMF.bind_apply, tsum_eq_single bs]
  · rw [PMF.bind_apply, tsum_eq_single b]
    · simp
    · intro a ha
      simp [ha.symm]
  · intro as has
    rw [PMF.bind_apply, ENNReal.tsum_eq_zero.mpr fun a => by simp [has.symm], mul_zero]

theorem bind_concat_nil (p : PMF (List β)) (q : PMF β) :
    (p.bind fun as => q.bind fun a => PMF.pure (as ++ [a])) [] = 0 := by
  simp [PMF.bind_apply]

end Concat

theorem concat_mem_drawTable {m k t : ℕ} {ds : List ℕ} :
    ds ++ [t] ∈ drawTable m (k + 1) ↔ ds ∈ drawTable m k ∧ t ∈ Finset.range (m + k + 1) := by
  rw [drawTable, ← Finset.mem_product (p := (ds, t))]
  exact concat_injective.mem_finset_image (a := (ds, t))

/-- Independent draws give every list of draws with the same probability. -/
theorem mapM_uniformUpTo (m k : ℕ) :
    (List.range' m k).mapM uniformUpTo =
      PMF.uniformOfFinset (drawTable m k) (drawTable_nonempty m k) := by
  induction k with
  | zero =>
    ext ds
    show PMF.pure [] ds = _
    rw [PMF.uniformOfFinset_apply]
    simp [drawTable]
  | succ k ih =>
    -- the last draw is independent of the ones before it and has one value more to choose from
    have hsplit : (List.range' m (k + 1)).mapM uniformUpTo =
        (PMF.uniformOfFinset (drawTable m k) (drawTable_nonempty m k)).bind fun ds =>
          (uniformUpTo (m + k)).bind fun t => PMF.pure (ds ++ [t]) := by
      rw [List.range'_1_concat, List.mapM_append, ih]
      simp only [List.mapM_cons, List.mapM_nil, bind_assoc, pure_bind]
      rfl
    rw [hsplit]
    ext ds
    rcases List.eq_nil_or_concat' ds with rfl | ⟨ds, t, rfl⟩
    · rw [bind_concat_nil, PMF.uniformOfFinset_apply_of_notMem]
      simp [drawTable]
    · rw [bind_concat_apply, uniformUpTo]
      by_cases hds : ds ∈ drawTable m k
      · by_cases ht : t ∈ Finset.range (m + k + 1)
        · rw [PMF.uniformOfFinset_apply_of_mem _ hds, PMF.uniformOfFinset_apply_of_mem _ ht,
            PMF.uniformOfFinset_apply_of_mem _ (concat_mem_drawTable.mpr ⟨hds, ht⟩),
            card_drawTable_succ, Finset.card_range, Nat.cast_mul, ENNReal.mul_inv]
          · exact Or.inr (ENNReal.natCast_ne_top _)
          · exact Or.inl (ENNReal.natCast_ne_top _)
        · rw [PMF.uniformOfFinset_apply_of_notMem _ ht, mul_zero,
            PMF.uniformOfFinset_apply_of_notMem _ fun h => ht (concat_mem_drawTable.mp h).2]
      · rw [PMF.uniformOfFinset_apply_of_notMem _ hds, zero_mul,
          PMF.uniformOfFinset_apply_of_notMem _ fun h => hds (concat_mem_drawTable.mp h).1]

/-- Draws that are all equally likely pick sets that are all equally likely. -/
theorem map_uniformOfFinset_floyd (m k : ℕ) (h : ((Finset.range (m + k)).powersetCard k).Nonempty) :
    (PMF.uniformOfFinset (drawTable m k) (drawTable_nonempty m k)).map
        (fun ds => (floyd (m + k) k ds).toFinset) =
      PMF.uniformOfFinset ((Finset.range (m + k)).powersetCard k) h := by
  ext S
  rw [← PMF.toOuterMeasure_apply_singleton, PMF.toOuterMeasure_map_apply,
    PMF.toOuterMeasure_uniformOfFinset_apply, PMF.uniformOfFinset_apply]
  simp only [Set.mem_preimage, Set.mem_singleton_iff]
  by_cases hS : S ∈ (Finset.range (m + k)).powersetCard k
  · obtain ⟨hsub, hcard⟩ := Finset.mem_powersetCard.mp hS
    rw [if_pos hS, card_filter_floyd m k hsub hcard, card_drawTable, Finset.card_powersetCard,
      Finset.card_range, Nat.ascFactorial_eq_factorial_mul_choose, Nat.cast_mul]
    have hne : ((k ! : ℕ) : ENNReal) ≠ 0 := Nat.cast_ne_zero.mpr k.factorial_ne_zero
    have hcancel := ENNReal.mul_div_mul_left 1 (((m + k).choose k : ℕ) : ENNReal) hne
      (ENNReal.natCast_ne_top _)
    rwa [mul_one, one_div] at hcancel
  · rw [if_neg hS, Finset.filter_eq_empty_iff.mpr, Finset.card_empty, Nat.cast_zero,
      ENNReal.zero_div]
    rintro ds hds rfl
    exact hS (toFinset_floyd_mem hds)

namespace Seeding

variable {σ ω : Type} [Source σ ω] [Source.InRange σ]

/-! ### Samples -/

theorem yields_sampleRows_floyd {n k : ℕ} (hk : k ≤ n) :
    Yields (sampleRows n k : Seeding σ ω (List ℕ)) fun is =>
      ∃ ds ∈ FloydDraws n k, is = floyd n k ds := by
  unfold sampleRows
  rw [if_pos hk]
  exact (Yields.mapM (fun top => yields_index top) _).bind fun ds hds =>
    yields_pure ⟨ds, hds, rfl⟩

theorem yields_sampleRows_repeating {n k : ℕ} (hn : 0 < n) (hk : n < k) :
    Yields (sampleRows n k : Seeding σ ω (List ℕ)) fun is =>
      ∃ more, RowIndices n (k - n) more ∧ is = List.range n ++ more := by
  unfold sampleRows
  rw [if_neg (Nat.not_le_of_lt hk)]
  exact (yields_indices hn (k - n)).bind fun more hmore => yields_andThen fun _ =>
    yields_pure ⟨more, hmore, rfl⟩

omit [Source σ ω] [Source.InRange σ] in
/-- A script of indices in range is drawn as it is written. -/
theorem run_mapM_script [Zero ω] (notices : List (Notice ω)) : ∀ {tops ds : List ℕ},
    List.Forall₂ (fun top i => i ≤ top) tops ds →
      (tops.mapM index).run (⟨⟨ds⟩, notices⟩ : Session (Script ω) ω) =
        (.ok ds, ⟨⟨[]⟩, notices⟩)
  | [], [], .nil => rfl
  | top :: tops, d :: ds, .cons hd hds => by
    have hdraw : (index top).run (⟨⟨d :: ds⟩, notices⟩ : Session (Script ω) ω) =
        (.ok d, ⟨⟨ds⟩, notices⟩) := by
      show (Except.ok (min top d), _) = _
      rw [Nat.min_eq_right hd]
      rfl
    rw [List.mapM_cons, run_bind_of_ok _ hdraw, run_bind_of_ok _ (run_mapM_script notices hds)]
    rfl

/-- Up to `n` rows out of `n` are a sample by Floyd's method.  There are `n ! / (n - k) !` lists of
draws for it, each picks `k` distinct indices, and each set of `k` indices is picked by `k !` of
them; so the sets are equally likely if the draws are independent and uniform.  Every sample is made
from such draws, and from any of them one is.  More rows are all rows in order, and further ones.
The only failure is that a source gives up. -/
theorem sampleRows_uniform [Zero ω] (n k : ℕ) :
    (k ≤ n →
      (FloydDraws n k).ncard = n ! / (n - k)! ∧
      (∀ ds ∈ FloydDraws n k, RowIndices n k (floyd n k ds) ∧ (floyd n k ds).Nodup) ∧
      (∀ S ⊆ Finset.range n, S.card = k →
        {ds ∈ FloydDraws n k | (floyd n k ds).toFinset = S}.ncard = k !) ∧
      (∀ h : ((Finset.range n).powersetCard k).Nonempty,
        ((floydTops n k).mapM uniformUpTo).map (fun ds => (floyd n k ds).toFinset) =
          PMF.uniformOfFinset ((Finset.range n).powersetCard k) h) ∧
      (∀ s : Session σ ω,
        (∃ ds ∈ FloydDraws n k, ((sampleRows n k).run s).1 = .ok (floyd n k ds)) ∨
          Source.GivesUp σ ∧ ((sampleRows n k).run s).1 = .error .stalled) ∧
      ∀ ds ∈ FloydDraws n k, ∀ notices : List (Notice ω),
        ((sampleRows n k).run (⟨⟨ds⟩, notices⟩ : Session (Script ω) ω)).1 = .ok (floyd n k ds)) ∧
    (0 < n → n < k → ∀ s : Session σ ω,
      (∃ more, RowIndices n (k - n) more ∧
        ((sampleRows n k).run s).1 = .ok (List.range n ++ more)) ∨
          Source.GivesUp σ ∧ ((sampleRows n k).run s).1 = .error .stalled) := by
  have hfails : Fails (sampleRows n k : Seeding σ ω (List ℕ))
      fun f => Source.GivesUp σ ∧ f = .stalled :=
    fails_sampleRows (fun h => ⟨h, rfl⟩) n k
  constructor
  · intro hk
    -- the draws are counted by the rows left out, so that a draw more keeps that number
    obtain ⟨m, rfl⟩ := Nat.exists_eq_add_of_le' hk
    have htable : FloydDraws (m + k) k = (drawTable m k : Set (List ℕ)) :=
      Set.ext fun ds => mem_drawTable.symm
    refine ⟨?_, ?_, ?_, ?_, ?_, ?_⟩
    · rw [htable, Set.ncard_coe_finset, card_drawTable, Nat.ascFactorial_eq_div,
        Nat.add_sub_cancel]
    · intro ds hds
      exact ⟨rowIndices_floyd hk hds, nodup_floyd hds⟩
    · intro S hS hcard
      -- the draws that pick a set are a part of the table, where they are counted
      have hset : {ds ∈ FloydDraws (m + k) k | (floyd (m + k) k ds).toFinset = S} =
          ((drawTable m k).filter fun ds => (floyd (m + k) k ds).toFinset = S :
            Finset (List ℕ)) := by
        rw [htable, Finset.coe_filter]
        rfl
      rw [hset, Set.ncard_coe_finset, card_filter_floyd m k hS hcard]
    · -- uniform draws are uniform on the table, and each set has the same number of them
      intro h
      rw [floydTops_add, mapM_uniformUpTo, map_uniformOfFinset_floyd m k h]
    · intro s
      rcases (yields_sampleRows_floyd hk).or_fails hfails s with
        ⟨_, ⟨ds, hds, rfl⟩, hrun⟩ | ⟨_, ⟨hgives, rfl⟩, hrun⟩
      · exact Or.inl ⟨ds, hds, hrun⟩
      · exact Or.inr ⟨hgives, hrun⟩
    · intro ds hds notices
      unfold sampleRows
      rw [if_pos hk, run_bind_of_ok _ (run_mapM_script notices hds)]
      rfl
  · intro hn hk s
    rcases (yields_sampleRows_repeating hn hk).or_fails hfails s with
      ⟨_, ⟨more, hmore, rfl⟩, hrun⟩ | ⟨_, ⟨hgives, rfl⟩, hrun⟩
    · exact Or.inl ⟨more, hmore, hrun⟩
    · exact Or.inr ⟨hgives, hrun⟩

/-- Of the twelve lists of draws for two rows out of four, two pick the rows `1` and `3`; and a
source that counts goes on to draw the rows `0` and `1` after all rows of two. -/
theorem sampleRows_uniform_four :
    (FloydDraws 4 2).ncard = 12 ∧
      {ds ∈ FloydDraws 4 2 | (floyd 4 2 ds).toFinset = {1, 3}}.ncard = 2 ∧
      ((floydTops 4 2).mapM uniformUpTo).map (fun ds => (floyd 4 2 ds).toFinset) =
        PMF.uniformOfFinset ((Finset.range 4).powersetCard 2) (by decide) ∧
      ((sampleRows 4 2).run (⟨⟨[1, 1]⟩, []⟩ : Session (Script ℚ) ℚ)).1 = .ok [1, 3] ∧
      ∃ more, RowIndices 2 2 more ∧
        ((sampleRows 2 4).run (⟨⟨0⟩, []⟩ : Session (Counter ℚ) ℚ)).1 =
          .ok (List.range 2 ++ more) := by
  obtain ⟨hcount, -, hsets, huniform, -, hscript⟩ :=
    (sampleRows_uniform (σ := Counter ℚ) 4 2).1 (by decide)
  have hrun := hscript [1, 1] (by simp [FloydDraws, floydTops, List.range']) []
  refine ⟨hcount, hsets {1, 3} (by decide) rfl, huniform _, hrun.trans (by decide +kernel), ?_⟩
  have hrepeating :=
    (sampleRows_uniform (σ := Counter ℚ) 2 4).2 (by decide) (by decide) ⟨⟨0⟩, []⟩
  exact hrepeating.resolve_right fun h => Counter.not_givesUp h.1

end Seeding

end Clustering
