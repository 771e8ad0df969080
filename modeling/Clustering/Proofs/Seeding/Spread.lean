import Clustering.Proofs.Seeding.Gaps
import Clustering.Proofs.Seeding.Failures

/-!
# Greedy seeding wastes no pick

A greedy pick is drawn in proportion to weight times gap.  In exact arithmetic, and from a source
that draws an index of positive mass whenever there is one (`Source.HitsMass`), a pick has positive
weight and a value that was not picked before, as long as some row of positive weight has such a
value (`Seeding.SpreadAfter`).  So the seeds have as many values of rows of positive weight as there
are places for (`Seeding.plusPlus_spread`).

The search for a share has this property (`Discrete.mass_pos_of_draw`): it ends between two sums of
masses of which the first is below the coin and the second is not.
-/

namespace Clustering

variable {K : Type} [ExactScalar K]

/-- A source that keeps to the range of its indices, and draws an index of positive mass whenever
there is one. -/
class Source.HitsMass (σ : Type) {K : Type} [ExactScalar K] [Source σ K] : Prop where
  index_le : ∀ {top i : ℕ} {s : σ}, (Source.index top s).1 = some i → i ≤ top
  pick_pos : ∀ {masses : List K} {s : σ}, (∀ m ∈ masses, 0 ≤ m) → (∃ m ∈ masses, 0 < m) →
    0 < masses.getD (Source.pick masses s).1 0

theorem getD_pos_iff {vs : List K} {i : ℕ} : 0 < vs.getD i 0 ↔ ∃ v, vs[i]? = some v ∧ 0 < v := by
  rw [List.getD_eq_getElem?_getD]
  cases vs[i]? with
  | none => simp
  | some v => simp

/-! ### Draws in exact arithmetic -/

namespace Discrete

theorem getD_runningFrom (sum : K) : ∀ (ps : List K) {i : ℕ}, i < ps.length →
    (runningFrom sum ps).getD i 0 = sum + (ps.take (i + 1)).sum
  | p :: ps, 0, _ => by simp [runningFrom]
  | p :: ps, i + 1, hi => by
    rw [runningFrom, List.getD_cons_succ, getD_runningFrom (sum + p) ps (Nat.lt_of_succ_lt_succ hi),
      List.take_succ_cons, List.sum_cons, add_assoc]

theorem getD_runningSums {ps : List K} {i : ℕ} (hi : i < ps.length) :
    (runningSums ps).getD i 0 = (ps.take (i + 1)).sum := by
  cases ps with
  | nil => exact absurd hi (Nat.not_lt_zero _)
  | cons p ps =>
    cases i with
    | zero => simp [runningSums]
    | succ i =>
      rw [runningSums, List.getD_cons_succ, getD_runningFrom p ps (Nat.lt_of_succ_lt_succ hi),
        List.take_succ_cons, List.sum_cons]

/-- In exact arithmetic the last share needs no correction. -/
theorem getD_shares {masses : List K} (htotal : 0 < total masses) {i : ℕ} (hi : i < masses.length) :
    (shares masses).getD i 0 = (masses.take (i + 1)).sum / total masses := by
  have hsum : ∀ ms : List K, (ms.map (· / total masses)).sum = ms.sum / total masses := by
    intro ms
    simp only [div_eq_mul_inv, List.sum_map_mul_right, List.map_id']
  by_cases hlast : i = masses.length - 1
  · have hall : i + 1 = masses.length := by omega
    rw [hall, List.take_length, hlast, getD_shares_last, ← total_eq_sum, div_self htotal.ne']
  · have hlen : (runningSums (masses.map (· / total masses))).length = masses.length := by
      rw [length_runningSums, List.length_map]
    rw [shares, List.getD_append _ _ _ _ (by rw [List.length_dropLast, hlen]; omega),
      List.getD_eq_getElem?_getD, List.getElem?_dropLast, if_pos (by omega),
      ← List.getD_eq_getElem?_getD, getD_runningSums (by rwa [List.length_map]), ← List.map_take,
      hsum]

/-- A coin that is positive, and not above one, draws an index of positive mass. -/
theorem mass_pos_of_draw {σ : Type} {coin : σ → K × σ} (hcoin : ∀ s, 0 < (coin s).1)
    (hone : ∀ s, (coin s).1 ≤ 1) {masses : List K} (hpos : 0 < total masses) (s : σ) :
    0 < masses.getD (draw coin masses s).1 0 := by
  have hne : masses ≠ [] := by
    rintro rfl
    exact absurd hpos (lt_irrefl 0)
  have hlt := draw_lt (fun s => not_lt.mpr (hone s)) hne s
  unfold draw at hlt ⊢
  split_ifs at hlt ⊢ with hfew
  · match masses, hfew with
    | [m], _ => simpa [total] using hpos
  · dsimp only at hlt ⊢
    unfold index at hlt ⊢
    obtain ⟨-, hlow, hhigh⟩ := lowerBound_spec (shares masses) (coin s).1 0 masses.length
    generalize lowerBound (shares masses) (coin s).1 0 masses.length = i at hlt hlow hhigh ⊢
    -- the binary search brackets the coin between two running shares, so the share of the
    -- index it stops at is positive
    have hhigh : (coin s).1 ≤ (masses.take (i + 1)).sum / total masses := by
      rw [← getD_shares hpos hlt]
      exact not_lt.mp (hhigh.resolve_left (by omega))
    have hlow : (masses.take i).sum / total masses < (coin s).1 := by
      rcases Nat.eq_zero_or_pos i with rfl | hi
      · rw [List.take_zero, List.sum_nil, zero_div]
        exact hcoin s
      · have hbelow := hlow.resolve_left hi.ne'
        rwa [getD_shares hpos (by omega), Nat.sub_add_cancel hi] at hbelow
    have hless := (div_lt_div_iff_of_pos_right hpos).mp (hlow.trans_le hhigh)
    rw [List.sum_take_succ _ _ hlt] at hless
    rw [List.getD_eq_getElem _ _ hlt]
    exact pos_of_lt_add_right hless

end Discrete

/-- A source whose coin is always one: its draws are the last index, and the last one that has
mass. -/
structure Topmost (K : Type) where

instance : Source (Topmost K) K where
  seed _ := ⟨⟩
  index top s := (some top, s)
  coin s := (1, s)
  pick := Discrete.draw fun s => (1, s)

instance : Source.HitsMass (Topmost K) where
  index_le h := (Option.some.inj h).ge
  pick_pos hm hsome := Discrete.mass_pos_of_draw (fun _ => one_pos) (fun _ => le_rfl)
    ((total_pos_iff hm).mpr hsome) _

namespace Seeding

/-! ### Values that are still missing -/

/-- The values of the rows of positive weight. -/
def heavyRows (x : Matrix K) (ws : List K) : Finset (List K) :=
  ((Finset.range x.rows).filter fun i => 0 < ws.getD i 0).image x.row

theorem mem_heavyRows {x : Matrix K} {ws : List K} {v : List K} :
    v ∈ heavyRows x ws ↔ ∃ i < x.rows, 0 < ws.getD i 0 ∧ x.row i = v := by
  simp only [heavyRows, Finset.mem_image, Finset.mem_filter, Finset.mem_range, and_assoc]

/-- After some picks another one has positive weight and a new value, if there is such a row. -/
def SpreadAfter (x : Matrix K) (ws : List K) (is : List ℕ) (i : ℕ) : Prop :=
  (∃ h < x.rows, 0 < ws.getD h 0 ∧ ∀ l ∈ is, x.row h ≠ x.row l) →
    0 < ws.getD i 0 ∧ ∀ l ∈ is, x.row i ≠ x.row l

/-- A value is repeated only where every row of positive weight coincides with a pick. -/
theorem SpreadAfter.covered {x : Matrix K} {ws : List K} {is : List ℕ} {i : ℕ}
    (h : SpreadAfter x ws is i) (hrepeats : ∃ l ∈ is, x.row i = x.row l) :
    ∀ r < x.rows, 0 < ws.getD r 0 → ∃ l ∈ is, x.row r = x.row l := by
  intro r hr hpos
  by_contra hnone
  obtain ⟨l, hl, heq⟩ := hrepeats
  exact (h ⟨r, hr, hpos, fun l hl heq => hnone ⟨l, hl, heq⟩⟩).2 l hl heq

/-- Picks of which each is spread from those before bring a new value as long as one is missing. -/
theorem newWhileMissing_of_spread {x : Matrix K} {ws : List K} {is : List ℕ}
    (h : EachAfter (SpreadAfter x ws) is) (hlt : ∀ i ∈ is, i < x.rows) :
    NewWhileMissing (heavyRows x ws) (is.map x.row) := by
  refine h.map fun before i hi hspread hmissing => ?_
  obtain ⟨v, hv, hout⟩ := hmissing
  obtain ⟨r, hr, hpos, rfl⟩ := mem_heavyRows.mp hv
  have hnew : ∀ l ∈ before, x.row r ≠ x.row l := fun l hl heq =>
    hout (heq ▸ List.mem_map_of_mem hl)
  obtain ⟨hweight, hdiffers⟩ := hspread ⟨r, hr, hpos, hnew⟩
  refine ⟨mem_heavyRows.mpr ⟨i, hlt i hi, hweight, rfl⟩, fun hmem => ?_⟩
  obtain ⟨l, hl, heq⟩ := List.mem_map.mp hmem
  exact hdiffers l hl heq.symm

/-- An index that has a positive product of weight and gap, if one has, is spread from the picks
before. -/
theorem spreadAfter_of_mass {x : Matrix K} {ws gaps : List K} {is : List ℕ} {i : ℕ}
    (hfull : x.Full) (his : ∀ l ∈ is, l < x.rows) (hw : ∀ w ∈ ws, 0 ≤ w)
    (hgaps : LeastGaps x is gaps)
    (hi : (∃ m ∈ List.zipWith (· * ·) ws gaps, 0 < m) →
      0 < (List.zipWith (· * ·) ws gaps).getD i 0) : SpreadAfter x ws is i := by
  rintro ⟨r, hr, hweight, hnew⟩
  obtain ⟨w, hwr, hwpos⟩ := getD_pos_iff.mp hweight
  obtain ⟨gap, hgap⟩ : ∃ gap, gaps[r]? = some gap :=
    ⟨_, List.getElem?_eq_getElem (by rwa [hgaps.length])⟩
  have hgpos : 0 < gap := by
    refine lt_of_le_of_ne (hgaps.nonneg hgap) fun hzero => ?_
    obtain ⟨l, hl, hdist⟩ := hgaps.exists_eq hgap
    rw [← hzero] at hdist
    exact hnew l hl (eq_of_sqDist_eq_zero (Matrix.length_row hfull hr)
      (Matrix.length_row hfull (his l hl)) hdist)
  have hmass : (List.zipWith (· * ·) ws gaps)[r]? = some (w * gap) :=
    List.getElem?_zipWith_eq_some.mpr ⟨w, gap, hwr, hgap, rfl⟩
  obtain ⟨m, hm, hmpos⟩ := getD_pos_iff.mp
    (hi ⟨w * gap, List.mem_of_getElem? hmass, mul_pos hwpos hgpos⟩)
  obtain ⟨w', gap', hw', hgap', rfl⟩ := List.getElem?_zipWith_eq_some.mp hm
  have hw'pos : 0 < w' :=
    lt_of_le_of_ne (hw w' (List.mem_of_getElem? hw')) (left_ne_zero_of_mul hmpos.ne').symm
  refine ⟨getD_pos_iff.mpr ⟨w', hw', hw'pos⟩, fun l hl heq => ?_⟩
  rw [hgaps.eq_zero hgap' hl heq, mul_zero] at hmpos
  exact absurd hmpos (lt_irrefl 0)

section Greedy

variable {σ : Type} [Source σ K] [Source.HitsMass σ]

theorem yields_proportional_pos {mass : List K} (hm : ∀ m ∈ mass, 0 ≤ m) (hne : mass ≠ []) :
    Yields (proportional mass : Seeding σ K ℕ) fun i =>
      i < mass.length ∧ ((∃ m ∈ mass, 0 < m) → 0 < mass.getD i 0) := by
  have hlength := List.length_pos_iff.mpr hne
  rw [proportional_exact]
  by_cases htotal : 0 < total mass
  · rw [if_pos htotal]
    rintro s i ⟨⟩
    have hpos := Source.HitsMass.pick_pos (s := s.source) hm ((total_pos_iff hm).mp htotal)
    obtain ⟨m, hm, -⟩ := getD_pos_iff.mp hpos
    exact ⟨(List.getElem?_eq_some_iff.mp hm).1, fun _ => hpos⟩
  · rw [if_neg htotal]
    refine yields_index_of fun s i hi => ⟨?_, fun hsome => ?_⟩
    · exact (Source.HitsMass.index_le hi).trans_lt (lastIndex_lt hlength)
    · exact absurd ((total_pos_iff hm).mpr hsome) htotal

/-- What is known of the picks after each one. -/
structure Spreading (x : Matrix K) (ws : List K) (k : ℕ) (s : Picks K) : Prop where
  picks : PicksOf x.rows k s
  gaps : LeastGaps x s.indices s.gaps
  spread : EachAfter (SpreadAfter x ws) s.indices

variable {x : Matrix K} {ws : List K} (hfull : x.Full) (hx : 0 < x.rows)
  (hlen : ws.length = x.rows) (hw : ∀ w ∈ ws, 0 ≤ w)
include hfull hx hlen hw

omit hfull in
theorem yields_spreading_firstPick :
    Yields (firstPick x ws : Seeding σ K (Picks K)) (Spreading x ws 1) := by
  have hne : ws ≠ [] := List.length_pos_iff.mp (hlen.symm ▸ hx)
  unfold firstPick
  refine (yields_proportional_pos hw hne).bind fun i hi => yields_pure ?_
  obtain ⟨hlt, hpos⟩ := hi
  rw [hlen] at hlt
  have hgaps := LeastGaps.single x i
  refine ⟨⟨⟨rfl, by simpa using hlt⟩, hgaps.length⟩, hgaps, eachAfter_singleton.mpr ?_⟩
  rintro ⟨r, -, hweight, -⟩
  obtain ⟨w, hwr, hwpos⟩ := getD_pos_iff.mp hweight
  exact ⟨hpos ⟨w, List.mem_of_getElem? hwr, hwpos⟩, nofun⟩

/-- One more pick is spread from those before. -/
theorem yields_spreading_nextPick {k : ℕ} {s : Picks K} (hs : Spreading x ws k s) :
    Yields (nextPick x ws s : Seeding σ K (Picks K)) (Spreading x ws (k + 1)) := by
  have hlt := hs.picks.indices.lt
  have hlength : (List.zipWith (· * ·) ws s.gaps).length = x.rows := by
    rw [List.length_zipWith, hlen, hs.gaps.length, Nat.min_self]
  have hne : List.zipWith (· * ·) ws s.gaps ≠ [] := List.length_pos_iff.mp (hlength.symm ▸ hx)
  have hnonneg : ∀ m ∈ List.zipWith (· * ·) ws s.gaps, 0 ≤ m := by
    intro m hm
    obtain ⟨i, hi⟩ := List.mem_iff_getElem?.mp hm
    obtain ⟨w, gap, hwi, hgi, rfl⟩ := List.getElem?_zipWith_eq_some.mp hi
    exact mul_nonneg (hw w (List.mem_of_getElem? hwi)) (hs.gaps.nonneg hgi)
  unfold nextPick
  refine (yields_proportional_pos hnonneg hne).bind fun i hi => yields_pure ?_
  obtain ⟨hi, hpos⟩ := hi
  rw [hlength] at hi
  have hgaps := hs.gaps.close (numberDistances x) hlt hi
  refine ⟨⟨hs.picks.indices.append ⟨rfl, by simpa using hi⟩, hgaps.length⟩, hgaps, ?_⟩
  exact eachAfter_concat.mpr ⟨hs.spread, spreadAfter_of_mass hfull hlt hw hs.gaps hpos⟩

end Greedy

/-- The weights of valid data are the weights that rows are picked by. -/
theorem pickWeights_eq {x : Matrix K} {weights : Option (List K)}
    (hlength : ∀ ws ∈ weights, ws.length = x.rows) :
    pickWeights x weights = weightsFor weights x.rows ∧
      (weightsFor weights x.rows).length = x.rows := by
  have hlen := length_weightsFor hlength
  exact ⟨List.take_of_length_le hlen.le, hlen⟩

/-- Greedy seeding returns picks of which each is spread from those before. -/
theorem yields_spread_plusPlus {σ : Type} [Source σ K] [Source.HitsMass σ] [Memory] {x : Matrix K}
    {weights : Option (List K)} (hfull : x.Full) (hx : 0 < x.rows)
    (hlength : ∀ ws ∈ weights, ws.length = x.rows) (hw : ∀ ws ∈ weights, ∀ w ∈ ws, 0 ≤ w) {k : ℕ}
    (hk : 1 ≤ k) :
    Yields (plusPlus x weights k : Seeding σ K (Matrix K)) fun c =>
      ∃ is, c = x.pick is ∧ RowIndices x.rows k is ∧
        EachAfter (SpreadAfter x (weightsFor weights x.rows)) is := by
  obtain ⟨hweights, hlen⟩ := pickWeights_eq hlength
  have hnonneg := Kernel.weightsFor_nonneg hw x.rows
  unfold plusPlus
  rw [hweights]
  refine yields_andThen fun _ => yields_andThen fun _ =>
    (yields_spreading_firstPick hx hlen hnonneg).bind fun first hfirst => yields_andThen fun _ =>
      (yields_morePicks_of (fun k s hs => yields_spreading_nextPick hfull hx hlen hnonneg hs)
        (k - 1) 1 hfirst).bind fun picks hpicks => yields_pure ?_
  rw [Nat.add_sub_cancel' hk] at hpicks
  rw [List.take_of_length_le hpicks.picks.indices.length.le]
  exact ⟨picks.indices, rfl, hpicks.picks.indices, hpicks.spread⟩

/-- Greedy seeding wastes no pick.  For rows with weights that are not negative it returns `k` of
the rows, unless memory is refused or the source gives up.  The first pick has positive weight if a
row has; a pick repeats a value only where each row of positive weight coincides with an earlier
pick; and the seeds have as many values of rows of positive weight as there are, or `k` of them. -/
theorem plusPlus_spread {σ : Type} [Source σ K] [Source.HitsMass σ] [Memory] (x : Matrix K)
    (weights : Option (List K)) (hfull : x.Full) (hx : 0 < x.rows)
    (hlength : ∀ ws ∈ weights, ws.length = x.rows) (hw : ∀ ws ∈ weights, ∀ w ∈ ws, 0 ≤ w) {k : ℕ}
    (hk : 1 ≤ k) (s : Session σ K) :
    (∃ is, ((plusPlus x weights k).run s).1 = .ok (x.pick is) ∧ RowIndices x.rows k is ∧
      (x.pick is).rowList = is.map x.row ∧
      (∀ i, is[0]? = some i → (∃ r < x.rows, 0 < (weightsFor weights x.rows).getD r 0) →
        0 < (weightsFor weights x.rows).getD i 0) ∧
      (∀ p i, is[p]? = some i → (∃ l ∈ is.take p, x.row i = x.row l) →
        ∀ r < x.rows, 0 < (weightsFor weights x.rows).getD r 0 →
          ∃ l ∈ is.take p, x.row r = x.row l) ∧
      min k (heavyRows x (weightsFor weights x.rows)).card ≤
        ((x.pick is).rowList.toFinset ∩ heavyRows x (weightsFor weights x.rows)).card) ∨
    ∃ f, ((plusPlus x weights k).run s).1 = .error f ∧
      (Source.GivesUp σ ∧ f = .stalled ∨
        Memory.storage (Scalar.bytes K) (sizeWord (k * x.cols)) = .error f ∨
        Memory.storage (Scalar.bytes K) x.rows = .error f) := by
  have hfails : Fails (plusPlus x weights k : Seeding σ K (Matrix K)) fun f =>
      Source.GivesUp σ ∧ f = .stalled ∨
        Memory.storage (Scalar.bytes K) (sizeWord (k * x.cols)) = .error f ∨
        Memory.storage (Scalar.bytes K) x.rows = .error f :=
    fails_plusPlus (fun h => Or.inl ⟨h, rfl⟩) (fun f hf => Or.inr (Or.inl hf))
      (fun f hf => Or.inr (Or.inr hf)) weights
  rcases (yields_spread_plusPlus hfull hx hlength hw hk).or_fails hfails s with
    ⟨_, ⟨is, rfl, his, hspread⟩, hrun⟩ | ⟨f, hf, hrun⟩
  · have hrows := Matrix.rowList_pick hfull his.lt
    refine Or.inl ⟨is, hrun, his, hrows, fun i hi hsome => ?_,
      fun p i hi hrepeats => (hspread p i hi).covered hrepeats, ?_⟩
    · obtain ⟨r, hr, hpos⟩ := hsome
      exact (hspread 0 i hi ⟨r, hr, hpos, nofun⟩).1
    · rw [hrows, (newWhileMissing_of_spread hspread his.lt).card_inter, List.length_map, his.length]
  · exact Or.inr ⟨f, hrun, hf⟩

/-! ### Points of which two coincide -/

namespace Repeated

/-- Four points, of which two coincide and the last has no weight. -/
def points : Matrix ℚ := ⟨4, 1, [1, 1, 4, 9]⟩

def weights : Option (List ℚ) := some [2, 1, 3, 0]

/-- Nothing is recorded yet. -/
def session : Session (Topmost ℚ) ℚ := ⟨⟨⟩, []⟩

end Repeated

open Repeated in
/-- Two picks cover all weight, and the third one is the point without weight. -/
theorem plusPlus_spread_repeated :
    ((plusPlus points weights 3).run session).1 = .ok ⟨3, 1, [4, 1, 9]⟩ ∧
      heavyRows points [2, 1, 3, 0] = {[1], [4]} ∧
      ∃ is, points.pick is = ⟨3, 1, [4, 1, 9]⟩ ∧
        2 ≤ ((points.pick is).rowList.toFinset ∩ heavyRows points [2, 1, 3, 0]).card := by
  have hrun : ((plusPlus points weights 3).run session).1 = .ok ⟨3, 1, [4, 1, 9]⟩ := by
    decide +kernel
  have hheavy : heavyRows points [2, 1, 3, 0] = {[1], [4]} := by decide +kernel
  rcases plusPlus_spread points weights (by decide) (by decide) (by rintro ws ⟨⟩; rfl)
      (by rintro ws ⟨⟩; decide) (k := 3) (by decide) session with
    ⟨is, hpicks, -, -, -, -, hcard⟩ | ⟨f, hfails, -⟩
  · rw [hrun] at hpicks
    rw [weights, weightsFor, Option.getD_some, hheavy] at hcard
    exact ⟨hrun, hheavy, is, (Except.ok.inj hpicks).symm, hheavy ▸ hcard⟩
  · rw [hrun] at hfails
    cases hfails

end Seeding

end Clustering
