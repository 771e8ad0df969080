import Clustering.Proofs.Lloyd.Descent
import Clustering.Proofs.Seeding.Starts

/-!
# Gaps are kept up to date

Seeding carries a gap for each row, the squared distance to the nearest row chosen so far, and after
each choice compares the gap with the distances to the new rows only.  Of values in an order the
first least of two lists is the closer of the first least of each (`FirstLeast.append`), so that the
gaps are those that all rows chosen so far would give at once (`Seeding.LeastGaps`): in every round
of oversampling, and after every greedy pick (`Seeding.gaps_recomputed`).

In exact arithmetic gaps do not grow, so neither does the potential; and once it is zero a round
neither draws nor changes anything.
-/

namespace Clustering

open Scalar

/-! ### The first least of two lists -/

section FirstLeast

variable {α : Type} [Scalar α]

/-- There is one first least value. -/
theorem FirstLeast.unique {vs : List α} {j j' : ℕ} {d d' : α} (h : FirstLeast vs j d)
    (h' : FirstLeast vs j' d') : d = d' := by
  rcases Nat.lt_trichotomy j j' with hlt | heq | hgt
  · exact absurd (h'.first h.get hlt) (h.least h'.get)
  · subst heq
    exact Option.some.inj (h.get.symm.trans h'.get)
  · exact absurd (h.first h'.get hgt) (h'.least h.get)

/-- Of two lists the first least is the closer one of theirs. -/
theorem FirstLeast.append [Ordered α] {us vs : List α} {j j' : ℕ} {d d' : α}
    (h : FirstLeast us j d) (h' : FirstLeast vs j' d') (hus : ∀ u ∈ us, IsNumber u)
    (hvs : ∀ v ∈ vs, IsNumber v) : ∃ i, FirstLeast (us ++ vs) i (closer d d') := by
  have hd := hus d (List.mem_of_getElem? h.get)
  have hd' := hvs d' (List.mem_of_getElem? h'.get)
  have hlt := h.lt_length
  unfold closer
  by_cases hless : d' < d
  · rw [if_pos hless]
    -- a strictly smaller right side wins, and with it no entry of the left side can tie
    refine ⟨us.length + j', ?_, fun {i v} hv => ?_, fun {i v} hv hij => ?_⟩
    · rw [List.getElem?_append_right (Nat.le_add_right _ _), Nat.add_sub_cancel_left]
      exact h'.get
    · rcases Nat.lt_or_ge i us.length with hi | hi
      · rw [List.getElem?_append_left hi] at hv
        have hnum := hus v (List.mem_of_getElem? hv)
        exact Ordered.asymm (lt_of_lt_of_not_lt hnum hless (h.least hv))
      · rw [List.getElem?_append_right hi] at hv
        exact h'.least hv
    · rcases Nat.lt_or_ge i us.length with hi | hi
      · rw [List.getElem?_append_left hi] at hv
        exact lt_of_lt_of_not_lt (hus v (List.mem_of_getElem? hv)) hless (h.least hv)
      · rw [List.getElem?_append_right hi] at hv
        exact h'.first hv (by omega)
  · rw [if_neg hless]
    -- on a tie the left side keeps the lead: its index comes first
    refine ⟨j, ?_, fun {i v} hv => ?_, fun {i v} hv hij => ?_⟩
    · rw [List.getElem?_append_left hlt]
      exact h.get
    · rcases Nat.lt_or_ge i us.length with hi | hi
      · rw [List.getElem?_append_left hi] at hv
        exact h.least hv
      · rw [List.getElem?_append_right hi] at hv
        intro hvd
        rcases Ordered.lt_or_lt hd' hvd with hvd' | hd'd
        · exact h'.least hv hvd'
        · exact hless hd'd
    · rw [List.getElem?_append_left (hij.trans hlt)] at hv
      exact h.first hv hij

end FirstLeast

/-! ### Sweeps over some of the rows -/

namespace Kernel

variable {α : Type} [Scalar α] [Memory]

/-- The buffers of the direct metric do not depend on the number of centroids. -/
theorem sweepBuffers_direct (e : Kernel) (n k k' : ℕ) :
    e.direct.sweepBuffers α n k = e.direct.sweepBuffers α n k' := by
  have hmetric : e.direct.metric ≠ .expanded := nofun
  simp only [sweepBuffers, normBuffers, if_neg hmetric]

/-- If a sweep over some rows is admitted, so is one over any others within the index limit. -/
theorem admission_direct_pick {e : Kernel} {x : Matrix α} {is js : List ℕ}
    (h : e.direct.admission x (x.pick is) = .ok ()) (hne : js ≠ [])
    (hlimit : js.length ≤ indexLimit) : e.direct.admission x (x.pick js) = .ok () := by
  obtain ⟨u, hshapes, hbuffers⟩ := exists_of_bind_ok h
  have hshapes' : checkShapes "nearest" x (x.pick js) = .ok () := by
    have hrows := List.length_pos_iff.mpr hne
    unfold checkShapes at hshapes ⊢
    rw [Matrix.rows_pick, Matrix.cols_pick] at hshapes ⊢
    split_ifs at hshapes with hnone hcols hwidth hindex
    rw [if_neg (by omega), if_neg hcols, if_neg hwidth, if_neg (by omega)]
  unfold admission
  rw [hshapes', e.sweepBuffers_direct x.rows (x.pick js).rows (x.pick is).rows]
  exact hbuffers

end Kernel

/-! ### Gaps to the rows chosen so far -/

/-- All squared distances between rows are numbers. -/
def Matrix.NumberDistances {α : Type} [Scalar α] (x : Matrix α) : Prop :=
  ∀ i < x.rows, ∀ l < x.rows, IsNumber (sqDist (x.row i) (x.row l))

namespace Seeding

variable {α : Type} [Scalar α]

/-- The squared distances from a row to some rows. -/
def rowDists (x : Matrix α) (is : List ℕ) (i : ℕ) : List α :=
  is.map fun l => sqDist (x.row i) (x.row l)

/-- The gap of each row is the least of its squared distances to some rows, and of equal ones the
first. -/
structure LeastGaps (x : Matrix α) (is : List ℕ) (gaps : List α) : Prop where
  length : gaps.length = x.rows
  least : ∀ {i : ℕ} {gap : α}, gaps[i]? = some gap → ∃ j, FirstLeast (rowDists x is i) j gap

namespace LeastGaps

variable {x : Matrix α} {is js : List ℕ} {gaps gaps' : List α}

theorem lt_rows (h : LeastGaps x is gaps) {i : ℕ} {gap : α} (hi : gaps[i]? = some gap) :
    i < x.rows := by
  have hlt := (List.getElem?_eq_some_iff.mp hi).1
  rwa [h.length] at hlt

/-- There is one list of gaps. -/
theorem unique (h : LeastGaps x is gaps) (h' : LeastGaps x is gaps') : gaps = gaps' := by
  have hlength : gaps.length = gaps'.length := h.length.trans h'.length.symm
  refine List.ext_getElem hlength fun i hi hi' => ?_
  obtain ⟨j, hj⟩ := h.least (List.getElem?_eq_getElem hi)
  obtain ⟨j', hj'⟩ := h'.least (List.getElem?_eq_getElem hi')
  exact hj.unique hj'

/-- Gaps that are computed from the rows, one by one. -/
theorem of_rows {f : List α → α}
    (h : ∀ i < x.rows, ∃ j, FirstLeast (rowDists x is i) j (f (x.row i))) :
    LeastGaps x is (x.rowList.map f) where
  length := by rw [List.length_map, Matrix.length_rowList]
  least {i gap} hgap := by
    rw [List.getElem?_map, Option.map_eq_some_iff] at hgap
    obtain ⟨v, hv, rfl⟩ := hgap
    have hi := (List.getElem?_eq_some_iff.mp hv).1
    rw [Matrix.length_rowList] at hi
    rw [x.getElem?_rowList hi, Option.some.injEq] at hv
    subst hv
    exact h i hi

section Ordered

variable [Ordered α]

theorem single (x : Matrix α) (l : ℕ) : LeastGaps x [l] (openGaps x.rowList (x.row l)) := by
  refine of_rows fun i _ =>
    ⟨0, rfl, fun {j v} hv => ?_, fun _ hij => absurd hij (Nat.not_lt_zero _)⟩
  have hmem := List.mem_of_getElem? hv
  rw [rowDists, List.map_singleton, List.mem_singleton] at hmem
  subst hmem
  exact not_lt_self _

variable (hnum : x.NumberDistances) (his : ∀ l ∈ is, l < x.rows)
include hnum his

omit [Ordered α] in
theorem isNumber_rowDists {i : ℕ} (hi : i < x.rows) : ∀ v ∈ rowDists x is i, IsNumber v := by
  intro v hv
  obtain ⟨l, hl, rfl⟩ := List.mem_map.mp hv
  exact hnum i hi l (his l hl)

/-- The gaps to more rows are the closer ones of the gaps to each part of them. -/
theorem append (h : LeastGaps x is gaps) (h' : LeastGaps x js gaps')
    (hjs : ∀ l ∈ js, l < x.rows) : LeastGaps x (is ++ js) (List.zipWith closer gaps gaps') where
  length := by rw [List.length_zipWith, h.length, h'.length, Nat.min_self]
  least {i gap} hgap := by
    rw [List.getElem?_zipWith_eq_some] at hgap
    obtain ⟨d, d', hd, hd', rfl⟩ := hgap
    obtain ⟨j, hj⟩ := h.least hd
    obtain ⟨j', hj'⟩ := h'.least hd'
    have hi := h.lt_rows hd
    rw [rowDists, List.map_append]
    exact hj.append hj' (isNumber_rowDists hnum his hi) (isNumber_rowDists hnum hjs hi)

/-- One more row closes the gaps. -/
theorem close (h : LeastGaps x is gaps) {l : ℕ} (hl : l < x.rows) :
    LeastGaps x (is ++ [l]) (closeGaps x.rowList gaps (x.row l)) := by
  have hclose : closeGaps x.rowList gaps (x.row l) =
      List.zipWith closer gaps (openGaps x.rowList (x.row l)) := by
    rw [closeGaps, openGaps, List.zipWith_map_right, List.zipWith_comm]
  rw [hclose]
  exact h.append hnum his (single x l) (by simpa using hl)

/-- What one scan over all of the rows finds are the gaps to them. -/
theorem among (hfull : x.Full) (hne : is ≠ []) :
    LeastGaps x is (x.rowList.map fun v => (Nearest.among (x.pick is).rowList v).dist) := by
  refine of_rows fun i hi => ⟨(Nearest.among (x.pick is).rowList (x.row i)).label, ?_⟩
  have hdists : (x.pick is).rowList.map (sqDist (x.row i)) = rowDists x is i := by
    rw [Matrix.rowList_pick hfull his, List.map_map]
    rfl
  have hscan := Lead.scan_firstLeast (by simpa [rowDists] using hne)
    (isNumber_rowDists hnum his hi)
  rw [← hdists] at hscan ⊢
  exact hscan

variable [Memory] [BlockProduct α] {e : Kernel}

/-- What a sweep with the direct metric returns are the gaps. -/
theorem nearest (hfull : x.Full) (hne : is ≠ []) {near : List (Nearest α)}
    (h : e.direct.nearest x (x.pick is) = .ok near) : LeastGaps x is (near.map (·.dist)) := by
  obtain ⟨-, rfl⟩ := Kernel.eq_answers_of_nearest h
  rw [e.direct.answers_direct nofun, List.map_map]
  exact among hnum his hfull hne

end Ordered

end LeastGaps

/-! ### Oversampling -/

section Oversampling

variable {σ ω : Type} [Scalar ω] [Widening α ω] [Memory] [BlockProduct α] {e : Kernel}
  {x : Matrix α} {ws : List ω} {expected : ω} {c c' : Candidates α}

/-- What is known of the candidates at every stage: what they are, the gaps to them, and that rows
may be compared with rows. -/
structure UpToDate (e : Kernel) (x : Matrix α) (c : Candidates α) : Prop where
  candidates : CandidatesOf x.rows c
  gaps : LeastGaps x c.indices c.gaps
  admits : ∃ is, e.direct.admission x (x.pick is) = .ok ()

variable [Ordered α] (hfull : x.Full) (hnum : x.NumberDistances)
include hfull hnum

/-- A round keeps the gaps up to date. -/
theorem RoundStep.upToDate (hstep : RoundStep e x ws expected c c') (h : UpToDate e x c) :
    UpToDate e x c' := by
  have hcandidates := hstep.candidatesOf h.candidates
  cases hstep with
  | skipped => exact ⟨hcandidates, h.gaps, h.admits⟩
  | sampled nonempty sublist fresh potential_pos won nearest =>
    have hlt : ∀ i ∈ _, i < x.rows := fun i hi => List.mem_range.mp (sublist.subset hi)
    refine ⟨hcandidates, ?_, h.admits⟩
    have hgaps := h.gaps.append hnum h.candidates.lt
      (LeastGaps.nearest hnum hlt hfull nonempty nearest) hlt
    rwa [List.zipWith_map_right] at hgaps

variable [Source σ ω] [Source.InRange σ] (hx : 0 < x.rows)
include hx

omit [Scalar ω] [Widening α ω] in
theorem yields_upToDate_firstCandidate :
    Yields (firstCandidate e x : Seeding σ ω (Candidates α)) (UpToDate e x) := by
  refine ((yields_firstCandidate hx e).and (yields_opening e x)).mono fun c h => ?_
  obtain ⟨hc, first, near, hnear, rfl⟩ := h
  refine ⟨hc, ?_, [first], (Kernel.eq_answers_of_nearest hnear).1⟩
  exact LeastGaps.nearest hnum hc.lt hfull hc.nonempty hnear

/-- At every stage the gaps are those that a sweep over all candidates would return. -/
theorem yields_gaps_candidatesAfter (e : Kernel) (weights : Option (List α)) (expected : ω)
    (t : ℕ) :
    Yields (candidatesAfter e x weights expected t : Seeding σ ω (Candidates α)) fun c =>
      UpToDate e x c ∧ (c.indices.length ≤ indexLimit →
        ∃ ns, e.direct.nearest x (x.pick c.indices) = .ok ns ∧ c.gaps = ns.map (·.dist)) := by
  have hstages : Yields (candidatesAfter e x weights expected t : Seeding σ ω (Candidates α))
      (UpToDate e x) :=
    yields_candidatesAfter (Q := fun _ => UpToDate e x)
      (yields_upToDate_firstCandidate hfull hnum hx)
      (fun t c c' hc hstep => hstep.upToDate hfull hnum hc) t
  refine hstages.mono fun c hc => ⟨hc, fun hlimit => ?_⟩
  obtain ⟨is, hadmits⟩ := hc.admits
  have hadm := Kernel.admission_direct_pick hadmits hc.candidates.nonempty hlimit
  have hnear : e.direct.nearest x (x.pick c.indices) =
      .ok (e.direct.answers x (x.pick c.indices)) := by
    rw [Kernel.nearest_eq, hadm]
    rfl
  exact ⟨_, hnear, hc.gaps.unique
    (LeastGaps.nearest hnum hc.candidates.lt hfull hc.candidates.nonempty hnear)⟩

end Oversampling

/-! ### Greedy seeding -/

section Greedy

variable {σ ω : Type} [Scalar ω] [Widening α ω] [Source σ ω]

/-- The picks after the first one and `t` more. -/
def picksAfter (x : Matrix α) (weights : List α) (t : ℕ) : Seeding σ ω (Picks α) := do
  let first ← firstPick x weights
  morePicks x weights t first

/-- Greedy seeding returns the rows that were picked. -/
theorem exists_picks_of_plusPlus [Memory] {x : Matrix α} {weights : Option (List α)} {k : ℕ}
    {s u : Session σ ω} {c : Matrix α} (h : (plusPlus x weights k).run s = (.ok c, u)) :
    ∃ picks, (picksAfter x (pickWeights x weights) (k - 1)).run s = (.ok picks, u) ∧
      c = x.pick (picks.indices.take k) := by
  unfold plusPlus at h
  obtain ⟨_, -, h⟩ := exists_of_run_attempt_bind h
  obtain ⟨_, -, h⟩ := exists_of_run_attempt_bind h
  obtain ⟨first, t, hfirst, h⟩ := exists_of_run_bind h
  obtain ⟨_, -, h⟩ := exists_of_run_attempt_bind h
  obtain ⟨picks, _, hmore, h⟩ := exists_of_run_bind h
  cases h
  refine ⟨picks, ?_, rfl⟩
  unfold picksAfter
  rw [run_bind_of_ok s hfirst]
  exact hmore

variable [Ordered α] [Source.InRange σ] {x : Matrix α} {weights : List α}
  (hnum : x.NumberDistances) (hw : weights ≠ []) (hlen : weights.length ≤ x.rows)
include hnum hw hlen

/-- Every pick keeps the gaps up to date. -/
theorem yields_gaps_nextPick {k : ℕ} {s : Picks α} (hs : PicksOf x.rows k s)
    (hgaps : LeastGaps x s.indices s.gaps) :
    Yields (nextPick x weights s : Seeding σ ω (Picks α)) fun s' =>
      PicksOf x.rows (k + 1) s' ∧ LeastGaps x s'.indices s'.gaps := by
  have hnext : Yields (nextPick x weights s : Seeding σ ω (Picks α)) fun s' =>
      ∃ i, s' = ⟨s.indices ++ [i], closeGaps x.rowList s.gaps (x.row i)⟩ :=
    yields_andThen fun i => yields_pure ⟨i, rfl⟩
  refine ((yields_nextPick hw hlen hs).and hnext).mono fun s' h => ?_
  obtain ⟨hs', i, rfl⟩ := h
  have hi : i < x.rows := hs'.indices.lt i (by simp)
  exact ⟨hs', hgaps.close hnum hs.indices.lt hi⟩

/-- After every pick the gaps are those to all picks so far. -/
theorem yields_gaps_picksAfter (t : ℕ) :
    Yields (picksAfter x weights t : Seeding σ ω (Picks α)) fun s =>
      PicksOf x.rows (1 + t) s ∧ LeastGaps x s.indices s.gaps := by
  have hfirst : Yields (firstPick x weights : Seeding σ ω (Picks α)) fun s =>
      ∃ i, s = ⟨[i], openGaps x.rowList (x.row i)⟩ := yields_andThen fun i => yields_pure ⟨i, rfl⟩
  refine ((yields_firstPick hw hlen).and hfirst).bind fun s h => ?_
  obtain ⟨hs, i, rfl⟩ := h
  exact yields_morePicks_of (Q := fun k s => PicksOf x.rows k s ∧ LeastGaps x s.indices s.gaps)
    (fun k s h => yields_gaps_nextPick hnum hw hlen h.1 h.2) t 1 ⟨hs, .single x i⟩

end Greedy

/-! ### The potential -/

section Exact

variable {K : Type} [ExactScalar K]

theorem closer_le (gap dist : K) : closer gap dist ≤ gap := by
  unfold closer
  by_cases h : dist < gap
  · rw [if_pos h]
    exact h.le
  · rw [if_neg h]

/-- Smaller gaps have a smaller potential. -/
theorem potential_mono {ws gaps gaps' : List K} (hw : ∀ w ∈ ws, 0 ≤ w)
    (h : List.Forall₂ (· ≤ ·) gaps' gaps) :
    Oversampling.potential ws gaps' ≤ Oversampling.potential ws gaps := by
  unfold Oversampling.potential
  rw [total_eq_sum, total_eq_sum]
  induction h generalizing ws with
  | nil => simp
  | @cons g' g gaps' gaps hg hrest ih =>
    cases ws with
    | nil => simp
    | cons w ws =>
      obtain ⟨hw0, hws⟩ := List.forall_mem_cons.mp hw
      rw [List.zipWith_cons_cons, List.zipWith_cons_cons, List.sum_cons, List.sum_cons]
      have hhead : w * g' ≤ w * g := mul_le_mul_of_nonneg_left hg hw0
      exact add_le_add hhead (ih hws)

theorem potential_eq_zero {ws gaps : List K}
    (h : ∀ (i : ℕ) (w g : K), ws[i]? = some w → gaps[i]? = some g → w * g = 0) :
    Oversampling.potential ws gaps = 0 := by
  unfold Oversampling.potential
  rw [total_eq_sum]
  refine List.sum_eq_zero fun v hv => ?_
  obtain ⟨i, hi⟩ := List.mem_iff_getElem?.mp hv
  rw [List.getElem?_zipWith_eq_some] at hi
  obtain ⟨w, g, hw, hg, rfl⟩ := hi
  exact h i w g hw hg

/-- A gap is the squared distance to one of the rows. -/
theorem LeastGaps.exists_eq {x : Matrix K} {is : List ℕ} {gaps : List K}
    (h : LeastGaps x is gaps) {i : ℕ} {gap : K} (hgap : gaps[i]? = some gap) :
    ∃ l ∈ is, sqDist (x.row i) (x.row l) = gap := by
  obtain ⟨j, hj⟩ := h.least hgap
  exact List.mem_map.mp (List.mem_of_getElem? hj.get)

/-- No gap is larger than the squared distance to any of the rows. -/
theorem LeastGaps.le_sqDist {x : Matrix K} {is : List ℕ} {gaps : List K}
    (h : LeastGaps x is gaps) {i : ℕ} {gap : K} (hgap : gaps[i]? = some gap) {l : ℕ}
    (hl : l ∈ is) : gap ≤ sqDist (x.row i) (x.row l) := by
  obtain ⟨j, hj⟩ := h.least hgap
  obtain ⟨m, hm⟩ := List.mem_iff_getElem?.mp hl
  have hdist : (rowDists x is i)[m]? = some (sqDist (x.row i) (x.row l)) := by
    rw [rowDists, List.getElem?_map, hm, Option.map_some]
  exact not_lt.mp (hj.least hdist)

theorem LeastGaps.nonneg {x : Matrix K} {is : List ℕ} {gaps : List K} (h : LeastGaps x is gaps)
    {i : ℕ} {gap : K} (hgap : gaps[i]? = some gap) : 0 ≤ gap := by
  obtain ⟨l, -, rfl⟩ := h.exists_eq hgap
  exact sqDist_nonneg _ _

/-- The gap of a row that coincides with one of the rows is zero. -/
theorem LeastGaps.eq_zero {x : Matrix K} {is : List ℕ} {gaps : List K} (h : LeastGaps x is gaps)
    {i : ℕ} {gap : K} (hgap : gaps[i]? = some gap) {l : ℕ} (hl : l ∈ is)
    (heq : x.row i = x.row l) : gap = 0 := by
  have hle := h.le_sqDist hgap hl
  rw [← heq, sqDist_self] at hle
  exact le_antisymm hle (h.nonneg hgap)

theorem numberDistances (x : Matrix K) : x.NumberDistances := fun _ _ _ _ => Or.inl rfl

section Rounds

variable {σ : Type} [Source σ K] [Source.InRange σ] [Memory] {e : Kernel} {x : Matrix K}
  {weights : Option (List K)} {expected : K} {c c' : Candidates K}

omit [Source σ K] [Source.InRange σ] in
/-- A round does not widen a gap. -/
theorem RoundStep.gaps_le {ws : List K} (hstep : RoundStep e x ws expected c c')
    (hc : UpToDate e x c) (hc' : UpToDate e x c') : List.Forall₂ (· ≤ ·) c'.gaps c.gaps := by
  have hlength : c'.gaps.length = c.gaps.length :=
    hc'.gaps.length.trans hc.gaps.length.symm
  cases hstep with
  | skipped => exact List.forall₂_same.mpr fun g _ => le_rfl
  | sampled nonempty sublist fresh potential_pos won nearest =>
    refine List.forall₂_iff_get.mpr ⟨hlength, fun i hi hi' => ?_⟩
    rw [List.get_eq_getElem, List.get_eq_getElem, List.getElem_zipWith]
    exact closer_le _ _

end Rounds

end Exact

/-- Gaps that are kept up to date are those that would be computed anew.  If the distances between
rows are numbers, then before each round of oversampling and after the last one they are what a
sweep with the direct metric returns for all candidates so far, whatever the kernel; and after each
greedy pick they are the least distances to all picks so far.

In exact arithmetic and with weights that are not negative a round does not raise the potential.
Once every row of positive weight coincides with a candidate the potential is zero, and all further
rounds are skipped, with the source as it was. -/
theorem gaps_recomputed :
    (∀ {α σ ω : Type} [Scalar α] [Ordered α] [Scalar ω] [Widening α ω] [Source σ ω]
        [Source.InRange σ] [Memory] [BlockProduct α] {x : Matrix α} (weights : Option (List α)),
      x.Full → 0 < x.rows → x.NumberDistances → (∀ ws ∈ weights, ws.length = x.rows) →
        (∀ (e : Kernel) (expected : ω),
          (candidates e x weights expected : Seeding σ ω (Candidates α)) =
              candidatesAfter e x weights expected Oversampling.rounds ∧
            ∀ t, Yields (candidatesAfter e x weights expected t : Seeding σ ω (Candidates α))
              fun c => LeastGaps x c.indices c.gaps ∧ (c.indices.length ≤ indexLimit →
                ∃ ns, e.direct.nearest x (x.pick c.indices) = .ok ns ∧
                  c.gaps = ns.map (·.dist))) ∧
        (∀ t, Yields (picksAfter x (pickWeights x weights) t : Seeding σ ω (Picks α)) fun s =>
          s.indices.length = t + 1 ∧ LeastGaps x s.indices s.gaps) ∧
        ∀ (k : ℕ) (s u : Session σ ω) (c : Matrix α),
          (plusPlus x weights k).run s = (.ok c, u) →
            ∃ picks, (picksAfter x (pickWeights x weights) (k - 1)).run s = (.ok picks, u) ∧
              c = x.pick (picks.indices.take k)) ∧
    ∀ {K σ : Type} [ExactScalar K] [Source σ K] [Source.InRange σ] [Memory] {x : Matrix K}
        (weights : Option (List K)),
      x.Full → 0 < x.rows → (∀ ws ∈ weights, ∀ w ∈ ws, 0 ≤ w) →
        ∀ (e : Kernel) (expected : K) (t : ℕ) (s u : Session σ K) (c : Candidates K),
          (candidatesAfter e x weights expected t).run s = (.ok c, u) →
            (∀ c' u', (candidatesAfter e x weights expected (t + 1)).run s = (.ok c', u') →
              Oversampling.potential (weightsFor weights x.rows) c'.gaps ≤
                Oversampling.potential (weightsFor weights x.rows) c.gaps) ∧
            ((∀ i < x.rows, 0 < (weightsFor weights x.rows).getD i 0 →
                ∃ l ∈ c.indices, x.row i = x.row l) →
              Oversampling.potential (weightsFor weights x.rows) c.gaps = 0 ∧
                ∀ m, ∃ u', (candidatesAfter e x weights expected (t + m)).run s =
                    (.ok { c with skipped := c.skipped + m }, u') ∧ u'.source = u.source) := by
  constructor
  · intro α σ ω _ _ _ _ _ _ _ _ x weights hfull hx hnum hlength
    have hne : pickWeights x weights ≠ [] := by
      rw [← List.length_pos_iff, pickWeights, List.length_take]
      cases weights with
      | none => simpa using hx
      | some ws => simpa [hlength ws rfl] using hx
    refine ⟨fun e expected => ⟨rfl, fun t => ?_⟩, fun t => ?_, fun k s u c h => ?_⟩
    · exact (yields_gaps_candidatesAfter hfull hnum hx e weights expected t).mono
        fun c h => ⟨h.1.gaps, h.2⟩
    · have hpicks := yields_gaps_picksAfter (σ := σ) (ω := ω) hnum hne
        (length_pickWeights_le x weights) t
      exact hpicks.mono fun s h => ⟨h.1.indices.length.trans (Nat.add_comm 1 t), h.2⟩
    · exact exists_picks_of_plusPlus h
  · intro K σ _ _ _ _ x weights hfull hx hw e expected t s u c hrun
    have hweights := Kernel.weightsFor_nonneg hw x.rows
    -- what holds at every stage: the gaps are up to date with the candidates so far
    have hstage : ∀ {t' c' v}, (candidatesAfter e x weights expected t').run s = (.ok c', v) →
        UpToDate e x c' := fun {t' c'} v h =>
      (yields_gaps_candidatesAfter hfull (numberDistances x) hx e weights expected t' s c'
        (congrArg Prod.fst h)).1
    have hc := hstage hrun
    refine ⟨fun c' u' hrun' => ?_, fun hcovered => ?_⟩
    · -- a source determines the stages, so that the round before this one is the given one
      obtain ⟨c₀, u₀, hrun₀, hstep⟩ := exists_round hrun'
      rw [hrun] at hrun₀
      cases hrun₀
      exact potential_mono hweights (hstep.gaps_le hc (hstage hrun'))
    · have hzero : Oversampling.potential (weightsFor weights x.rows) c.gaps = 0 := by
        refine potential_eq_zero fun i w g hwi hgi => ?_
        -- a row with weight lies at a candidate and has no gap; one without adds nothing
        by_cases hpos : 0 < w
        · have hget : (weightsFor weights x.rows).getD i 0 = w := by
            rw [List.getD_eq_getElem?_getD, hwi, Option.getD_some]
          obtain ⟨l, hl, heq⟩ := hcovered i (hc.gaps.lt_rows hgi) (hget.symm ▸ hpos)
          rw [hc.gaps.eq_zero hgi hl heq, mul_zero]
        · have hw0 := hweights w (List.mem_of_getElem? hwi)
          rw [le_antisymm (not_lt.mp hpos) hw0, zero_mul]
      -- a round is skipped without a draw as soon as the potential is not positive
      refine ⟨hzero, run_candidatesAfter_add hrun ?_⟩
      rw [rowWeights_eq, hzero]
      exact lt_irrefl 0

/-! ### Rows that coincide -/

namespace Coincident

/-- Two rows that coincide, and one without weight. -/
def points : Matrix ℚ := ⟨3, 1, [0, 0, 2]⟩

def weights : Option (List ℚ) := some [1, 2, 0]

def kernel : Kernel := ⟨.expanded, 2, 1, Nat.two_pos⟩

/-- Nothing is drawn yet, and nothing recorded. -/
def session : Session (Counter ℚ) ℚ := ⟨⟨0⟩, []⟩

end Coincident

open Coincident in
/-- The first row drawn covers all weight, so that eight rounds are skipped; and the second greedy
pick leaves the gaps as they are. -/
theorem gaps_recomputed_coincident :
    (∃ c u, (candidatesAfter kernel points weights 2 0).run session = (.ok c, u) ∧
      c.gaps = [0, 0, 4] ∧ LeastGaps points c.indices c.gaps ∧
      (∃ ns, kernel.direct.nearest points (points.pick c.indices) = .ok ns ∧
        c.gaps = ns.map (·.dist)) ∧
      Oversampling.potential [1, 2, 0] c.gaps = 0 ∧
      ∃ u', (candidatesAfter kernel points weights 2 8).run session =
        (.ok { c with skipped := 8 }, u') ∧ u'.source = u.source) ∧
    ∃ picks, ((picksAfter points [1, 2, 0] 1).run session).1 = .ok picks ∧
      picks.gaps = [0, 0, 4] ∧ LeastGaps points picks.indices picks.gaps := by
  have hfull : points.Full := by decide
  have hrun : ((candidatesAfter kernel points weights 2 0).run session).1 =
      .ok ⟨[0], [0, 0, 4], 0, 0⟩ := by decide +kernel
  have hpicks : ((picksAfter points [1, 2, 0] 1).run session).1 =
      .ok ⟨[0, 1], [0, 0, 4]⟩ := by decide +kernel
  obtain ⟨hstages, hgreedy, -⟩ := gaps_recomputed.1 (σ := Counter ℚ) (ω := ℚ) weights
    hfull (by decide) (numberDistances points) (by rintro ws ⟨⟩; rfl)
  obtain ⟨hgaps, hnear⟩ := (hstages kernel 2).2 0 session _ hrun
  obtain ⟨-, hcovered⟩ := gaps_recomputed.2 (σ := Counter ℚ) weights hfull (by decide)
    (by rintro ws ⟨⟩; decide) kernel 2 0 session _ _ (Prod.ext hrun rfl)
  obtain ⟨hzero, hskipped⟩ := hcovered (by decide +kernel)
  obtain ⟨u', hu', hsource⟩ := hskipped 8
  exact ⟨⟨_, _, Prod.ext hrun rfl, rfl, hgaps, hnear (by decide), hzero, u', hu', hsource⟩,
    _, hpicks, rfl, (hgreedy 1 session _ hpicks).2⟩

end Seeding

end Clustering
