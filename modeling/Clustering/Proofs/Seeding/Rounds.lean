import Clustering.Proofs.Seeding.Agreement
import Mathlib.Data.List.Perm.Subperm

/-!
# Rounds of oversampling

Oversampling opens with one row (`Seeding.yields_opening`) and goes from candidates to candidates, a
round at a time.  `Seeding.RoundStep` is everything that a round may do: nothing, or a list of new
rows is added that have all won their toss (`Seeding.yields_roundStep`).  `Seeding.candidatesAfter`
is where oversampling stands after some of its rounds.  What its opening has and every round keeps
holds there (`Seeding.yields_candidatesAfter`), and a run that has returned after one more round
returned after the rounds before as well (`Seeding.exists_round`).
-/

namespace Clustering.Seeding

open Oversampling

variable {α σ ω : Type} [Scalar α] [Scalar ω] [Widening α ω]

/-! ### Candidates and what a round may do -/

/-- There is a candidate, and the candidates are distinct row indices. -/
structure CandidatesOf (n : ℕ) (c : Candidates α) : Prop where
  nonempty : c.indices ≠ []
  lt : ∀ i ∈ c.indices, i < n
  nodup : c.indices.Nodup

omit [Scalar α] in
/-- Candidates are no more than there are rows. -/
theorem CandidatesOf.length_le {n : ℕ} {c : Candidates α} (h : CandidatesOf n c) :
    c.indices.length ≤ n := by
  have hsub : c.indices ⊆ List.range n := fun i hi => List.mem_range.mpr (h.lt i hi)
  simpa using (List.subperm_of_subset h.nodup hsub).length_le

/-- What one round may make of the candidates.  It skips them; or, if there is a potential, it adds
rows in their order that are new, have a gap and a chance, and closes the gaps to them. -/
inductive RoundStep [Memory] [BlockProduct α] (e : Kernel) (x : Matrix α) (weights : List ω)
    (expected : ω) (c : Candidates α) : Candidates α → Prop
  | skipped : RoundStep e x weights expected c { c with skipped := c.skipped + 1 }
  | sampled {found : List ℕ} {near : List (Nearest α)} (nonempty : found ≠ [])
      (sublist : found.Sublist (List.range x.rows)) (fresh : ∀ i ∈ found, i ∉ c.indices)
      (potential_pos : 0 < potential weights c.gaps)
      (won : ∀ i ∈ found, ∃ w gap, weights[i]? = some w ∧ c.gaps[i]? = some gap ∧ ¬ gap ≤ 0 ∧
        0 < chance expected (potential weights c.gaps) w gap)
      (nearest : e.direct.nearest x (x.pick found) = .ok near) :
      RoundStep e x weights expected c
        ⟨c.indices ++ found, List.zipWith (fun gap n => closer gap n.dist) c.gaps near,
          c.sampled + 1, c.skipped⟩

/-- A round keeps the candidates distinct row indices. -/
theorem RoundStep.candidatesOf [Memory] [BlockProduct α] {e : Kernel} {x : Matrix α}
    {weights : List ω} {expected : ω} {c c' : Candidates α}
    (h : RoundStep e x weights expected c c') (hc : CandidatesOf x.rows c) :
    CandidatesOf x.rows c' := by
  cases h with
  | skipped => exact ⟨hc.nonempty, hc.lt, hc.nodup⟩
  | sampled nonempty sublist fresh potential_pos won nearest =>
    have hlt : ∀ i ∈ _, i < x.rows := fun i hi => List.mem_range.mp (sublist.subset hi)
    have hnodup := List.nodup_range.sublist sublist
    refine ⟨fun h => hc.nonempty (List.append_eq_nil_iff.mp h).1,
      List.forall_mem_append.mpr ⟨hc.lt, hlt⟩, List.nodup_append.mpr ⟨hc.nodup, hnodup, ?_⟩⟩
    intro i hi j hj hij
    subst hij
    exact fresh i hj hi

/-! ### What a round does -/

theorem sublist_map_fst_zip {β γ : Type} : ∀ (us : List β) (vs : List γ),
    ((us.zip vs).map (·.1)).Sublist us
  | [], _ => List.Sublist.slnil
  | _ :: _, [] => List.nil_sublist _
  | u :: us, _ :: vs => (sublist_map_fst_zip us vs).cons_cons u

omit [Scalar α] [Scalar ω] [Widening α ω] in
/-- Rows stand in the list of indices, weights and gaps at their indices. -/
theorem getElem?_of_mem_zip_range {n i : ℕ} {ws : List ω} {gaps : List α} {w : ω} {gap : α}
    (h : (i, w, gap) ∈ (List.range n).zip (ws.zip gaps)) :
    ws[i]? = some w ∧ gaps[i]? = some gap := by
  obtain ⟨j, hj⟩ := List.mem_iff_getElem?.mp h
  rw [List.getElem?_zip_eq_some] at hj
  obtain ⟨hrange, hpair⟩ := hj
  rw [List.getElem?_zip_eq_some] at hpair
  obtain ⟨hlt, heq⟩ := List.getElem?_eq_some_iff.mp hrange
  rw [List.getElem_range] at heq
  subst heq
  exact hpair

variable [Source σ ω]

/-- The rows that win their toss are some of those that toss, in their order.  They are new, and
have a gap and a chance. -/
theorem yields_tossRows (expected potential : ω) (taken : List ℕ) :
    ∀ rows : List (ℕ × ω × α),
      Yields (tossRows expected potential taken rows : Seeding σ ω (List ℕ)) fun found =>
        found.Sublist (rows.map (·.1)) ∧ ∀ i ∈ found, i ∉ taken ∧ ∃ w gap, (i, w, gap) ∈ rows ∧
          ¬ gap ≤ 0 ∧ 0 < chance expected potential w gap
  | [] => yields_pure ⟨List.Sublist.slnil, nofun⟩
  | (i, weight, gap) :: rows => by
    have ih := yields_tossRows expected potential taken rows
    have hlater : ∀ {found : List ℕ}, (∀ j ∈ found, j ∉ taken ∧ ∃ w g, (j, w, g) ∈ rows ∧
        ¬ g ≤ 0 ∧ 0 < chance expected potential w g) →
          ∀ j ∈ found, j ∉ taken ∧ ∃ w g, (j, w, g) ∈ (i, weight, gap) :: rows ∧
            ¬ g ≤ 0 ∧ 0 < chance expected potential w g := by
      intro found h j hj
      obtain ⟨hnew, w, g, hmem, hwon⟩ := h j hj
      exact ⟨hnew, w, g, List.mem_cons_of_mem _ hmem, hwon⟩
    unfold tossRows
    by_cases hgap : gap ≤ 0
    · rw [if_pos hgap]
      exact ih.mono fun found h => ⟨h.1.cons i, hlater h.2⟩
    · rw [if_neg hgap]
      dsimp only
      by_cases hchance : 0 < chance expected potential weight gap
      · rw [if_pos hchance]
        refine yields_andThen fun u => ih.bind fun later h => yields_pure ?_
        -- only here is a row found; the other branches leave the list of the later rows as it is
        by_cases hwin : u < chance expected potential weight gap ∧ i ∉ taken
        · rw [if_pos hwin]
          exact ⟨h.1.cons_cons i, List.forall_mem_cons.mpr
            ⟨⟨hwin.2, weight, gap, List.mem_cons_self, hgap, hchance⟩, hlater h.2⟩⟩
        · rw [if_neg hwin]
          exact ⟨h.1.cons i, hlater h.2⟩
      · rw [if_neg hchance]
        exact ih.mono fun found h => ⟨h.1.cons i, hlater h.2⟩

/-- What a round finds are row indices in order.  They are new, and the round has a potential, in
which each of them has a part. -/
theorem yields_foundRows (n : ℕ) (ws : List ω) (expected : ω) (c : Candidates α) :
    Yields (foundRows n ws expected c : Seeding σ ω (List ℕ)) fun found =>
      found.Sublist (List.range n) ∧ ∀ i ∈ found, i ∉ c.indices ∧ 0 < potential ws c.gaps ∧
        ∃ w gap, ws[i]? = some w ∧ c.gaps[i]? = some gap ∧ ¬ gap ≤ 0 ∧
          0 < chance expected (potential ws c.gaps) w gap := by
  unfold foundRows
  by_cases hphi : 0 < potential ws c.gaps
  · rw [if_pos hphi]
    refine (yields_tossRows _ _ _ _).mono fun found h => ?_
    refine ⟨h.1.trans (sublist_map_fst_zip _ _), fun i hi => ?_⟩
    obtain ⟨hnew, w, gap, hmem, hwon⟩ := h.2 i hi
    obtain ⟨hweight, hgap⟩ := getElem?_of_mem_zip_range hmem
    exact ⟨hnew, hphi, w, gap, hweight, hgap, hwon⟩
  · rw [if_neg hphi]
    exact yields_pure ⟨List.nil_sublist _, nofun⟩

variable [Memory] [BlockProduct α] (e : Kernel) (x : Matrix α) (ws : List ω) (expected : ω)

/-- A round makes of the candidates what it may. -/
theorem yields_roundStep (c : Candidates α) (number : ℕ) :
    Yields (sampleRound e x ws expected c number : Seeding σ ω (Candidates α))
      (RoundStep e x ws expected c) := by
  rw [sampleRound_eq]
  refine (yields_foundRows x.rows ws expected c).bind fun found hfound => ?_
  obtain ⟨hsub, hfound⟩ := hfound
  unfold joinRound
  by_cases hempty : found = []
  · rw [if_pos (List.isEmpty_iff.mpr hempty)]
    exact yields_andThen fun _ => yields_pure .skipped
  · rw [if_neg (mt List.isEmpty_iff.mp hempty)]
    obtain ⟨first, hfirst⟩ := List.exists_mem_of_ne_nil found hempty
    refine (yields_pick? x found).bind fun added hadded => ?_
    subst hadded
    refine (yields_attempt _).bind fun near hnear => yields_andThen fun _ => yields_pure ?_
    exact .sampled hempty hsub (fun i hi => (hfound i hi).1) (hfound first hfirst).2.1
      (fun i hi => (hfound i hi).2.2) hnear

theorem yields_sampleRound {c : Candidates α} (number : ℕ) (hc : CandidatesOf x.rows c) :
    Yields (sampleRound e x ws expected c number : Seeding σ ω (Candidates α))
      (CandidatesOf x.rows) :=
  (yields_roundStep e x ws expected c number).mono fun _ h => h.candidatesOf hc

omit [Scalar ω] [Widening α ω] in
/-- Oversampling opens with one row, and the distances of all rows to it. -/
theorem yields_opening :
    Yields (firstCandidate e x : Seeding σ ω (Candidates α)) fun c =>
      ∃ first near, e.direct.nearest x (x.pick [first]) = .ok near ∧
        c = ⟨[first], near.map (·.dist), 0, 0⟩ := by
  unfold firstCandidate
  refine yields_andThen fun first => yields_andThen fun _ =>
    (yields_pick? x [first]).bind fun start hstart => ?_
  subst hstart
  exact (yields_attempt _).bind fun near hnear => yields_pure ⟨first, near, hnear, rfl⟩

/-! ### Stages -/

/-- The candidates after `t` rounds. -/
def candidatesAfter (e : Kernel) (x : Matrix α) (weights : Option (List α)) (expected : ω)
    (t : ℕ) : Seeding σ ω (Candidates α) := do
  let first ← firstCandidate e x
  sampleRounds e x (rowWeights weights x.rows) expected first t

variable (weights : Option (List α))

theorem candidates_eq_after :
    (candidates e x weights expected : Seeding σ ω (Candidates α)) =
      candidatesAfter e x weights expected rounds :=
  rfl

theorem candidatesAfter_zero :
    (candidatesAfter e x weights expected 0 : Seeding σ ω (Candidates α)) = firstCandidate e x :=
  bind_pure _

theorem candidatesAfter_succ (t : ℕ) :
    (candidatesAfter e x weights expected (t + 1) : Seeding σ ω (Candidates α)) =
      candidatesAfter e x weights expected t >>= fun c =>
        sampleRound e x (rowWeights weights x.rows) expected c (t + 1) := by
  unfold candidatesAfter sampleRounds
  simp only [List.range_succ, List.foldlM_append, bind_assoc, List.foldlM_cons, List.foldlM_nil,
    bind_pure]

variable {e x weights expected}

/-- What holds of the first candidate and is kept by every round holds after any number of
rounds. -/
theorem yields_candidatesAfter {Q : ℕ → Candidates α → Prop}
    (hfirst : Yields (firstCandidate e x : Seeding σ ω (Candidates α)) (Q 0))
    (hround : ∀ t c c', Q t c → RoundStep e x (rowWeights weights x.rows) expected c c' →
      Q (t + 1) c') (t : ℕ) :
    Yields (candidatesAfter e x weights expected t : Seeding σ ω (Candidates α)) (Q t) := by
  induction t with
  | zero =>
    rw [candidatesAfter_zero]
    exact hfirst
  | succ t ih =>
    rw [candidatesAfter_succ]
    exact ih.bind fun c hc => (yields_roundStep e x _ expected c (t + 1)).mono fun c' hstep =>
      hround t c c' hc hstep

/-- A run that returns after one more round has returned after the rounds before. -/
theorem exists_round {t : ℕ} {s u' : Session σ ω} {c' : Candidates α}
    (h : (candidatesAfter e x weights expected (t + 1)).run s = (.ok c', u')) :
    ∃ c u, (candidatesAfter e x weights expected t).run s = (.ok c, u) ∧
      RoundStep e x (rowWeights weights x.rows) expected c c' := by
  rw [candidatesAfter_succ] at h
  obtain ⟨c, u, hrun, hround⟩ := exists_of_run_bind h
  exact ⟨c, u, hrun, yields_roundStep e x _ expected c (t + 1) u c' (congrArg Prod.fst hround)⟩

/-! ### Rounds without a potential -/

variable (e x expected) in
/-- Where there is no potential a round draws nothing and adds nothing. -/
theorem run_sampleRound_of_not_pos {ws : List ω} {c : Candidates α}
    (h : ¬ 0 < potential ws c.gaps) (number : ℕ) (u : Session σ ω) :
    ∃ u', (sampleRound e x ws expected c number).run u =
        (.ok { c with skipped := c.skipped + 1 }, u') ∧ u'.source = u.source := by
  rw [sampleRound_eq]
  unfold foundRows
  rw [if_neg h, pure_bind]
  exact ⟨_, rfl, rfl⟩

/-- Once there is no potential all further rounds are skipped, and the source is left alone. -/
theorem run_candidatesAfter_add {t : ℕ} {s u : Session σ ω} {c : Candidates α}
    (h : (candidatesAfter e x weights expected t).run s = (.ok c, u))
    (hphi : ¬ 0 < potential (rowWeights weights x.rows : List ω) c.gaps) (m : ℕ) :
    ∃ u', (candidatesAfter e x weights expected (t + m)).run s =
        (.ok { c with skipped := c.skipped + m }, u') ∧ u'.source = u.source := by
  induction m with
  | zero => exact ⟨u, h, rfl⟩
  | succ m ih =>
    obtain ⟨v, hrun, hv⟩ := ih
    obtain ⟨u', hround, hu'⟩ := run_sampleRound_of_not_pos e x expected
      (c := { c with skipped := c.skipped + m }) hphi (t + m + 1) v
    refine ⟨u', ?_, hu'.trans hv⟩
    rw [← Nat.add_assoc, candidatesAfter_succ, run_bind_of_ok s hrun]
    exact hround

end Clustering.Seeding
