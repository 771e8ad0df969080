import Clustering.Proofs.Hull
import Clustering.Proofs.Lloyd.Conservation
import Clustering.Proofs.Seeding.KernelFree
import Clustering.Proofs.Seeding.Spread

/-!
# No weight is lost

A fit accepts only rows of positive total weight (`Model.Ready.weight_pos`).  In exact arithmetic
each iteration keeps this weight, and the weighted sum of the rows, in its clusters, and the
candidates of oversampled seeding have the same weight between them
(`Seeding.sum_candidateWeights`).  So no iteration finds all clusters empty, neither in the runs of
a fit nor in a reduction of candidates, and the first seed of a reduction is always drawn by weight
(`Model.weight_conserved`).
-/

namespace Clustering

variable {K : Type} [ExactScalar K]

namespace Seeding

/-! ### Candidates -/

/-- Candidates have the weight of the rows between them. -/
theorem sum_candidateWeights [Memory] {e : Kernel} {x c : Matrix K} {weights : Option (List K)}
    {sweep : List (NearestBatch K)} (hfits : x.Fits c) (hlen : ∀ ws ∈ weights, ws.length = x.rows)
    (hw : ∀ ws ∈ weights, ∀ w ∈ ws, 0 ≤ w) (hsweep : e.direct.sweep x c = .ok sweep) :
    (∀ w ∈ Oversampling.candidateWeights c.rows weights sweep, 0 ≤ w) ∧
      (Oversampling.candidateWeights c.rows weights sweep).sum =
        (weightsFor weights x.rows).sum := by
  obtain ⟨hadm, rfl⟩ := Kernel.eq_delivered_of_sweep hsweep
  have h : Kernel.Sound x weights c := ⟨hfits, Kernel.rows_pos_of_admission hadm, hw⟩
  rw [Kernel.candidateWeights_eq_weights_tally]
  exact ⟨e.direct.weights_tally_nonneg h, e.direct.sum_weights_tally h hlen⟩

/-- The first seed is drawn by weight if there is weight. -/
theorem firstPick_eq {σ : Type} [Source σ K] {rows : Matrix K} {ws : List K}
    (hlen : ws.length = rows.rows) (hpos : 0 < ws.sum) :
    (firstPick rows (pickWeights rows (some ws)) : Seeding σ K (Picks K)) = do
      let i ← pick ws
      return ⟨[i], openGaps rows.rowList (rows.row i)⟩ := by
  have hweights : pickWeights rows (some ws) = ws := List.take_of_length_le hlen.le
  rw [hweights, firstPick, proportional_exact, total_eq_sum, if_pos hpos]

/-- A reduction of candidates conserves their weight, which is that of the rows. -/
theorem yields_conserving_reduce {σ : Type} [Source σ K] [Source.InRange σ] [Memory] {x : Matrix K}
    {weights : Option (List K)} (hfull : x.Full) (hlen : ∀ ws ∈ weights, ws.length = x.rows)
    (hw : ∀ ws ∈ weights, ∀ w ∈ ws, 0 ≤ w) (hpos : 0 < (weightsFor weights x.rows).sum)
    {e : Kernel} {tolerance : K} {k : ℕ} {c : Candidates K} (hc : CandidatesOf x.rows c)
    {sweep : List (NearestBatch K)} (hsweep : e.direct.sweep x (x.pick c.indices) = .ok sweep) :
    Yields (reduce e x weights tolerance k c.indices : Seeding σ K (Refined K K)) fun res =>
      ∃ seeds : Matrix K, seeds.rows = k ∧ Conserving (reducer e tolerance) (x.pick c.indices)
        (some (Oversampling.candidateWeights (x.pick c.indices).rows weights sweep)) seeds res := by
  obtain ⟨hnonneg, hsum⟩ := sum_candidateWeights (Matrix.fits_pick hfull hc.lt) hlen hw hsweep
  unfold reduce
  refine (yields_weighCandidates e weights k hc).bind fun r hr =>
    (yields_attempt _).bind fun refiner hnew =>
      (yields_refine refiner r.rows (some r.weights) r.start).bind fun res hres =>
        yields_andThen fun _ => yields_pure ?_
  cases hnew
  obtain ⟨hrows, -, hfits⟩ := hr.fits hfull hc.lt
  -- the weights that are refined are those of a sweep over all rows
  obtain ⟨rows, ws, seeds⟩ := r
  obtain rfl : rows = x.pick c.indices := hr.rows
  obtain rfl : ws = Oversampling.candidateWeights (x.pick c.indices).rows weights sweep := by
    rw [(Kernel.eq_delivered_of_sweep hsweep).2]
    exact hr.weights
  refine ⟨seeds, hrows, Refiner.conserving_of_run ?_ ?_ hfits ?_ hres⟩
  · rintro _ ⟨⟩
    exact length_candidateWeights _ _ _
  · rintro _ ⟨⟩
    exact hnonneg
  · exact hpos.trans_eq hsum.symm

end Seeding

/-! ### Fits -/

namespace Model

/-- The rows that a fit accepts have weight. -/
theorem Ready.weight_pos {m : Model (fun _ => K) K} {p : Precision} {x : Dataset K}
    {weights : Option (List K)} {array : Matrix K} {e : Kernel}
    (h : m.Ready p x weights array e) : 0 < (weightsFor weights x.table.rows).sum := by
  cases weights with
  | none =>
    have hrows := (present_of_checkData h.data).1
    rw [weightsFor, Option.getD_none, List.sum_replicate, nsmul_one]
    exact Nat.cast_pos.mpr hrows
  | some ws =>
    have htotal := h.total
    unfold checkTotal at htotal
    dsimp only at htotal
    split_ifs at htotal with hpos
    rwa [map_widen, total_eq_sum] at hpos

/-- No weight is lost, and none is counted twice.  In every iteration the weights of the clusters
sum to the weight of the rows, and their row sums to the weighted sum of the rows, which the
centroids of the clusters with weight carry on; the weights of candidates are not negative, and have
the same sum.  So in every run of a fit that is ready, and in every reduction of its candidates,
each iteration finds a cluster that has weight, and the first seed of a reduction is drawn by
weight. -/
theorem weight_conserved :
    (∀ [Memory] (r : Refiner K) (x c : Matrix K) (weights : Option (List K)) (number : ℕ),
      x.Fits c → (∀ ws ∈ weights, ws.length = x.rows) → (∀ ws ∈ weights, ∀ w ∈ ws, 0 ≤ w) →
        (∀ sweep, r.kernel.sweep x c = .ok sweep → ∃ s, r.iterate x weights number c = .ok s) ∧
        ∀ s, r.iterate x weights number c = .ok s → ∃ sweep, r.kernel.sweep x c = .ok sweep ∧
          Conserves x weights c (.ofSweep c.rows x.cols x.rowList weights sweep) s) ∧
    (∀ [Memory] (e : Kernel) (x c : Matrix K) (weights : Option (List K))
        (sweep : List (NearestBatch K)), x.Fits c → (∀ ws ∈ weights, ws.length = x.rows) →
      (∀ ws ∈ weights, ∀ w ∈ ws, 0 ≤ w) → e.direct.sweep x c = .ok sweep →
        (∀ w ∈ Oversampling.candidateWeights c.rows weights sweep, 0 ≤ w) ∧
          (Oversampling.candidateWeights c.rows weights sweep).sum =
            (weightsFor weights x.rows).sum) ∧
    ∀ {σ : Type} [Source σ K] [Source.InRange σ] [Memory] (m : Model (fun _ => K) K)
      (p : Precision) (x : Dataset K) (weights : Option (List K)) (array : Matrix K) (e : Kernel),
      m.HasFullStart → x.Complete → (∀ ws ∈ weights, ws.length = x.table.rows) →
      m.Ready p x weights array e →
        (∀ (r : ℕ) (s : Session σ K) (f : Fit K K),
          ((Seeding.fitRun m.params e x.table weights array r).run s).1 = .ok f →
            ∃ start : Matrix K, start.rows = m.params.clusters ∧
              Conserving (m.params.refiner e) x.table weights start f.toRefined) ∧
        ∀ (s t : Session σ K) (c : Candidates K) (sweep : List (NearestBatch K)),
          (Seeding.candidates e x.table weights
            (m.params.oversampling * (m.params.clusters : K))).run s = (.ok c, t) →
          e.direct.sweep x.table (x.table.pick c.indices) = .ok sweep →
            let rows := x.table.pick c.indices
            let ws := Oversampling.candidateWeights rows.rows weights sweep
            (Seeding.firstPick rows (Seeding.pickWeights rows (some ws)) :
                Seeding σ K (Picks K)) = (do
              let i ← Seeding.pick ws
              return ⟨[i], openGaps rows.rowList (rows.row i)⟩) ∧
            ∀ (u : Session σ K) (res : Refined K K),
              ((Seeding.reduce e x.table weights m.params.tolerance m.params.clusters
                c.indices).run u).1 = .ok res →
                ∃ seeds : Matrix K, seeds.rows = m.params.clusters ∧
                  Conserving (Seeding.reducer e m.params.tolerance) rows (some ws) seeds res := by
  refine ⟨fun r x c weights number hfits hlen hw =>
      ⟨fun _ hsweep => Refiner.exists_of_sweep weights hsweep number,
        fun _ hs => Refiner.conserves_of_iterate hlen hw hfits hs⟩,
    fun e x c weights sweep hfits hlen hw hsweep =>
      Seeding.sum_candidateWeights hfits hlen hw hsweep, ?_⟩
  intro σ _ _ _ m p x weights array e hm hx hlen hready
  obtain ⟨hrows, -, hpresent⟩ := present_of_checkData hready.data
  have hfull := hx hpresent
  have hw := nonneg_of_checkWeights hready.weighed
  have hpos := hready.weight_pos
  -- what is left are the two places in a fit where a refiner is given weights
  constructor
  · intro r s f hf
    have hstart := Seeding.yields_startOf (σ := σ) hrows m.params e weights array
    obtain ⟨-, c, hc, hrun⟩ := Seeding.yields_fitRun_numbered hstart r s f hf
    obtain ⟨hclusters, hfits⟩ := hc.fits hfull fun _ => full_of_startFor hm hready.start
    -- rows that are fitted have weight, and so every iteration finds a cluster with weight
    exact ⟨c, hclusters, Refiner.conserving_of_run hlen hw hfits hpos hrun⟩
  · intro s t c sweep hcandidates hsweep rows ws
    have hc := Seeding.yields_candidates hrows e weights _ s c (congrArg Prod.fst hcandidates)
    obtain ⟨-, hsum⟩ := Seeding.sum_candidateWeights (Matrix.fits_pick hfull hc.lt) hlen hw hsweep
    -- the candidates inherit the weight of the rows: the draw by weight is not left to chance
    exact ⟨Seeding.firstPick_eq (Seeding.length_candidateWeights _ _ _) (hpos.trans_eq hsum.symm),
      Seeding.yields_conserving_reduce hfull hlen hw hpos hc hsweep⟩

/-! ### Points that share a place -/

namespace Shared

/-- Two clusters, from oversampled seeding. -/
def model : Model (fun _ => ℚ) ℚ where
  params := { Params.standard with
    clusters := 2, metric := .expanded, batchRows := 2, tileRows := 1 }
  start := none
  fitted := none

/-- Four points, of which the first two share a place. -/
def points : Dataset ℚ := ⟨⟨4, 1, [0, 0, 5, 9]⟩, true⟩

def weights : Option (List ℚ) := some [1, 2, 3, 4]

def tiled : Kernel := ⟨.expanded, 2, 1, Nat.two_pos⟩

/-- The second centroid is nearest to none of the points. -/
def apart : Matrix ℚ := ⟨2, 1, [1, 100]⟩

/-- Nothing is drawn yet, and nothing recorded. -/
def session : Session (Counter ℚ) ℚ := ⟨⟨0⟩, []⟩

/-- What a sweep answers for the candidates, which are the three places. -/
def sweep : List (NearestBatch ℚ) :=
  [⟨⟨0, 2⟩, [⟨0, 0⟩, ⟨0, 0⟩]⟩, ⟨⟨2, 2⟩, [⟨1, 0⟩, ⟨2, 0⟩]⟩]

/-- The first run: the shared place makes one cluster, and the other two the second. -/
def run : Fit ℚ ℚ :=
  ⟨⟨⟨2, 1, [0, 51 / 7]⟩, [0, 0, 1, 1], 192 / 7, 2, .converged,
    [⟨1, 192 / 7, 0, 0⟩, ⟨2, 192 / 7, 0, 0⟩]⟩, ⟨1, 7, 3, 0, 3⟩, 0⟩

/-- The candidates, reduced to two centroids. -/
def reduced : Refined ℚ ℚ :=
  ⟨⟨2, 1, [0, 51 / 7]⟩, [0, 1, 1], 192 / 7, 3, .converged,
    [⟨1, 64, 256 / 49, 0⟩, ⟨2, 192 / 7, 0, 0⟩, ⟨3, 192 / 7, 0, 0⟩]⟩

theorem run_eq : ((Seeding.fitRun model.params tiled points.table weights .empty 0).run
    session).1 = .ok run := by
  decide +kernel

theorem reduced_eq : ((Seeding.reduce tiled points.table weights model.params.tolerance 2
    [0, 2, 3]).run session).1 = .ok reduced := by
  decide +kernel

theorem ready : model.Ready .double points weights .empty tiled where
  start := rfl
  data := rfl
  weighed := by decide +kernel
  total := by decide +kernel
  kernel := rfl

end Shared

open Shared in
/-- An iteration with an empty cluster, a run, and a reduction of three candidates. -/
theorem weight_conserved_shared :
    (∃ s sweep, (model.params.refiner tiled).iterate points.table weights 1 apart = .ok s ∧
      s.centroids = ⟨2, 1, [51 / 10, 100]⟩ ∧ s.record.emptyClusters = 1 ∧
      Conserves points.table weights apart (.ofSweep 2 1 points.table.rowList weights sweep) s) ∧
    (Oversampling.candidateWeights 3 weights sweep = [3, 3, 4] ∧
      (Oversampling.candidateWeights 3 weights sweep).sum = (weightsFor weights 4).sum) ∧
    (∃ start : Matrix ℚ, start.rows = 2 ∧
      Conserving (model.params.refiner tiled) points.table weights start run.toRefined) ∧
    ∃ seeds : Matrix ℚ, seeds.rows = 2 ∧
      Conserving (Seeding.reducer tiled model.params.tolerance) ⟨3, 1, [0, 5, 9]⟩
        (some [3, 3, 4]) seeds reduced := by
  have hlen : ∀ ws ∈ weights, ws.length = points.table.rows := by
    rintro ws ⟨⟩
    rfl
  have hw : ∀ ws ∈ weights, ∀ w ∈ ws, 0 ≤ w := nonneg_of_checkWeights ready.weighed
  have hsweep : tiled.direct.sweep points.table (points.table.pick [0, 2, 3]) = .ok sweep := by
    decide +kernel
  have hweights : Oversampling.candidateWeights 3 weights sweep = [3, 3, 4] := by decide +kernel
  obtain ⟨hiterates, hcandidates, hfits⟩ := weight_conserved (K := ℚ)
  obtain ⟨hruns, hreductions⟩ := hfits (σ := Counter ℚ) model .double points weights .empty tiled
    nofun (fun _ => rfl) hlen ready
  refine ⟨?_, ⟨hweights, ?_⟩, hruns 0 session run run_eq, ?_⟩
  · have hstride : ((model.params.refiner tiled).iterate points.table weights 1 apart).map
        (fun s => (s.centroids, s.record.emptyClusters)) = .ok (⟨2, 1, [51 / 10, 100]⟩, 1) := by
      decide +kernel
    cases hs : (model.params.refiner tiled).iterate points.table weights 1 apart with
    | error f => rw [hs] at hstride; cases hstride
    | ok s =>
      rw [hs] at hstride
      obtain ⟨-, hconserve⟩ := hiterates (model.params.refiner tiled) points.table apart weights 1
        ⟨by decide, by decide, rfl⟩ hlen hw
      obtain ⟨sweep, -, hconserves⟩ := hconserve s hs
      obtain ⟨hcentroids, hempty⟩ := Prod.mk.inj (Except.ok.inj hstride)
      exact ⟨s, sweep, rfl, hcentroids, hempty, hconserves⟩
  · exact (hcandidates tiled points.table (points.table.pick [0, 2, 3]) weights sweep
      ⟨by decide, by decide, rfl⟩ hlen hw hsweep).2
  · have hfound : ((Seeding.candidates tiled points.table weights
        (model.params.oversampling * (model.params.clusters : ℚ))).run session).1 =
          .ok ⟨[0, 2, 3], [0, 0, 0, 0], 1, 7⟩ := by
      decide +kernel
    obtain ⟨-, hreduce⟩ := hreductions session _ _ sweep (Prod.ext hfound rfl) hsweep
    have hseeds := hreduce session reduced reduced_eq
    have hrows : points.table.pick [0, 2, 3] = ⟨3, 1, [0, 5, 9]⟩ := by decide +kernel
    rw [hrows] at hseeds
    exact hweights ▸ hseeds

end Model

end Clustering
