import Clustering.Proofs.Seeding.Agreement

/-!
# Oversampling does not depend on the kernel

Candidates are found and weighed with the direct form of a kernel.  Its answers are free of batches
and tiles, and so are its failures: the gaps are held for all rows at once, and memory that grants
them grants the answers of any batch (`Memory.Monotone`).  So two kernels draw the same candidates
from the same source, notice for notice (`candidates_kernel_free`), and weigh them alike
(`weighCandidates_kernel_free`).

`oversample_kernel_free`: the kernel only shows where more candidates than wanted are found, and
there only in what the refiner of the reduction makes of one and the same weighted start.
-/

namespace Clustering

/-! ### Memory that grants the smaller request -/

/-- Memory that grants a request also grants one for no more elements that are no wider. -/
class Memory.Monotone [Memory] : Prop where
  refuse_of_le : ∀ {width width' count count' : ℕ}, 0 < width' → width' ≤ width →
    count' ≤ count → Memory.refuse width count = none → Memory.refuse width' count' = none

instance : Memory.Monotone where
  refuse_of_le {width width' count count'} hpos hwidth hcount h := by
    have hbound : (0x8000_0000_0000_0000 - 1) / width ≤ (0x8000_0000_0000_0000 - 1) / width' :=
      Nat.div_le_div_left hwidth hpos
    have hbytes : count' * width' ≤ count * width := Nat.mul_le_mul hcount hwidth
    simp only [Memory.refuse] at h ⊢
    split_ifs at h with hlong hmuch
    rw [if_neg (by omega), if_neg (by omega)]

theorem Memory.granted_of_buffer [Memory] {what : String} {width count : ℕ}
    (h : buffer what width count = .ok ()) : refuse width count = none := by
  unfold buffer at h
  split at h
  · assumption
  · cases h
  · cases h

section Kernels

variable {α : Type} [Scalar α] [Memory] [BlockProduct α]

/-! ### The direct form of a kernel -/

namespace Kernel

variable [Memory.Monotone] (hbytes : labelBytes ≤ Scalar.bytes α) {x : Matrix α}
  (hgaps : Memory.refuse (Scalar.bytes α) x.rows = none)
include hbytes hgaps

omit [BlockProduct α] in
/-- Where the gaps of all rows have room, so have the answers of a batch. -/
theorem admission_direct_of_gaps (e : Kernel) (c : Matrix α) :
    e.direct.admission x c = checkShapes "nearest" x c := by
  have hle : min e.batchRows x.rows ≤ x.rows := Nat.min_le_right _ _
  have hlabel : 0 < labelBytes := by decide
  refine e.direct.admission_direct_of_room nofun x c ?_ ?_
  · exact Memory.Monotone.refuse_of_le hlabel hbytes hle hgaps
  · exact Memory.Monotone.refuse_of_le (hlabel.trans_le hbytes) le_rfl hle hgaps

theorem nearest_direct_of_gaps (e : Kernel) (c : Matrix α) :
    e.direct.nearest x c =
      (checkShapes "nearest" x c).map fun _ => x.rowList.map (.among c.rowList) := by
  rw [nearest_eq, e.admission_direct_of_gaps hbytes hgaps, e.direct.answers_direct nofun]

end Kernel

/-- What seeding reports, apart from the length of its reduction. -/
def SeedStats.sampling (s : SeedStats) : SeedStats := { s with reductionIterations := 0 }

namespace Seeding

variable {σ ω : Type} [Scalar ω] [Widening α ω] [Source σ ω] {x : Matrix α}
  {weights : Option (List α)} {e e' : Kernel}

/-! ### The candidates -/

/-- A kernel shows in the candidates only through the answers of its direct form. -/
theorem candidates_congr (h : ∀ c, e.direct.nearest x c = e'.direct.nearest x c)
    (weights : Option (List α)) (expected : ω) :
    (candidates e x weights expected : Seeding σ ω (Candidates α)) =
      candidates e' x weights expected := by
  have hjoin : (joinRound e x : _ → _ → _ → _ → Seeding σ ω (Candidates α)) = joinRound e' x := by
    funext c number phi found
    simp only [joinRound, h]
  simp only [candidates, firstCandidate, sampleRounds, sampleRound_eq, hjoin, h]

/-- Candidates are returned only if the gaps have room. -/
theorem yields_candidates_granted (e : Kernel) (x : Matrix α) (weights : Option (List α))
    (expected : ω) :
    Yields (candidates e x weights expected : Seeding σ ω (Candidates α)) fun _ =>
      Memory.refuse (Scalar.bytes α) x.rows = none := by
  have hfirst : Yields (firstCandidate e x : Seeding σ ω (Candidates α)) fun _ =>
      Memory.refuse (Scalar.bytes α) x.rows = none :=
    yields_andThen fun _ => (yields_attempt _).bind fun _ hbuffer =>
      .of_forall fun _ => Memory.granted_of_buffer hbuffer
  exact hfirst.bind fun _ hgaps => .of_forall fun _ => hgaps

section Monotone

variable [Memory.Monotone] (hbytes : labelBytes ≤ Scalar.bytes α)
include hbytes

/-- Two kernels draw the same candidates, with the same notices, and leave the source in the same
state; or they fail alike. -/
theorem candidates_kernel_free (e e' : Kernel) (x : Matrix α) (weights : Option (List α))
    (expected : ω) :
    (candidates e x weights expected : Seeding σ ω (Candidates α)) =
      candidates e' x weights expected := by
  cases hgaps : Memory.buffer "k-means|| distance buffer" (Scalar.bytes α) x.rows with
  | error f =>
    -- the gaps are asked for before the first sweep, so that the kernels do not show
    simp only [candidates, firstCandidate, hgaps, attempt_error, throw_bind, bind_assoc]
  | ok u =>
    have hroom := Memory.granted_of_buffer hgaps
    refine candidates_congr (fun c => ?_) weights expected
    rw [e.nearest_direct_of_gaps hbytes hroom, e'.nearest_direct_of_gaps hbytes hroom]

/-- Where the gaps have room, the candidates are weighed alike, and the same rows of them are
picked. -/
theorem weighCandidates_kernel_free (hgaps : Memory.refuse (Scalar.bytes α) x.rows = none)
    (e e' : Kernel) (weights : Option (List α)) (k : ℕ) (indices : List ℕ) :
    (weighCandidates e x weights k indices : Seeding σ ω (Reduction α)) =
      weighCandidates e' x weights k indices := by
  simp only [weighCandidates, Kernel.sweep_eq, attempt_map_bind,
    Kernel.candidateWeights_delivered, Kernel.admission_direct_of_gaps hbytes hgaps,
    e.direct.answers_direct nofun, e'.direct.answers_direct nofun]

end Monotone

/-! ### The reduction -/

/-- The refiner of a reduction. -/
def reducer (e : Kernel) (tolerance : ω) : Refiner ω :=
  ⟨e, Oversampling.reductionIterations, tolerance, true, .initializing⟩

/-- The weighted candidates are all that the refiner of a reduction is given, and it draws
nothing. -/
theorem run_reduce {tolerance : ω} {k : ℕ} {indices : List ℕ} {r : Reduction α}
    {t u : Session σ ω} (h : (weighCandidates e x weights k indices).run t = (.ok r, u)) :
    ((reduce e x weights tolerance k indices).run t).1 =
        ((reducer e tolerance).run r.rows (some r.weights) r.start).1 ∧
      ((reduce e x weights tolerance k indices).run t).2.source = u.source := by
  have hnew : Refiner.new? e Oversampling.reductionIterations tolerance true =
      .ok (reducer e tolerance) := rfl
  unfold reduce
  rw [run_bind_of_ok t h, hnew, attempt_ok, pure_bind]
  cases hrun : ((reducer e tolerance).run r.rows (some r.weights) r.start).1 with
  | error f =>
    have hrefine := run_refine (reducer e tolerance) r.rows (some r.weights) r.start u
    rw [hrun] at hrefine
    rw [run_bind_of_error u hrefine]
    exact ⟨rfl, rfl⟩
  | ok refined =>
    rw [run_bind_of_ok u (run_refine_of_ok hrun u)]
    exact ⟨rfl, rfl⟩

theorem source_reduce (e : Kernel) (tolerance : ω) (k : ℕ) (indices : List ℕ) (t : Session σ ω) :
    ((reduce e x weights tolerance k indices).run t).2.source =
      ((weighCandidates e x weights k indices).run t).2.source := by
  cases h : (weighCandidates e x weights k indices).run t with
  | mk result u =>
    cases result with
    | error f =>
      unfold reduce
      rw [run_bind_of_error t h]
    | ok r => exact (run_reduce h).2

/-! ### Oversampled seeding -/

section Many

variable {p : Params ω} {c : Candidates α} {s t : Session σ ω}
  (hc : (candidates e x weights (p.oversampling * (p.clusters : ω))).run s = (.ok c, t))
  (hmany : p.clusters < c.indices.length)
include hc hmany

/-- More candidates than wanted are reduced. -/
theorem run_oversample_of_many :
    (oversample p e x weights).run s =
      (reduce e x weights p.tolerance p.clusters c.indices >>= fun refined =>
        pure (refined.centroids, (⟨c.sampled, c.skipped, c.indices.length, 0,
          refined.iterations⟩ : SeedStats))).run t := by
  unfold oversample
  rw [run_bind_of_ok s hc]
  dsimp only
  rw [if_neg (by omega), if_neg (by omega)]

theorem result_oversample_of_many :
    ((oversample p e x weights).run s).1 =
      ((reduce e x weights p.tolerance p.clusters c.indices).run t).1.map fun refined =>
        (refined.centroids,
          ⟨c.sampled, c.skipped, c.indices.length, 0, refined.iterations⟩) := by
  rw [run_oversample_of_many hc hmany, run_bind]
  split
  · next hrun => rw [hrun]; rfl
  · next hrun => rw [hrun]; rfl

theorem source_oversample_of_many :
    ((oversample p e x weights).run s).2.source =
      ((weighCandidates e x weights p.clusters c.indices).run t).2.source := by
  rw [run_oversample_of_many hc hmany, ← source_reduce e p.tolerance, run_bind]
  split
  · next hrun => rw [hrun]; rfl
  · next hrun => rw [hrun]

theorem sampling_oversample_of_many {v : Matrix α × SeedStats}
    (hv : ((oversample p e x weights).run s).1 = .ok v) :
    v.2.sampling = ⟨c.sampled, c.skipped, c.indices.length, 0, 0⟩ := by
  rw [result_oversample_of_many hc hmany] at hv
  cases hrun : ((reduce e x weights p.tolerance p.clusters c.indices).run t).1 with
  | error f =>
    rw [hrun] at hv
    cases hv
  | ok refined =>
    rw [hrun] at hv
    cases hv
    rfl

end Many

/-- As many candidates as wanted, or fewer, do not meet the kernel again. -/
theorem run_oversample_of_few {p : Params ω} {c : Candidates α} {s t : Session σ ω}
    (hc : (candidates e x weights (p.oversampling * (p.clusters : ω))).run s = (.ok c, t))
    (hc' : (candidates e' x weights (p.oversampling * (p.clusters : ω))).run s = (.ok c, t))
    (hfew : c.indices.length ≤ p.clusters) :
    (oversample p e x weights).run s = (oversample p e' x weights).run s := by
  unfold oversample
  rw [run_bind_of_ok s hc, run_bind_of_ok s hc']
  dsimp only
  split_ifs with hless hequal
  · rfl
  · rfl
  · omega

theorem run_oversample_of_error {p : Params ω} {f : Failure} {s t : Session σ ω}
    (hc : (candidates e x weights (p.oversampling * (p.clusters : ω))).run s = (.error f, t)) :
    (oversample p e x weights).run s = (.error f, t) :=
  run_bind_of_error s hc

/-- Two kernels start oversampled seeding alike, whatever their metrics, batches and tiles: they
draw the same candidates, with the same notices, report the same of them, and leave the source in
the same state.  Unless there are more candidates than wanted, all else is the same too.  If there
are, the refiner of any kernel is given the same candidates, with the same weights and the same
start, and its centroids are returned.  A value takes no fewer bytes than a label, as with machine
numbers. -/
theorem oversample_kernel_free [Memory.Monotone] (hbytes : labelBytes ≤ Scalar.bytes α)
    (e e' : Kernel) (p : Params ω) (x : Matrix α) (weights : Option (List α)) (s : Session σ ω) :
    (candidates e x weights (p.oversampling * (p.clusters : ω)) : Seeding σ ω (Candidates α)) =
        candidates e' x weights (p.oversampling * (p.clusters : ω)) ∧
      ((oversample p e x weights).run s).2.source =
        ((oversample p e' x weights).run s).2.source ∧
      (∀ v v', ((oversample p e x weights).run s).1 = .ok v →
        ((oversample p e' x weights).run s).1 = .ok v' → v.2.sampling = v'.2.sampling) ∧
      ∀ c t,
        (candidates e x weights (p.oversampling * (p.clusters : ω))).run s = (.ok c, t) →
          (c.indices.length ≤ p.clusters →
            (oversample p e x weights).run s = (oversample p e' x weights).run s) ∧
          (p.clusters < c.indices.length →
            (weighCandidates e x weights p.clusters c.indices).run t =
                (weighCandidates e' x weights p.clusters c.indices).run t ∧
              ∀ r u, (weighCandidates e x weights p.clusters c.indices).run t = (.ok r, u) →
                ∀ d : Kernel, ((oversample p d x weights).run s).1 =
                  ((reducer d p.tolerance).run r.rows (some r.weights) r.start).1.map
                    fun refined => (refined.centroids,
                      ⟨c.sampled, c.skipped, c.indices.length, 0, refined.iterations⟩)) := by
  have hcandidates := candidates_kernel_free (σ := σ) hbytes e e' x weights
    (p.oversampling * (p.clusters : ω))
  cases hc : (candidates e x weights (p.oversampling * (p.clusters : ω))).run s with
  | mk result t =>
    have hc' := hcandidates ▸ hc
    cases result with
    | error f =>
      rw [run_oversample_of_error hc, run_oversample_of_error hc']
      refine ⟨hcandidates, rfl, nofun, nofun⟩
    | ok c =>
      -- candidates were returned, so the gaps had room, and all that is swept later has room too
      have hgaps := yields_candidates_granted e x weights _ s c (congrArg Prod.fst hc)
      have hweigh : (weighCandidates e x weights p.clusters c.indices :
          Seeding σ ω (Reduction α)) = weighCandidates e' x weights p.clusters c.indices :=
        weighCandidates_kernel_free hbytes hgaps e e' weights p.clusters c.indices
      have hfew := run_oversample_of_few hc hc'
      refine ⟨hcandidates, ?_, fun v v' hv hv' => ?_, ?_⟩
      · rcases Nat.lt_or_ge p.clusters c.indices.length with hmany | hle
        · rw [source_oversample_of_many hc hmany, source_oversample_of_many hc' hmany, hweigh]
        · rw [hfew hle]
      · rcases Nat.lt_or_ge p.clusters c.indices.length with hmany | hle
        · rw [sampling_oversample_of_many hc hmany hv, sampling_oversample_of_many hc' hmany hv']
        · rw [hfew hle] at hv
          rw [Except.ok.inj (hv.symm.trans hv')]
      · rintro _ _ ⟨⟩
        refine ⟨hfew, fun hmany => ⟨congrFun hweigh _, fun r u hr d => ?_⟩⟩
        have hd := candidates_kernel_free (σ := σ) hbytes e d x weights
          (p.oversampling * (p.clusters : ω)) ▸ hc
        have hrd := weighCandidates_kernel_free (σ := σ) hbytes hgaps e d weights p.clusters
          c.indices ▸ hr
        rw [result_oversample_of_many hd hmany, (run_reduce hrd).1]

end Seeding

end Kernels

/-! ### Rows far from the origin -/

namespace Seeding

namespace Far

/-- Four rows whose squared distances are lost in the squares of their norms. -/
def points : Matrix Float := ⟨4, 1, [1e9, 1000000001, 1000000003, 1000000007]⟩

def weights : Option (List Float) := some [1, 2, 1, 1]

/-- Two clusters, for which all four rows become candidates. -/
def params : Params Float := { Params.standard with clusters := 2 }

/-- One row and one centroid at a time, with expanded squares. -/
def piecemeal : Kernel := ⟨.expanded, 1, 1, by decide⟩

/-- All rows and centroids at once, with the direct metric. -/
def wholesale : Kernel := ⟨.unexpanded, 8, 0, by decide⟩

/-- Nothing is drawn yet, and nothing recorded. -/
def session : Session (Counter Float) Float := ⟨⟨0⟩, []⟩

/-- What the reduction of the four candidates starts from. -/
def reduction : Reduction Float := ⟨points, [1, 2, 1, 1], points.pick [0, 1]⟩

end Far

/-- Two kernels reduce one and the same weighted start to different centroids. -/
theorem oversample_kernel_free_far :
    ((oversample Far.params Far.piecemeal Far.points Far.weights).run Far.session).2.source =
        ((oversample Far.params Far.wholesale Far.points Far.weights).run Far.session).2.source ∧
      (∀ d : Kernel, ((oversample Far.params d Far.points Far.weights).run Far.session).1 =
        ((reducer d Far.params.tolerance).run Far.reduction.rows (some Far.reduction.weights)
          Far.reduction.start).1.map fun refined =>
            (refined.centroids, ⟨1, 7, 4, 0, refined.iterations⟩)) ∧
      ((oversample Far.params Far.piecemeal Far.points Far.weights).run Far.session).1.map (·.1) ≠
        ((oversample Far.params Far.wholesale Far.points Far.weights).run Far.session).1.map
          (·.1) := by
  obtain ⟨-, hsource, -, hrun⟩ := oversample_kernel_free (by decide) Far.piecemeal Far.wholesale
    Far.params Far.points Far.weights Far.session
  have hcandidates : ((candidates Far.piecemeal Far.points Far.weights
      (Far.params.oversampling * (Far.params.clusters : Float))).run Far.session).1 =
        .ok ⟨[0, 1, 2, 3], [0, 0, 0, 0], 1, 7⟩ := by
    decide +kernel
  have hweighed : ((candidates Far.piecemeal Far.points Far.weights
      (Far.params.oversampling * (Far.params.clusters : Float)) >>= fun c =>
        weighCandidates Far.piecemeal Far.points Far.weights Far.params.clusters
          c.indices).run Far.session).1 = .ok Far.reduction := by
    decide +kernel
  refine ⟨hsource, ?_, by decide +kernel⟩
  cases hc : (candidates Far.piecemeal Far.points Far.weights
      (Far.params.oversampling * (Far.params.clusters : Float))).run Far.session with
  | mk result t =>
    obtain rfl := (congrArg Prod.fst hc).symm.trans hcandidates
    rw [run_bind_of_ok Far.session hc] at hweighed
    obtain ⟨-, hmany⟩ := hrun _ t hc
    obtain ⟨-, hreduced⟩ := hmany (by decide)
    generalize hw : (weighCandidates Far.piecemeal Far.points Far.weights Far.params.clusters
      [0, 1, 2, 3]).run t = outcome at hweighed
    obtain ⟨_, u⟩ := outcome
    obtain rfl := hweighed
    exact hreduced _ u hw

end Seeding

end Clustering
