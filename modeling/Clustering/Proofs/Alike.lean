import Clustering.Proofs.Lloyd.Orbit

/-!
# Kernels that cannot be told apart

Two kernels are `Kernel.Alike` if they admit the same sweeps and give the same answers.  Then
everything that is computed from their sweeps is the same.  For a refinement it is enough that they
are alike on its data, at a class of centroids that no iteration leaves (`Kernel.AlikeOn`,
`Refiner.run_alike`).

Kernels that ask for different buffers may part company where memory is short.  So outcomes are
compared up to a proposition `lack`: they are the same, or `lack` holds and one of them is a failure
(`SameUnless`).

Kernels of a direct metric are alike whatever their batches and tiles, as long as the buffers for
the answers of a batch are granted (`alike_of_direct`).
-/

namespace Clustering

/-! ### Outcomes that are the same unless something lacks -/

/-- The outcomes are the same; or, if `lack` holds, at least one of them is a failure. -/
def SameUnless (lack : Prop) {β : Type} (r r' : Except Failure β) : Prop :=
  r = r' ∨ lack ∧ (r.isOk = false ∨ r'.isOk = false)

namespace SameUnless

variable {lack : Prop} {β γ : Type} {r r' : Except Failure β}

theorem of_eq (h : r = r') : SameUnless lack r r' := Or.inl h

/-- Where nothing lacks, the outcomes are the same. -/
theorem eq_of_not (h : SameUnless lack r r') (hlack : ¬ lack) : r = r' :=
  h.resolve_right fun hfail => hlack hfail.1

/-- Two outcomes that are not failures are the same value. -/
theorem exists_of_isOk (h : SameUnless lack r r') (hr : r.isOk = true) (hr' : r'.isOk = true) :
    ∃ v, r = .ok v ∧ r' = .ok v := by
  have hsame : r = r' := by
    rcases h with h | ⟨-, h | h⟩
    · exact h
    · rw [hr] at h
      cases h
    · rw [hr'] at h
      cases h
  cases r with
  | error e => cases hr
  | ok v => exact ⟨v, rfl, hsame.symm⟩

theorem isOk_bind_of_isOk_eq_false {r : Except Failure β} {f : β → Except Failure γ}
    (h : r.isOk = false) : (r >>= f).isOk = false := by
  cases r with
  | error e => rfl
  | ok v => cases h

/-- What follows has to agree only on a value that both return. -/
theorem bind {f g : β → Except Failure γ} (h : SameUnless lack r r')
    (hfg : ∀ v, r = .ok v → r' = .ok v → SameUnless lack (f v) (g v)) :
    SameUnless lack (r >>= f) (r' >>= g) := by
  rcases h with rfl | ⟨hlack, h⟩
  · cases r with
    | error e => exact of_eq rfl
    | ok v => exact hfg v rfl rfl
  · exact Or.inr ⟨hlack, h.imp isOk_bind_of_isOk_eq_false isOk_bind_of_isOk_eq_false⟩

theorem isOk_map_of_isOk_eq_false {r : Except Failure β} {f : β → γ} (h : r.isOk = false) :
    (r.map f).isOk = false := by
  cases r with
  | error e => rfl
  | ok v => cases h

theorem map {f g : β → γ} (h : SameUnless lack r r') (hfg : ∀ v, r = .ok v → f v = g v) :
    SameUnless lack (r.map f) (r'.map g) := by
  rcases h with rfl | ⟨hlack, h⟩
  · cases r with
    | error e => exact of_eq rfl
    | ok v => exact of_eq (congrArg Except.ok (hfg v rfl))
  · exact Or.inr ⟨hlack, h.imp isOk_map_of_isOk_eq_false isOk_map_of_isOk_eq_false⟩

end SameUnless

/-! ### Granted requests -/

/-- Requests for less than `2 ^ 50` bytes are granted. -/
theorem Memory.refuse_of_small {width count : ℕ} (hw : 0 < width) (h : count * width < 2 ^ 50) :
    Memory.refuse width count = none := by
  have hlong : ¬ (0x8000_0000_0000_0000 - 1) / width < count := by
    rw [Nat.div_lt_iff_lt_mul hw]
    omega
  show (if (0x8000_0000_0000_0000 - 1) / width < count then _ else _) = none
  rw [if_neg hlong, if_neg (by omega)]

namespace Kernel

section Alike

variable (α : Type) [Scalar α] [Memory]

/-- Buffers for the answers of a batch of up to `size` rows are granted. -/
def GrantsBatch (size : ℕ) : Prop :=
  ∀ count ≤ size, Memory.refuse labelBytes count = none ∧
    Memory.refuse (Scalar.bytes α) count = none

/-- Every sweep of the one kernel is admitted, unless something lacks, and answered like that of
the other. -/
structure Alike (lack : Prop) [BlockProduct α] (e e' : Kernel) : Prop where
  admission : ∀ x c : Matrix α, SameUnless lack (e.admission x c) (e'.admission x c)
  answers : ∀ x c : Matrix α, e.answers x c = e'.answers x c

end Alike

variable {α : Type} [Scalar α] [Memory]

/-- With the direct metric only the shapes decide, if there is memory for the answers of a
batch. -/
theorem admission_direct_of_room (e : Kernel) (he : e.metric ≠ .expanded) (x c : Matrix α)
    (hl : Memory.refuse labelBytes (min e.batchRows x.rows) = none)
    (hd : Memory.refuse (Scalar.bytes α) (min e.batchRows x.rows) = none) :
    e.admission x c = checkShapes "nearest" x c := by
  refine admission_of_sweepBuffers ?_
  simp only [sweepBuffers, normBuffers, Memory.buffer_of_granted hl,
    Memory.buffer_of_granted hd, he, if_false, bind, Except.bind]

theorem admission_direct (e : Kernel) (he : e.metric ≠ .expanded) (hm : GrantsBatch α e.batchRows)
    (x c : Matrix α) : e.admission x c = checkShapes "nearest" x c :=
  have hroom := hm (min e.batchRows x.rows) (Nat.min_le_left _ _)
  e.admission_direct_of_room he x c hroom.1 hroom.2

variable [BlockProduct α]

theorem alike_of_direct {lack : Prop} {e e' : Kernel} (he : e.metric ≠ .expanded)
    (he' : e'.metric ≠ .expanded) (hm : GrantsBatch α e.batchRows)
    (hm' : GrantsBatch α e'.batchRows) : Alike α lack e e' where
  admission x c :=
    .of_eq ((e.admission_direct he hm x c).trans (e'.admission_direct he' hm' x c).symm)
  answers x c := (e.answers_direct he x c).trans (e'.answers_direct he' x c).symm

namespace Alike

variable {lack : Prop} {e e' : Kernel} (h : Alike α lack e e')
include h

theorem nearest (x c : Matrix α) : SameUnless lack (e.nearest x c) (e'.nearest x c) := by
  rw [nearest_eq, nearest_eq, h.answers]
  exact (h.admission x c).map fun _ _ => rfl

theorem candidateWeights (k : ℕ) (weights : Option (List α)) (x c : Matrix α) :
    Oversampling.candidateWeights k weights (e.delivered x c) =
      Oversampling.candidateWeights k weights (e'.delivered x c) := by
  rw [candidateWeights_delivered, candidateWeights_delivered, h.answers]

end Alike

end Kernel

/-! ### Refinements -/

section Refinements

variable {α ω : Type} [Scalar α] [Memory] [BlockProduct α]

/-- On some data the kernels cannot be told apart at the centroids of a class, and no iteration
leaves the class. -/
structure Kernel.AlikeOn (lack : Prop) (x : Matrix α) (weights : Option (List α))
    (S : Matrix α → Prop) (e e' : Kernel) : Prop where
  admission : ∀ c, S c → SameUnless lack (e.admission x c) (e'.admission x c)
  answers : ∀ c, S c → e.answers x c = e'.answers x c
  update : ∀ c, S c → S (e.update x weights c)

theorem Kernel.Alike.on {lack : Prop} {e e' : Kernel} (h : Alike α lack e e') (x : Matrix α)
    (weights : Option (List α)) : AlikeOn lack x weights (fun _ => True) e e' :=
  ⟨fun c _ => h.admission x c, fun c _ => h.answers x c, fun _ _ => trivial⟩

section Iteration

variable {lack : Prop} {x : Matrix α} {weights : Option (List α)} {S : Matrix α → Prop}
  {e e' : Kernel} (h : Kernel.AlikeOn lack x weights S e e')
include h

theorem Kernel.AlikeOn.assignment {c : Matrix α} (hc : S c) :
    e.assignment x weights c = e'.assignment x weights c := by
  rw [Kernel.assignment, Kernel.assignment, ofSweep_delivered, ofSweep_delivered, h.answers c hc]

theorem Kernel.AlikeOn.tally {c : Matrix α} (hc : S c) :
    e.tally x weights c = e'.tally x weights c := by
  rw [Kernel.tally, Kernel.tally, tally_delivered, tally_delivered, h.answers c hc]

end Iteration

namespace Refiner

variable {lack : Prop} {x : Matrix α} {weights : Option (List α)} {S : Matrix α → Prop}
  {r r' : Refiner ω} (h : Kernel.AlikeOn lack x weights S r.kernel r'.kernel)

section Steps

omit h in
theorem conclude_eq (c : Course α ω) :
    r.conclude x weights c = (r.kernel.admission x c.centroids).map fun _ =>
      (⟨c.centroids, (r.kernel.assignment x weights c.centroids).labels,
        (r.kernel.assignment x weights c.centroids).inertia, c.iterations, c.phase,
        c.history⟩ : Refined α ω) := by
  unfold conclude
  rw [Kernel.sweep_eq]
  cases r.kernel.admission x c.centroids with
  | error f => rfl
  | ok u => rfl

include h

theorem conclude_alike {c : Course α ω} (hc : S c.centroids) :
    SameUnless lack (r.conclude x weights c) (r'.conclude x weights c) := by
  rw [conclude_eq, conclude_eq]
  refine (h.admission _ hc).map fun _ _ => ?_
  rw [h.assignment hc]

variable [Scalar ω] [Widening α ω]

theorem iterate_alike {c : Matrix α} (hc : S c) (number : ℕ) :
    SameUnless lack (r.iterate x weights number c) (r'.iterate x weights number c) := by
  rw [iterate_eq, iterate_eq]
  refine (h.admission c hc).map fun _ _ => ?_
  rw [Kernel.update, Kernel.update, Kernel.entry, Kernel.entry, h.assignment hc, h.tally hc]

omit h in
theorem centroids_of_iterate {c : Matrix α} {number : ℕ} {s : Stride α ω}
    (hs : r.iterate x weights number c = .ok s) : s.centroids = r.kernel.update x weights c := by
  obtain ⟨-, rfl⟩ := eq_of_iterate hs
  rfl

/-- Iterations from a centroid set of the class end in the class. -/
theorem centroids_of_course : ∀ {left number : ℕ} {previous : Option α} {c : Matrix α}
    {d : Course α ω}, S c →
      (r.course x weights left number previous c).mapError Halt.failure = .ok d → S d.centroids
  | 0, _, _, _, _, hc, hd => by
    cases hd
    exact hc
  | left + 1, number, previous, c, d, hc, hd => by
    rw [failure_course_succ] at hd
    cases hs : r.iterate x weights number c with
    | error f => rw [hs] at hd; cases hd
    | ok s =>
      have hnext : S s.centroids := by
        rw [centroids_of_iterate hs]
        exact h.update c hc
      rw [hs] at hd
      cases hgrow : Memory.grow Iteration.bytes (number - 1) with
      | error f => rw [hgrow] at hd; cases hd
      | ok u =>
        rw [hgrow] at hd
        simp only [bind, Except.bind] at hd
        split_ifs at hd with hstop
        · cases hd
          exact hnext
        · cases hlater : (r.course x weights left (number + 1) (some s.inertia)
              s.centroids).mapError Halt.failure with
          | error f => rw [hlater] at hd; cases hd
          | ok later =>
            rw [hlater] at hd
            cases hd
            exact centroids_of_course (d := later) hnext hlater

/-- Where one course fails the other one may have failed in another phase. -/
theorem course_alike (ht : r.tolerance = r'.tolerance) (hi : r.checkInertia = r'.checkInertia) :
    ∀ (left number : ℕ) (previous : Option α) {c : Matrix α}, S c →
      SameUnless lack ((r.course x weights left number previous c).mapError Halt.failure)
        ((r'.course x weights left number previous c).mapError Halt.failure)
  | 0, _, _, _, _ => .of_eq rfl
  | left + 1, number, previous, c, hc => by
    have hsettled : ∀ i : α, r.settled previous i = r'.settled previous i := by
      intro i
      unfold settled
      rw [ht, hi]
    rw [failure_course_succ, failure_course_succ]
    refine (iterate_alike h hc number).bind fun s hs _ => .bind (.of_eq rfl) fun _ _ _ => ?_
    have hnext : S s.centroids := by
      rw [centroids_of_iterate hs]
      exact h.update c hc
    rw [hsettled]
    split_ifs
    · exact .of_eq rfl
    · exact (course_alike ht hi left (number + 1) (some s.inertia) hnext).bind
        fun _ _ _ => .of_eq rfl

end Steps

/-- Refiners that differ only in kernels that are alike refine alike. -/
theorem run_alike [Scalar ω] [Widening α ω]
    (h : Kernel.AlikeOn lack x weights S r.kernel r'.kernel) (ht : r.tolerance = r'.tolerance)
    (hi : r.checkInertia = r'.checkInertia) (hm : r.maxIterations = r'.maxIterations)
    {start : Matrix α} (hstart : S start) :
    SameUnless lack (r.run x weights start).1 (r'.run x weights start).1 := by
  rw [result_run, result_run, ← hm]
  refine SameUnless.bind (.of_eq rfl) fun _ _ _ => ?_
  exact (course_alike h ht hi r.maxIterations 1 none hstart).bind fun d hd _ =>
    conclude_alike h (centroids_of_course h hstart hd)

end Refiner

/-- Unless something lacks, the kernels refine some data alike from a start, whatever the rule by
which a run ends. -/
def Kernel.RefineAlike (lack : Prop) (ω : Type) [Scalar ω] [Widening α ω] (e e' : Kernel)
    (x : Matrix α) (weights : Option (List α)) (start : Matrix α) : Prop :=
  ∀ (maxIterations : ℕ) (tolerance : ω) (checkInertia : Bool),
    SameUnless lack
      ((⟨e, maxIterations, tolerance, checkInertia, .initializing⟩ : Refiner ω).run x weights
        start).1
      ((⟨e', maxIterations, tolerance, checkInertia, .initializing⟩ : Refiner ω).run x weights
        start).1

theorem Kernel.AlikeOn.refineAlike [Scalar ω] [Widening α ω] {lack : Prop} {x : Matrix α}
    {weights : Option (List α)} {S : Matrix α → Prop} {e e' : Kernel}
    (h : AlikeOn lack x weights S e e') {start : Matrix α} (hstart : S start) :
    RefineAlike lack ω e e' x weights start := by
  intro maxIterations tolerance checkInertia
  let r : Refiner ω := ⟨e, maxIterations, tolerance, checkInertia, .initializing⟩
  let r' : Refiner ω := ⟨e', maxIterations, tolerance, checkInertia, .initializing⟩
  have halike : AlikeOn lack x weights S r.kernel r'.kernel := h
  exact Refiner.run_alike halike rfl rfl rfl hstart

end Refinements

end Clustering
