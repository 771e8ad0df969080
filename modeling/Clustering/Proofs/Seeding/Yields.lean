import Clustering.Seeding.Start
import Clustering.Proofs.Draws
import Mathlib.Data.List.Forall2

/-!
# What seeding computations yield

`Seeding.Yields a Q` says that every value that the seeding computation `a` returns satisfies `Q`,
whatever the source draws; nothing is said of failures.  It has a rule for each way in which
computations are put together, and so have runs that return (`exists_of_run_bind`).

Where indices matter, the source is asked to keep to the range of each draw (`Source.InRange`).
Then samples and paddings consist of row indices (`yields_sampleRows`, `yields_pad`).
-/

namespace Clustering

theorem lastIndex_lt {n : ℕ} (hn : 0 < n) : lastIndex n < n := by
  unfold lastIndex sizeWord
  omega

theorem Matrix.eq_pick_of_pick? {α : Type} [Scalar α] [Memory] {m c : Matrix α} {indices : List ℕ}
    (h : m.pick? indices = .ok c) : c = m.pick indices := by
  unfold pick? at h
  cases hstorage : Memory.storageOr (.candidateSet indices.length) (Scalar.bytes α)
      (sizeWord (indices.length * m.cols)) with
  | error f => rw [hstorage] at h; cases h
  | ok u => rw [hstorage] at h; cases h; rfl

namespace Seeding

variable {σ ω β γ : Type}

/-! ### Runs that return -/

/-- A computation that returns has returned from its first part. -/
theorem exists_of_run_bind {a : Seeding σ ω β} {f : β → Seeding σ ω γ} {s u : Session σ ω} {w : γ}
    (h : (a >>= f).run s = (.ok w, u)) :
    ∃ v t, a.run s = (.ok v, t) ∧ (f v).run t = (.ok w, u) := by
  cases ha : a.run s with
  | mk r t =>
    cases r with
    | error e =>
      rw [run_bind_of_error s ha] at h
      cases h
    | ok v =>
      rw [run_bind_of_ok s ha] at h
      exact ⟨v, t, rfl, h⟩

/-- What does not depend on the session leaves it as it is. -/
theorem exists_of_run_attempt_bind {r : Except Failure β} {f : β → Seeding σ ω γ}
    {s u : Session σ ω} {w : γ} (h : (attempt r >>= f).run s = (.ok w, u)) :
    ∃ v, r = .ok v ∧ (f v).run s = (.ok w, u) := by
  obtain ⟨v, t, hrun, h⟩ := exists_of_run_bind h
  rw [run_attempt, Prod.mk.injEq] at hrun
  obtain ⟨hr, rfl⟩ := hrun
  exact ⟨v, hr, h⟩

/-! ### Rules -/

/-- Every value that the computation returns satisfies `Q`. -/
def Yields (a : Seeding σ ω β) (Q : β → Prop) : Prop :=
  ∀ (s : Session σ ω) (v : β), (a.run s).1 = .ok v → Q v

section Rules

variable {a : Seeding σ ω β} {P Q : β → Prop} {R : γ → Prop}

theorem Yields.mono (h : Yields a P) (hPQ : ∀ v, P v → Q v) : Yields a Q :=
  fun s v hv => hPQ v (h s v hv)

theorem Yields.and (hP : Yields a P) (hQ : Yields a Q) : Yields a fun v => P v ∧ Q v :=
  fun s v hv => ⟨hP s v hv, hQ s v hv⟩

theorem Yields.of_forall (h : ∀ v, Q v) : Yields a Q := fun _ v _ => h v

theorem yields_pure {v : β} (h : Q v) : Yields (pure v : Seeding σ ω β) Q := by
  rintro s _ ⟨⟩
  exact h

theorem yields_throw (f : Failure) : Yields (throw f : Seeding σ ω β) Q := by
  rintro s v ⟨⟩

theorem yields_attempt (r : Except Failure β) :
    Yields (attempt r : Seeding σ ω β) fun v => r = .ok v :=
  fun _ _ h => h

theorem Yields.bind {f : β → Seeding σ ω γ} (ha : Yields a P) (hf : ∀ v, P v → Yields (f v) R) :
    Yields (a >>= f) R := by
  intro s w hw
  obtain ⟨v, t, hrun, hw⟩ := exists_of_run_bind (Prod.ext hw rfl)
  exact hf v (ha s v (congrArg Prod.fst hrun)) t w (congrArg Prod.fst hw)

/-- A step whose value does not matter. -/
theorem yields_andThen {f : β → Seeding σ ω γ} (hf : ∀ v, Yields (f v) R) :
    Yields (a >>= f) R :=
  Yields.bind (P := fun _ => True) (.of_forall fun _ => trivial) fun v _ => hf v

theorem Yields.mapM {f : γ → Seeding σ ω β} {S : γ → β → Prop} (h : ∀ u, Yields (f u) (S u)) :
    ∀ us : List γ, Yields (us.mapM f) (List.Forall₂ S us)
  | [] => by
    simpa only [List.mapM_nil] using yields_pure List.Forall₂.nil
  | u :: us => by
    simp only [List.mapM_cons]
    exact (h u).bind fun v hv => (Yields.mapM h us).bind fun vs hvs =>
      yields_pure (List.Forall₂.cons hv hvs)

theorem yields_refine {α : Type} [Scalar α] [Scalar ω] [Widening α ω] [Memory] [BlockProduct α]
    (r : Refiner ω) (x : Matrix α) (weights : Option (List α)) (start : Matrix α) :
    Yields (refine r x weights start : Seeding σ ω (Refined α ω)) fun res =>
      (r.run x weights start).1 = .ok res :=
  yields_andThen fun _ => yields_attempt _

/-- Rows that were drawn, in storage of their own. -/
theorem yields_pick? {α : Type} [Scalar α] [Memory] (x : Matrix α) (indices : List ℕ) :
    Yields (attempt (x.pick? indices) : Seeding σ ω (Matrix α)) (· = x.pick indices) :=
  (yields_attempt _).mono fun _ h => Matrix.eq_pick_of_pick? h

end Rules

/-! ### Row indices -/

/-- A list of `k` indices of `n` rows. -/
structure RowIndices (n k : ℕ) (is : List ℕ) : Prop where
  length : is.length = k
  lt : ∀ i ∈ is, i < n

theorem RowIndices.cons {n k i : ℕ} {is : List ℕ} (hi : i < n) (h : RowIndices n k is) :
    RowIndices n (k + 1) (i :: is) :=
  ⟨by rw [List.length_cons, h.length], List.forall_mem_cons.mpr ⟨hi, h.lt⟩⟩

theorem RowIndices.append {n k l : ℕ} {is js : List ℕ} (hi : RowIndices n k is)
    (hj : RowIndices n l js) : RowIndices n (k + l) (is ++ js) :=
  ⟨by rw [List.length_append, hi.length, hj.length], List.forall_mem_append.mpr ⟨hi.lt, hj.lt⟩⟩

section Draws

variable [Source σ ω]

/-- What is known of the indices that a source draws. -/
theorem yields_index_of {top : ℕ} {Q : ℕ → Prop}
    (h : ∀ (s : σ) (i : ℕ), (Source.index top s).1 = some i → Q i) :
    Yields (index top : Seeding σ ω ℕ) Q := by
  intro s i hi
  rcases hdraw : Source.index top s.source with ⟨draw, source⟩
  simp only [index, ExceptT.run, ExceptT.mk, hdraw] at hi
  cases draw with
  | none => cases hi
  | some j =>
    cases hi
    exact h s.source i (congrArg Prod.fst hdraw)

variable [Source.InRange σ]

theorem yields_index (top : ℕ) : Yields (index top : Seeding σ ω ℕ) (· ≤ top) :=
  yields_index_of fun _ _ h => Source.InRange.index_le h

theorem yields_index_lastIndex {n : ℕ} (hn : 0 < n) :
    Yields (index (lastIndex n) : Seeding σ ω ℕ) (· < n) :=
  (yields_index _).mono fun _ hi => Nat.lt_of_le_of_lt hi (lastIndex_lt hn)

theorem yields_pick {masses : List ω} (h : masses ≠ []) :
    Yields (pick masses : Seeding σ ω ℕ) (· < masses.length) := by
  rintro s i ⟨⟩
  exact Source.InRange.pick_lt h

omit [Source σ ω] [Source.InRange σ] in
theorem rowIndices_floydFrom {n : ℕ} : ∀ (picked : Std.TreeSet ℕ) (ps : List (ℕ × ℕ)),
    (∀ p ∈ ps, p.1 < n ∧ p.2 ≤ p.1) → RowIndices n ps.length (floydFrom picked ps)
  | _, [], _ => ⟨rfl, nofun⟩
  | picked, (top, drawn) :: ps, h => by
    obtain ⟨htop, hdrawn⟩ := h (top, drawn) List.mem_cons_self
    refine .cons ?_ (rowIndices_floydFrom _ ps fun p hp => h p (List.mem_cons_of_mem _ hp))
    show (if drawn ∈ picked then top else drawn) < n
    split_ifs
    · exact htop
    · exact Nat.lt_of_le_of_lt hdrawn htop

omit [Source σ ω] [Source.InRange σ] in
theorem rowIndices_floyd {n k : ℕ} (hk : k ≤ n) {draws : List ℕ}
    (h : List.Forall₂ (fun top i => i ≤ top) (floydTops n k) draws) :
    RowIndices n k (floyd n k draws) := by
  have hlen : ((floydTops n k).zip draws).length = k := by
    rw [List.length_zip, ← h.length_eq, floydTops, List.length_range', Nat.min_self]
  have hps : ∀ p ∈ (floydTops n k).zip draws, p.1 < n ∧ p.2 ≤ p.1 := by
    intro p hp
    have htop : p.1 ∈ floydTops n k := (List.of_mem_zip hp).1
    rw [floydTops, List.mem_range'_1] at htop
    exact ⟨by omega, (List.forall₂_iff_zip.mp h).2 hp⟩
  have hfloyd := rowIndices_floydFrom ∅ _ hps
  rwa [hlen] at hfloyd

/-- Any so many indices of rows. -/
theorem yields_indices {n : ℕ} (hn : 0 < n) (count : ℕ) :
    Yields ((List.replicate count (lastIndex n)).mapM index : Seeding σ ω (List ℕ))
      (RowIndices n count) := by
  refine (Yields.mapM (fun top => yields_index top) _).mono fun is his => ⟨?_, fun i hi => ?_⟩
  · rw [← his.length_eq, List.length_replicate]
  · obtain ⟨j, hj, rfl⟩ := List.mem_iff_getElem.mp hi
    have hle : is[j] ≤ lastIndex n := by simpa using his.get (by rwa [his.length_eq]) hj
    exact Nat.lt_of_le_of_lt hle (lastIndex_lt hn)

theorem yields_sampleRows {n : ℕ} (hn : 0 < n) (k : ℕ) :
    Yields (sampleRows n k : Seeding σ ω (List ℕ)) (RowIndices n k) := by
  unfold sampleRows
  split_ifs with hk
  · exact (Yields.mapM (fun top => yields_index top) _).bind fun draws hdraws =>
      yields_pure (rowIndices_floyd hk hdraws)
  · refine (yields_indices hn (k - n)).bind fun more hmore => yields_andThen fun _ =>
      yields_pure ?_
    have hall : RowIndices n n (List.range n) := ⟨List.length_range, fun i => List.mem_range.mp⟩
    have happ := hall.append hmore
    rwa [show n + (k - n) = k by omega] at happ

theorem yields_unused (top : ℕ) (used : Std.TreeSet ℕ) :
    ∀ tries, Yields (unused top used tries : Seeding σ ω ℕ) (· ≤ top)
  | 0 => yields_throw _
  | tries + 1 => by
    unfold unused
    refine (yields_index top).bind fun r hr => ?_
    split_ifs
    · exact yields_unused top used tries
    · exact yields_pure hr

theorem yields_pad {n : ℕ} (hn : 0 < n) : ∀ (count : ℕ) (used : Std.TreeSet ℕ),
    Yields (pad n count used : Seeding σ ω (List ℕ)) (RowIndices n count)
  | 0, _ => yields_pure ⟨rfl, nofun⟩
  | count + 1, used => by
    unfold pad
    split_ifs
    · exact (yields_unused _ _ _).bind fun r hr => (yields_pad hn count _).bind fun more hmore =>
        yields_pure (.cons (Nat.lt_of_le_of_lt hr (lastIndex_lt hn)) hmore)
    · exact (yields_index_lastIndex hn).bind fun r hr => (yields_pad hn count _).bind
        fun more hmore => yields_pure (.cons hr hmore)

/-- An index in proportion to masses is the index of one of them. -/
theorem yields_proportional {α : Type} [Scalar ω] [Widening α ω] {mass : List α} (h : mass ≠ []) :
    Yields (proportional mass : Seeding σ ω ℕ) (· < mass.length) := by
  have hpos : 0 < mass.length := List.length_pos_iff.mpr h
  have hmasses : (mass.map widen : List ω) ≠ [] := by simpa using h
  unfold proportional
  dsimp only
  split_ifs
  · exact (yields_pick hmasses).mono fun i hi => by rwa [List.length_map] at hi
  · exact yields_index_lastIndex hpos

end Draws

end Seeding

end Clustering
