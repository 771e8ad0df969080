import Clustering.Random.Source
import Mathlib.Data.Nat.Notation
import Mathlib.Tactic.SplitIfs

/-!
# Draws in range

A source may be any state with draws; what is asked of it where indices matter is that each draw
keeps to its range (`Source.InRange`).  The generator of 64-bit words does: a uniform index is the
upper half of a product (`Uniform.index_le`), and a draw in proportion to masses searches shares of
which the last one is not below any number of the unit interval (`Discrete.lowerBound_lt`).
-/

namespace Clustering

/-- A source that keeps to the range of each draw. -/
class Source.InRange (σ : Type) {ω : Type} [Source σ ω] : Prop where
  index_le : ∀ {top i : ℕ} {s : σ}, (Source.index top s).1 = some i → i ≤ top
  pick_lt : ∀ {masses : List ω} {s : σ}, masses ≠ [] → (Source.pick masses s).1 < masses.length

/-- The source may give up on drawing an index. -/
def Source.GivesUp (σ : Type) {ω : Type} [Source σ ω] : Prop :=
  ∃ (top : ℕ) (s : σ), (Source.index top s).1 = none

/-! ### Indices -/

theorem Uniform.index_le {σ : Type} (word : σ → UInt64 × σ) (top : ℕ) :
    ∀ (tries : ℕ) (s : σ) {i : ℕ}, (index word top tries s).1 = some i → i ≤ top
  | 0, _, _, h => nomatch h
  | tries + 1, s, i, h => by
    unfold index at h
    dsimp only at h
    split_ifs at h
    · exact index_le word top tries _ h
    · obtain rfl := Option.some.inj h
      have hword : (word s).1.toNat < wordRange := (word s).1.toNat_lt
      have hproduct : (word s).1.toNat * (top + 1) < wordRange * (top + 1) :=
        Nat.mul_lt_mul_of_pos_right hword (Nat.succ_pos top)
      exact Nat.le_of_lt_succ (Nat.div_lt_of_lt_mul hproduct)

/-! ### Proportional draws -/

namespace Discrete

/-- The search ends between a value below `u` and one that is not, in whatever order the values
are. -/
theorem lowerBound_spec {ω : Type} [Scalar ω] (cs : List ω) (u : ω) (first count : ℕ) :
    lowerBound cs u first count ≤ first + count ∧
      (lowerBound cs u first count = first ∨ cs.getD (lowerBound cs u first count - 1) 0 < u) ∧
      (lowerBound cs u first count = first + count ∨
        ¬ cs.getD (lowerBound cs u first count) 0 < u) := by
  induction first, count using lowerBound.induct cs u with
  | case1 first =>
    rw [lowerBound, if_pos rfl]
    exact ⟨Nat.le_refl _, Or.inl rfl, Or.inl rfl⟩
  | case2 first count hcount hbelow ih =>
    rw [lowerBound, if_neg hcount, if_pos hbelow]
    have hend : first + count / 2 + 1 + (count - count / 2 - 1) = first + count := by omega
    rw [hend] at ih
    obtain ⟨hle, hlow, hhigh⟩ := ih
    refine ⟨hle, Or.inr ?_, hhigh⟩
    rcases hlow with heq | hlow
    · rw [heq, Nat.add_sub_cancel]
      exact hbelow
    · exact hlow
  | case3 first count hcount hbelow ih =>
    rw [lowerBound, if_neg hcount, if_neg hbelow]
    obtain ⟨hle, hlow, hhigh⟩ := ih
    refine ⟨Nat.le_trans hle (by omega), hlow, Or.inr ?_⟩
    rcases hhigh with heq | hhigh
    · rw [heq]
      exact hbelow
    · exact hhigh

/-- If the value at the last of `n` positions is not below `u`, the search stays within them. -/
theorem lowerBound_lt {ω : Type} [Scalar ω] {cs : List ω} {u : ω} {n : ℕ}
    (hlast : ¬ cs.getD (n - 1) 0 < u) (first count : ℕ) (hfirst : first < n)
    (hend : first + count ≤ n) : lowerBound cs u first count < n := by
  obtain ⟨hle, hlow, -⟩ := lowerBound_spec cs u first count
  refine Nat.lt_of_le_of_ne (Nat.le_trans hle hend) fun heq => ?_
  rw [heq] at hlow
  exact hlast (hlow.resolve_left (Nat.ne_of_gt hfirst))

theorem length_runningFrom {ω : Type} [Scalar ω] (sum : ω) (ps : List ω) :
    (runningFrom sum ps).length = ps.length := by
  induction ps generalizing sum with
  | nil => rfl
  | cons p ps ih => rw [runningFrom, List.length_cons, ih, List.length_cons]

theorem length_runningSums {ω : Type} [Scalar ω] (ps : List ω) :
    (runningSums ps).length = ps.length := by
  cases ps with
  | nil => rfl
  | cons p ps => rw [runningSums, List.length_cons, length_runningFrom, List.length_cons]

theorem getD_shares_last {ω : Type} [Scalar ω] (masses : List ω) :
    (shares masses).getD (masses.length - 1) 0 = 1 := by
  have hlength : ((runningSums (masses.map (· / total masses))).dropLast).length =
      masses.length - 1 := by
    rw [List.length_dropLast, length_runningSums, List.length_map]
  rw [shares, List.getD_eq_getElem?_getD, ← hlength, List.getElem?_concat_length]
  rfl

/-- A draw is the index of a mass. -/
theorem draw_lt {σ ω : Type} [Scalar ω] {coin : σ → ω × σ} (hcoin : ∀ s, ¬ 1 < (coin s).1)
    {masses : List ω} (h : masses ≠ []) (s : σ) : (draw coin masses s).1 < masses.length := by
  have hpos := List.length_pos_iff.mpr h
  unfold draw
  split_ifs with hfew
  · exact hpos
  · refine lowerBound_lt ?_ 0 _ hpos (by omega)
    rw [getD_shares_last]
    exact hcoin s

end Discrete

/-! ### The generator -/

/-- Whatever the machine calls less it also calls less or equal. -/
theorem Uniform.le_of_lt {u v : Float.Model.UnpackedFloat} (h : u.lt v = true) :
    u.le v = true := by
  rw [Float.Model.UnpackedFloat.lt, beq_iff_eq] at h
  rw [Float.Model.UnpackedFloat.le, h]
  rfl

theorem Uniform.not_one_lt_unit {σ : Type} (word : σ → UInt64 × σ) (range : Float) (count : ℕ)
    (s : σ) : ¬ 1 < (unit word range count s).1 := by
  unfold unit
  dsimp only
  split_ifs with hone
  · decide +kernel
  · intro hlt
    exact hone (decide_eq_true (le_of_lt (of_decide_eq_true hlt)))

instance : Source.InRange (Twister Twister.wide) where
  index_le h := Uniform.index_le _ _ _ _ h
  pick_lt h := Discrete.draw_lt (fun s => Uniform.not_one_lt_unit _ _ _ s) h _

/-! ### Counting and scripts -/

/-- A source that counts: its indices go round and round, and its numbers are all zero. -/
structure Counter (ω : Type) where
  next : ℕ

instance {ω : Type} [Zero ω] : Source (Counter ω) ω where
  seed w := ⟨w.toNat⟩
  index top s := (some (s.next % (top + 1)), ⟨s.next + 1⟩)
  coin s := (0, ⟨s.next + 1⟩)
  pick masses s := (s.next % masses.length, ⟨s.next + 1⟩)

instance {ω : Type} [Zero ω] : Source.InRange (Counter ω) where
  index_le h := by
    obtain rfl := Option.some.inj h
    exact Nat.le_of_lt_succ (Nat.mod_lt _ (Nat.succ_pos _))
  pick_lt h := Nat.mod_lt _ (List.length_pos_iff.mpr h)

theorem Counter.not_givesUp {ω : Type} [Zero ω] : ¬ Source.GivesUp (Counter ω) := by
  rintro ⟨top, s, h⟩
  cases h

/-- A source whose indices are written down beforehand, zeros after the last one.  An index that is
too large is cut down to the range of its draw. -/
structure Script (ω : Type) where
  indices : List ℕ

instance {ω : Type} [Zero ω] : Source (Script ω) ω where
  seed _ := ⟨[]⟩
  index top s := (some (min top (s.indices.headD 0)), ⟨s.indices.tail⟩)
  coin s := (0, s)
  pick _ s := (0, s)

instance {ω : Type} [Zero ω] : Source.InRange (Script ω) where
  index_le h := by
    obtain rfl := Option.some.inj h
    exact Nat.min_le_left _ _
  pick_lt h := List.length_pos_iff.mpr h

end Clustering
