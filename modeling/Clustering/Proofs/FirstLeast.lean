import Mathlib.Data.List.Induction
import Clustering.Proofs.Sweeps

/-!
# The first least value

A scan that lets only strictly smaller values take the lead ends with the least of them and, of
equal ones, with the first (`Lead.scan_firstLeast`).  This asks little of the comparison
(`Scalar.Ordered`), and only of values that are numbers: those below infinity, and infinity itself.
If all values are infinite the first one keeps the lead.
-/

namespace Clustering

/-! ### Numbers -/

namespace Scalar

variable {α : Type} [Scalar α]

/-- Values that take part in the order: those strictly below infinity, and infinity. -/
def IsNumber (v : α) : Prop := belowInfinity v = true ∨ v = infinity

theorem eq_infinity {v : α} (hv : IsNumber v) (h : ¬ belowInfinity v = true) : v = infinity :=
  hv.resolve_left h

/-- On numbers, strict comparison is a weak order that puts infinity, if there is one, above all
other values.  Different values may be level with each other, such as the two zeros. -/
class Ordered (α : Type) [Scalar α] : Prop where
  asymm : ∀ {u v : α}, u < v → ¬ v < u
  lt_or_lt : ∀ {u v w : α}, IsNumber v → u < w → u < v ∨ v < w
  lt_infinity : ∀ {v : α}, belowInfinity v = true → belowInfinity (infinity : α) = false →
    v < infinity

variable [Ordered α]

theorem lt_of_lt_of_not_lt {u v w : α} (hw : IsNumber w) (h : u < v) (hwv : ¬ w < v) : u < w :=
  (Ordered.lt_or_lt hw h).resolve_right hwv

theorem not_lt_self (v : α) : ¬ v < v := fun h => Ordered.asymm h h

end Scalar

/-! ### The scan -/

theorem getElem?_concat {α : Type} {vs : List α} {i : ℕ} {u v : α} (h : (vs ++ [v])[i]? = some u) :
    vs[i]? = some u ∨ i = vs.length ∧ u = v := by
  rcases Nat.lt_or_ge i vs.length with hi | hi
  · rw [List.getElem?_append_left hi] at h
    exact Or.inl h
  · rw [List.getElem?_append_right hi, List.getElem?_singleton] at h
    split_ifs at h with h0
    cases h
    exact Or.inr ⟨by omega, rfl⟩

/-- A value that no other one is below, at the first place where such a value stands. -/
structure FirstLeast {α : Type} [Scalar α] (vs : List α) (j : ℕ) (d : α) : Prop where
  get : vs[j]? = some d
  least : ∀ {i : ℕ} {v : α}, vs[i]? = some v → ¬ v < d
  first : ∀ {i : ℕ} {v : α}, vs[i]? = some v → i < j → d < v

open Scalar

variable {α : Type} [Scalar α]

namespace FirstLeast

variable {vs : List α} {j : ℕ} {d : α}

theorem lt_length (h : FirstLeast vs j d) : j < vs.length :=
  (List.getElem?_eq_some_iff.mp h.get).1

/-- A later value that is not smaller changes nothing. -/
theorem concat_of_not_lt (h : FirstLeast vs j d) {v : α} (hv : ¬ v < d) :
    FirstLeast (vs ++ [v]) j d where
  get := by rw [List.getElem?_append_left h.lt_length, h.get]
  least hu := by
    rcases getElem?_concat hu with hu | ⟨-, rfl⟩
    · exact h.least hu
    · exact hv
  first hu hij := by
    rcases getElem?_concat hu with hu | ⟨rfl, -⟩
    · exact h.first hu hij
    · exact absurd hij (Nat.not_lt_of_lt h.lt_length)

variable [Ordered α]

/-- A later value that is smaller than the least is the least, and the first of its kind. -/
theorem concat_of_lt (h : FirstLeast vs j d) (hnum : ∀ u ∈ vs, IsNumber u) {v : α} (hv : v < d) :
    FirstLeast (vs ++ [v]) vs.length v where
  get := by simp
  least hu := by
    rcases getElem?_concat hu with hu | ⟨-, rfl⟩
    · exact Ordered.asymm (lt_of_lt_of_not_lt (hnum _ (List.mem_of_getElem? hu)) hv (h.least hu))
    · exact not_lt_self _
  first hu hij := by
    rcases getElem?_concat hu with hu | ⟨rfl, -⟩
    · exact lt_of_lt_of_not_lt (hnum _ (List.mem_of_getElem? hu)) hv (h.least hu)
    · exact absurd hij (Nat.lt_irrefl _)

end FirstLeast

namespace Lead

theorem scan_concat (l : Lead α) (vs : List α) (v : α) :
    l.scan 0 (vs ++ [v]) = (l.scan 0 vs).challenge vs.length v := by
  rw [scan_append, Nat.zero_add]
  rfl

/-- What a lead says of the values scanned: they are all infinite, or it holds the first least. -/
inductive LeadsIn (vs : List α) : Lead α → Prop
  | none (infinite : ∀ v ∈ vs, belowInfinity v = false) : LeadsIn vs start
  | some {j : ℕ} {d : α} (firstLeast : FirstLeast vs j d) : LeadsIn vs ⟨j, .some d⟩

variable [Ordered α]

theorem LeadsIn.challenge {vs : List α} {l : Lead α} (h : LeadsIn vs l)
    (hnum : ∀ u ∈ vs, IsNumber u) (v : α) :
    LeadsIn (vs ++ [v]) (l.challenge vs.length v) := by
  unfold Lead.challenge
  cases h with
  | none infinite =>
    split_ifs with hbeaten
    · -- the first value below infinity is smaller than all before it
      refine .some ⟨by simp, fun hu => ?_, fun hu hij => ?_⟩
      · rcases getElem?_concat hu with hu | ⟨-, rfl⟩
        · have hmem := List.mem_of_getElem? hu
          have hfalse := infinite _ hmem
          obtain rfl := eq_infinity (hnum _ hmem) (by simp [hfalse])
          exact Ordered.asymm (Ordered.lt_infinity hbeaten hfalse)
        · exact not_lt_self _
      · rcases getElem?_concat hu with hu | ⟨rfl, -⟩
        · have hmem := List.mem_of_getElem? hu
          have hfalse := infinite _ hmem
          obtain rfl := eq_infinity (hnum _ hmem) (by simp [hfalse])
          exact Ordered.lt_infinity hbeaten hfalse
        · exact absurd hij (Nat.lt_irrefl _)
    · exact .none (List.forall_mem_append.mpr ⟨infinite, by simpa [start, beatenBy] using hbeaten⟩)
  | some firstLeast =>
    split_ifs with hbeaten
    · exact .some (firstLeast.concat_of_lt hnum (of_decide_eq_true hbeaten))
    · exact .some (firstLeast.concat_of_not_lt (by simpa [beatenBy] using hbeaten))

theorem leadsIn_scan (vs : List α) (hnum : ∀ u ∈ vs, IsNumber u) :
    LeadsIn vs (start.scan 0 vs) := by
  induction vs using List.reverseRecOn with
  | nil => exact .none nofun
  | append_singleton vs v ih =>
    have hvs : ∀ u ∈ vs, IsNumber u := fun u hu => hnum u (List.mem_append_left _ hu)
    rw [scan_concat]
    exact (ih hvs).challenge hvs v

/-- A scan of numbers finds the least and, of equal ones, the first. -/
theorem scan_firstLeast {vs : List α} (hne : vs ≠ []) (hnum : ∀ u ∈ vs, IsNumber u) :
    FirstLeast vs (start.scan 0 vs).nearest.label (start.scan 0 vs).nearest.dist := by
  have h := leadsIn_scan vs hnum
  generalize start.scan 0 vs = l at h
  cases h with
  | none infinite =>
    have hinf : ∀ u ∈ vs, u = infinity := fun u hu =>
      eq_infinity (hnum u hu) (by simp [infinite u hu])
    obtain ⟨v, ws, rfl⟩ := List.exists_cons_of_ne_nil hne
    refine ⟨?_, fun hu => ?_, fun _ hij => absurd hij (Nat.not_lt_zero _)⟩
    · rw [hinf v List.mem_cons_self]
      rfl
    · rw [hinf _ (List.mem_of_getElem? hu)]
      exact not_lt_self _
  | some firstLeast => exact firstLeast

end Lead

end Clustering
