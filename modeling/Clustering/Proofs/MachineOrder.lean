import Mathlib
import Clustering.Precision
import Clustering.Proofs.FirstLeast

/-!
# The order of machine numbers

Machine floating point is compared by sign, exponent and mantissa.  `MachineOrder.key` puts these
three into one key of a linear order, so that on values that are numbers the comparison is a weak
order with infinity above all other values (`Scalar.Ordered`).  The numbers in the sense of
`Scalar.IsNumber` are exactly the values other than NaN (`isNumber_float32`, `isNumber_float`).
-/

namespace Clustering

open Float.Model (UnpackedFloat Format)
open Float.Model.UnpackedFloat

namespace MachineOrder

/-! ### The key of a value -/

/-- The class of a value by sign, with its exponent and its mantissa.  The values of one class are
further apart from zero the larger the exponent is, and then the larger the mantissa. -/
def key : UnpackedFloat → ℤ ×ₗ ℤ ×ₗ ℤ
  | .infinity .positive => toLex (2, toLex (0, 0))
  | .finite .positive m e _ => toLex (1, toLex (e, m))
  | .zero _ | .notANumber => toLex (0, toLex (0, 0))
  | .finite .negative m e _ => toLex (-1, toLex (-e, -m))
  | .infinity .negative => toLex (-2, toLex (0, 0))

theorem compare_sign {s t : Sign} : compare s t = .lt ↔ s = .negative ∧ t = .positive := by
  cases s <;> cases t <;> simp [compare]

/-- NaN is not below or above anything; other values are compared by their keys. -/
theorem lt_iff_key {u v : UnpackedFloat} :
    u.lt v = true ↔ u.isNaN = false ∧ v.isNaN = false ∧ key u < key v := by
  rcases u with (_ | _) | _ | _ | ⟨_ | _, m, e, _⟩ <;>
    rcases v with (_ | _) | _ | _ | ⟨_ | _, m', e', _⟩ <;>
    simp [UnpackedFloat.lt, UnpackedFloat.compare, isNaN, key, Prod.Lex.toLex_lt_toLex,
      compare_sign, Ordering.then_eq_lt, Ordering.then_eq_gt, compare_lt_iff_lt, compare_gt_iff_gt]

theorem key_lt_infinity {v : UnpackedFloat} (h : v ≠ .infinity .positive) :
    key v < key (.infinity .positive) := by
  cases v with
  | infinity s =>
    cases s with
    | positive => exact absurd rfl h
    | negative => simp [key, Prod.Lex.toLex_lt_toLex]
  | notANumber => simp [key, Prod.Lex.toLex_lt_toLex]
  | zero s => simp [key, Prod.Lex.toLex_lt_toLex]
  | finite s m e _ => cases s <;> simp [key, Prod.Lex.toLex_lt_toLex]

end MachineOrder

/-! ### Scalars that are compared by their keys -/

/-- Scalars that stand for unpacked floating-point values, and are compared as these. -/
class Scalar.Unpacked (α : Type) [Scalar α] where
  unpack : α → UnpackedFloat
  lt_iff : ∀ {u v : α}, u < v ↔ (unpack u).lt (unpack v) = true
  belowInfinity_iff : ∀ {v : α}, belowInfinity v = true ↔ v < infinity
  unpack_infinity : unpack infinity = .infinity .positive
  unpack_injective : Function.Injective unpack

namespace Scalar.Unpacked

open MachineOrder

variable {α : Type} [Scalar α] [Unpacked α]

theorem isNumber_iff {v : α} : IsNumber v ↔ (unpack v).isNaN = false := by
  rw [IsNumber, belowInfinity_iff, lt_iff, lt_iff_key, unpack_infinity]
  constructor
  · rintro (⟨hv, -, -⟩ | rfl)
    · exact hv
    · rw [unpack_infinity]
      rfl
  · intro hv
    by_cases hinf : unpack v = .infinity .positive
    · exact Or.inr (unpack_injective (hinf.trans unpack_infinity.symm))
    · exact Or.inl ⟨hv, rfl, key_lt_infinity hinf⟩

instance : Ordered α where
  asymm huv hvu := by
    rw [lt_iff, lt_iff_key] at huv hvu
    exact lt_asymm huv.2.2 hvu.2.2
  lt_or_lt {u v w} hv huw := by
    rw [isNumber_iff] at hv
    simp only [lt_iff, lt_iff_key] at huw ⊢
    obtain ⟨hu, hw, hlt⟩ := huw
    rcases lt_or_ge (key (unpack u)) (key (unpack v)) with h | h
    · exact Or.inl ⟨hu, hv, h⟩
    · exact Or.inr ⟨hv, hw, h.trans_lt hlt⟩
  lt_infinity hv _ := belowInfinity_iff.mp hv

end Scalar.Unpacked

/-! ### Machine numbers -/

instance : Scalar.Unpacked Float32 where
  unpack v := v.toModel.unpack
  lt_iff {u v} := decide_eq_true_iff (p := u.toModel < v.toModel)
  belowInfinity_iff := decide_eq_true_iff
  unpack_infinity := rfl
  unpack_injective u v h :=
    Float32.toBits_inj.mp (UInt32.toBitVec_inj.mp
      ((unpack_inj_of_valid u.toModel.valid v.toModel.valid).mp h))

instance : Scalar.Unpacked Float where
  unpack v := v.toModel.unpack
  lt_iff {u v} := decide_eq_true_iff (p := u.toModel < v.toModel)
  belowInfinity_iff := decide_eq_true_iff
  unpack_infinity := rfl
  unpack_injective u v h :=
    Float.toBits_inj.mp (UInt64.toBitVec_inj.mp
      ((unpack_inj_of_valid u.toModel.valid v.toModel.valid).mp h))

theorem isNumber_float32 {v : Float32} : Scalar.IsNumber v ↔ v.isNaN = false :=
  Scalar.Unpacked.isNumber_iff

theorem isNumber_float {v : Float} : Scalar.IsNumber v ↔ v.isNaN = false :=
  Scalar.Unpacked.isNumber_iff

instance : (p : Precision) → Scalar.Ordered p.Machine
  | .single => inferInstanceAs (Scalar.Ordered Float32)
  | .double => inferInstanceAs (Scalar.Ordered Float)

end Clustering
