import Clustering.Proofs.Exact
import Clustering.Proofs.MachineRoot

/-!
# One as a unit

A product with one is the other factor (`Scalar.Unital`), bit for bit also in machine floating
point: the product of the mantissas is the other mantissa with zeros behind it, and rounding cuts
these off (`MachineOrder.round_scaled`).  So it is for zeros with their signs, for infinities and
for NaN (`MachineOrder.mul_one_unpack`).
-/

namespace Clustering

open Float.Model (UnpackedFloat Format totalExponent)
open Float.Model.UnpackedFloat

/-- A product with one is the other factor. -/
class Scalar.Unital (α : Type) [Scalar α] : Prop where
  one_mul : ∀ d : α, 1 * d = d

instance {K : Type} [ExactScalar K] : Scalar.Unital K := ⟨one_mul⟩

namespace MachineOrder

variable {spec : Format}

/-! ### Mantissas with zeros behind them -/

/-- Zeros are shifted out without a trace. -/
theorem shiftRight_scaled (k m : ℕ) :
    ExtendedMantissa.ofMantissaAndAccuracy (2 ^ k * m) .exact >>> k =
      ExtendedMantissa.ofMantissaAndAccuracy m .exact := by
  induction k generalizing m with
  | zero => rw [pow_zero, Nat.one_mul]; rfl
  | succ k ih =>
    have hsplit : 2 ^ (k + 1) * m = 2 ^ k * (2 * m) := by rw [Nat.pow_succ, Nat.mul_assoc]
    -- the last shift is that of the bit next to the mantissa
    show (ExtendedMantissa.ofMantissaAndAccuracy (2 ^ (k + 1) * m) .exact >>> k).shiftRightOne = _
    rw [hsplit, ih]
    simp [ExtendedMantissa.shiftRightOne, ExtendedMantissa.ofMantissaAndAccuracy]

theorem totalExponent_scaled {m : ℕ} (hm : 0 < m) (k : ℕ) (e : ℤ) :
    totalExponent (2 ^ k * m) (-k + e) = totalExponent m e := by
  rw [Nat.mul_comm, ← Nat.shiftLeft_eq, totalExponent, log2_shiftLeft hm, totalExponent]
  push_cast
  ring

/-- A canonical value is rounded to itself, however many zeros are behind its mantissa. -/
theorem round_scaled {m : ℕ} {e : ℤ} (h : Canonical spec m e) (hm : 0 < m) (k : ℕ) (s : Sign) :
    roundWithAccuracy spec s (2 ^ k * m) (-k + e) .exact = .finite s m e hm := by
  have hexp := h.exponent
  -- shifting back by `k` drops zeros only, so nothing is lost and there is nothing to round
  have hbulk : shiftToTargetExponent spec (2 ^ k * m) (-k + e) .exact =
      (.ofMantissaAndAccuracy m .exact, e) := by
    have hamount : (e - (-k + e)).toNat = k := by omega
    unfold shiftToTargetExponent shiftToExponent
    rw [totalExponent_scaled hm, hexp]
    dsimp only
    rw [hamount, shiftRight_scaled]
    exact congrArg _ (by omega)
  have hfits : m.log2 ≤ spec.mantissaBitsWithoutImplicit := by
    unfold Format.targetExponent totalExponent Format.mantissaBits at hexp
    push_cast at hexp
    omega
  have hmin : spec.minExponent ≤ e := by
    rw [← hexp]
    exact le_max_right _ _
  unfold roundWithAccuracy
  dsimp only
  rw [hbulk, roundedMantissa_ofMantissaAndAccuracy]
  simp only [Accuracy.roundToNearestEven, shift_of_fits .exact hfits hmin]
  exact dif_neg hm.ne'

/-! ### Products with one -/

/-- One, with a mantissa of `k + 1` bits. -/
def unit (k : ℕ) : UnpackedFloat := .finite .positive (2 ^ k) (-k) (Nat.two_pow_pos k)

theorem mul_one_unpack (hspec : Roomy spec) (k : ℕ) (b : BitVec spec.numBits) :
    mul spec (unit k) (unpack spec b) = unpack spec b := by
  have hsign : ∀ s : Sign, Sign.positive * s = s := by
    intro s
    cases s <;> rfl
  cases hv : unpack spec b with
  | infinity s => exact congrArg _ (hsign s)
  | notANumber => rfl
  | zero s => exact congrArg _ (hsign s)
  | finite s m e hm =>
    show roundWithAccuracy spec (.positive * s) (2 ^ k * m) (-k + e) .exact = _
    rw [hsign]
    exact round_scaled (canonical_unpack hspec hv) hm k s

end MachineOrder

instance : Scalar.Unital Float32 where
  one_mul d := by
    have hone : (1 : Float32).toModel.unpack = MachineOrder.unit 23 := rfl
    have hbits : pack .binary32 (mul .binary32 (1 : Float32).toModel.unpack d.toModel.unpack) =
        d.toModel.toBits.toBitVec := by
      rw [hone, Float32.Model.unpack, MachineOrder.mul_one_unpack MachineOrder.roomy_binary32,
        pack_unpack_of_valid d.toModel.valid]
    exact Float32.toBits_inj.mp (UInt32.toBitVec_inj.mp hbits)

instance : Scalar.Unital Float where
  one_mul d := by
    have hone : (1 : Float).toModel.unpack = MachineOrder.unit 52 := rfl
    have hbits : pack .binary64 (mul .binary64 (1 : Float).toModel.unpack d.toModel.unpack) =
        d.toModel.toBits.toBitVec := by
      rw [hone, Float.Model.unpack, MachineOrder.mul_one_unpack MachineOrder.roomy_binary64,
        pack_unpack_of_valid d.toModel.valid]
    exact Float.toBits_inj.mp (UInt64.toBitVec_inj.mp hbits)

instance : (p : Precision) → Scalar.Unital p.Machine
  | .single => inferInstanceAs (Scalar.Unital Float32)
  | .double => inferInstanceAs (Scalar.Unital Float)

end Clustering
