import Clustering.Proofs.MachineOrder

/-!
# Square roots of machine numbers

The square root of a positive value is computed as that of an integer, its radicand, in units of a
power of two which is so small that the root has a full mantissa (`MachineOrder.sqrtCore_eq`).  The
root is rounded to the nearest integer, and a mantissa that rounding makes too long is halved
(`MachineOrder.unpack_pack_sqrt`).  Of two values the larger one has the larger exponent of the
root, or at the same exponent the larger radicand (`MachineOrder.radicand_le`).  So rounding may
make roots of different values the same, but does not turn them around: only of a smaller value the
root is smaller (`Scalar.RootOrdered`).
-/

namespace Clustering

open Float.Model (UnpackedFloat Format totalExponent)
open Float.Model.UnpackedFloat

/-! ### Square roots of integers -/

/-- The integer nearest to the square root, which never lies half-way between two. -/
def nearestRoot (n : ℕ) : ℕ := if n - n.sqrt * n.sqrt ≤ n.sqrt then n.sqrt else n.sqrt + 1

theorem nearestRoot_mono {m n : ℕ} (h : m ≤ n) : nearestRoot m ≤ nearestRoot n := by
  have hroot : m.sqrt ≤ n.sqrt := Nat.sqrt_le_sqrt h
  unfold nearestRoot
  rcases Nat.lt_or_eq_of_le hroot with hlt | heq
  · split_ifs <;> omega
  · rw [heq]
    split_ifs <;> omega

theorem sqrt_bounds {n q : ℕ} (hlo : 2 ^ (2 * q) ≤ n) (hhi : n < 2 ^ (2 * q + 2)) :
    2 ^ q ≤ n.sqrt ∧ n.sqrt < 2 ^ (q + 1) := by
  constructor
  · rw [Nat.le_sqrt, ← pow_add, ← two_mul]
    exact hlo
  · rw [Nat.sqrt_lt, ← pow_add]
    exact hhi.trans_eq (by ring_nf)

/-! ### Formats -/

namespace MachineOrder

/-- The largest exponent that can be packed. -/
def topExponent (spec : Format) : ℤ := spec.exponentBias - spec.mantissaBitsWithoutImplicit

/-- Formats with so many exponents that square roots are normal values. -/
def Roomy (spec : Format) : Prop := spec.minExponent + 2 * spec.mantissaBits ≤ 1

/-- The mantissa is as long as the exponent allows, and the exponent can be packed. -/
structure Canonical (spec : Format) (m : ℕ) (e : ℤ) : Prop where
  exponent : spec.targetExponent (totalExponent m e) = e
  le_top : e ≤ topExponent spec

theorem minExponent_eq (spec : Format) :
    spec.minExponent = 1 - spec.exponentBias - spec.mantissaBitsWithoutImplicit := by
  have hpow : 1 ≤ 2 ^ (spec.exponentBits - 1) := Nat.one_le_two_pow
  have hbias : (spec.exponentBias : ℤ) = 2 ^ (spec.exponentBits - 1) - 1 := by
    rw [Format.exponentBias, Nat.cast_sub hpow, Nat.cast_pow, Nat.cast_one, Nat.cast_ofNat]
  rw [hbias, Format.minExponent, Format.mantissaBits]
  omega

theorem two_pow_exponentBits (spec : Format) :
    2 ^ spec.exponentBits = 2 * spec.exponentBias + 2 := by
  have hpow : 1 ≤ 2 ^ (spec.exponentBits - 1) := Nat.one_le_two_pow
  have hbits : spec.exponentBits = spec.exponentBits - 1 + 1 := by
    have := spec.he
    omega
  unfold Format.exponentBias
  rw [hbits, Nat.pow_succ, Nat.add_sub_cancel]
  omega

variable {spec : Format}

theorem toNat_implicit {f : ℕ} (m : BitVec f) : (1#1 ++ m).toNat = 2 ^ f + m.toNat := by
  have hsum := Nat.shiftLeft_add_eq_or_of_lt m.isLt 1
  rw [BitVec.toNat_append, BitVec.toNat_one Nat.one_pos, ← hsum, Nat.shiftLeft_eq, Nat.one_mul]

theorem log2_implicit {f : ℕ} (m : BitVec f) : (1#1 ++ m).toNat.log2 = f := by
  have := m.isLt
  rw [toNat_implicit, Nat.log2_eq_iff (by positivity), Nat.pow_succ]
  omega

/-- Every finite value that is unpacked is canonical. -/
theorem canonical_unpack (hspec : Roomy spec) {b : BitVec spec.numBits} {s : Sign}
    {m : ℕ} {e : ℤ} {hm : 0 < m} (h : unpack spec b = .finite s m e hm) : Canonical spec m e := by
  have hmin := minExponent_eq spec
  have hcapacity := two_pow_exponentBits spec
  unfold Roomy Format.mantissaBits at hspec
  unfold unpack at h
  dsimp only at h
  split_ifs at h with hall hvoid hzero hvoid
  · -- subnormal
    cases h
    have hlog : (unpackMantissa b).toNat.log2 < spec.mantissaBitsWithoutImplicit :=
      (Nat.log2_lt hm.ne').mpr (unpackMantissa b).isLt
    rw [hzero, BitVec.toNat_zero]
    constructor
    · unfold Format.targetExponent totalExponent Format.mantissaBits
      push_cast
      omega
    · unfold topExponent
      push_cast
      omega
  · -- normal
    cases h
    have hlog := log2_implicit (unpackMantissa b)
    have hlt := (unpackExponent b).isLt
    have hpos : (unpackExponent b).toNat ≠ 0 := fun h0 => hzero (BitVec.eq_of_toNat_eq h0)
    have hend : (unpackExponent b).toNat ≠ 2 ^ spec.exponentBits - 1 := by
      intro hmax
      refine hall (BitVec.eq_of_toNat_eq ?_)
      rw [hmax, BitVec.neg_one_eq_allOnes, BitVec.toNat_allOnes]
    constructor
    · unfold Format.targetExponent totalExponent Format.mantissaBits
      rw [hlog]
      push_cast
      omega
    · unfold topExponent
      omega

/-- A normal value survives being packed. -/
theorem unpack_pack_normal {s : Sign} {m : ℕ} {e : ℤ} (hm : 0 < m)
    (hlog : m.log2 = spec.mantissaBitsWithoutImplicit) (hlo : spec.minExponent ≤ e)
    (hhi : e ≤ topExponent spec) :
    unpack spec (pack spec (.finite s m e hm)) = .finite s m e hm := by
  have hmin := minExponent_eq spec
  have hcapacity := two_pow_exponentBits spec
  unfold topExponent at hhi
  -- the exponent field is neither the first nor the last one
  obtain ⟨biased, hbiased⟩ : ∃ biased : ℕ,
      e + spec.exponentBias + spec.mantissaBitsWithoutImplicit = biased :=
    Int.eq_ofNat_of_zero_le (by omega)
  have hlt : biased + 1 < 2 ^ spec.exponentBits := by omega
  have hfield : (BitVec.ofNat spec.exponentBits biased).toNat = biased := by
    rw [BitVec.toNat_ofNat, Nat.mod_eq_of_lt (by omega)]
  have hfirst : BitVec.ofNat spec.exponentBits biased ≠ 0#_ := by
    intro h
    have h0 := congrArg BitVec.toNat h
    rw [hfield, BitVec.toNat_zero] at h0
    omega
  have hlast : BitVec.ofNat spec.exponentBits biased ≠ -1#_ := by
    intro h
    have hmax := congrArg BitVec.toNat h
    rw [hfield, BitVec.neg_one_eq_allOnes, BitVec.toNat_allOnes] at hmax
    omega
  have hmantissa : (1#1 ++ BitVec.ofNat spec.mantissaBitsWithoutImplicit m).toNat = m := by
    obtain ⟨hge, hless⟩ := (Nat.log2_eq_iff hm.ne').mp hlog
    rw [Nat.pow_succ] at hless
    rw [toNat_implicit, BitVec.toNat_ofNat, Nat.mod_eq_sub_mod hge, Nat.mod_eq_of_lt (by omega)]
    omega
  unfold pack
  dsimp only
  rw [hbiased, Int.toNat_natCast, if_neg (by omega),
    if_pos (by rw [hlog, Format.mantissaBits]; omega)]
  unfold unpack
  simp only [unpackMantissa_packComponents, unpackExponent_packComponents,
    unpackSign_packComponents, Sign.ofBitVec_toBitVec, if_neg hfirst, if_neg hlast, hfield,
    hmantissa]
  congr 1
  omega

/-! ### Rounding -/

/-- A mantissa that rounding has made too long is halved. -/
def carry (spec : Format) (r : ℕ) (t : ℤ) : ℕ × ℤ :=
  if r < 2 ^ spec.mantissaBits then (r, t) else (2 ^ spec.mantissaBitsWithoutImplicit, t + 1)

theorem roundedMantissa_ofMantissaAndAccuracy (r : ℕ) (acc : Accuracy) :
    (ExtendedMantissa.ofMantissaAndAccuracy r acc).roundedMantissa = acc.roundToNearestEven r := by
  cases acc with
  | exact => rfl
  | inexact o => cases o <;> rfl

/-- A mantissa that is not too long stays where it is. -/
theorem shift_of_fits {r : ℕ} {t : ℤ} (acc : Accuracy)
    (hlog : r.log2 ≤ spec.mantissaBitsWithoutImplicit) (ht : spec.minExponent ≤ t) :
    shiftToTargetExponent spec r t acc = (.ofMantissaAndAccuracy r acc, t) := by
  have hstay : (spec.targetExponent (totalExponent r t) - t).toNat = 0 := by
    unfold Format.targetExponent totalExponent Format.mantissaBits
    push_cast
    omega
  unfold shiftToTargetExponent shiftToExponent
  dsimp only
  rw [hstay, Nat.cast_zero, add_zero]
  rfl

/-- A mantissa that is too long by one is halved. -/
theorem shift_of_overflow {t : ℤ} (ht : spec.minExponent ≤ t) :
    shiftToTargetExponent spec (2 ^ spec.mantissaBits) t .exact =
      (.ofMantissaAndAccuracy (2 ^ spec.mantissaBitsWithoutImplicit) .exact, t + 1) := by
  have hone : (spec.targetExponent (totalExponent (2 ^ spec.mantissaBits) t) - t).toNat = 1 := by
    unfold Format.targetExponent totalExponent
    rw [Nat.log2_two_pow]
    omega
  have hhalf : 2 ^ spec.mantissaBits / 2 = 2 ^ spec.mantissaBitsWithoutImplicit := by
    rw [Format.mantissaBits, Nat.pow_add, pow_one, Nat.mul_div_cancel_left _ Nat.two_pos]
  have heven : 2 ^ spec.mantissaBits % 2 = 0 := by
    rw [Format.mantissaBits, Nat.pow_add, pow_one, Nat.mul_mod_right]
  unfold shiftToTargetExponent shiftToExponent
  dsimp only
  rw [hone, Nat.cast_one]
  refine congrArg (·, t + 1) ?_
  show ExtendedMantissa.shiftRightOne ⟨2 ^ spec.mantissaBits, false, false⟩ = _
  rw [ExtendedMantissa.shiftRightOne, hhalf, heven]
  rfl

/-- A mantissa of full length is rounded where it is. -/
theorem roundWithAccuracy_eq {r : ℕ} {t : ℤ} (acc : Accuracy)
    (hlog : r.log2 = spec.mantissaBitsWithoutImplicit) (hpos : 0 < r) (ht : spec.minExponent ≤ t) :
    ∃ h, roundWithAccuracy spec .positive r t acc =
      .finite .positive (carry spec (acc.roundToNearestEven r) t).1
        (carry spec (acc.roundToNearestEven r) t).2 h := by
  obtain ⟨hge, hlt⟩ := (Nat.log2_eq_iff hpos.ne').mp hlog
  have hrange : r ≤ acc.roundToNearestEven r ∧ acc.roundToNearestEven r ≤ r + 1 := by
    unfold Accuracy.roundToNearestEven
    split <;> omega
  unfold roundWithAccuracy
  dsimp only
  rw [shift_of_fits acc hlog.le ht, roundedMantissa_ofMantissaAndAccuracy]
  generalize acc.roundToNearestEven r = R at hrange ⊢
  unfold carry
  by_cases hR : R < 2 ^ spec.mantissaBits
  · have hfits : R.log2 ≤ spec.mantissaBitsWithoutImplicit := by
      have := (Nat.log2_lt (by omega)).mpr hR
      unfold Format.mantissaBits at this
      omega
    have hne : R ≠ 0 := by omega
    simp only [shift_of_fits .exact hfits ht, if_pos hR]
    exact ⟨Nat.pos_of_ne_zero hne, dif_neg hne⟩
  · -- the carry: rounding up has filled the mantissa, which is a power of two now
    have hfull : R = 2 ^ spec.mantissaBits := by
      unfold Format.mantissaBits at hR ⊢
      rw [Nat.add_comm] at hR ⊢
      omega
    have hne : 2 ^ spec.mantissaBitsWithoutImplicit ≠ 0 := (Nat.two_pow_pos _).ne'
    rw [hfull]
    simp only [shift_of_overflow ht, if_neg (Nat.lt_irrefl _)]
    exact ⟨Nat.two_pow_pos _, dif_neg hne⟩

/-! ### Square roots -/

/-- The exponent of the square root. -/
def rootExponent (spec : Format) (m : ℕ) (e : ℤ) : ℤ :=
  (totalExponent m e + 1) / 2 - spec.mantissaBits

/-- The value in units of the square of those of its root. -/
def radicand (spec : Format) (m : ℕ) (e : ℤ) : ℕ := m <<< (e - 2 * rootExponent spec m e).toNat

theorem carry_bounds {r : ℕ} (t : ℤ) (hlo : 2 ^ spec.mantissaBitsWithoutImplicit ≤ r) :
    (carry spec r t).1.log2 = spec.mantissaBitsWithoutImplicit ∧ t ≤ (carry spec r t).2 ∧
      (carry spec r t).2 ≤ t + 1 := by
  unfold carry
  split_ifs with hr
  · refine ⟨?_, le_rfl, by omega⟩
    have hpos : r ≠ 0 := (Nat.lt_of_lt_of_le (Nat.two_pow_pos _) hlo).ne'
    rw [Nat.log2_eq_iff hpos]
    rw [Format.mantissaBits, Nat.add_comm] at hr
    exact ⟨hlo, hr⟩
  · exact ⟨Nat.log2_two_pow, by omega, le_rfl⟩

theorem log2_shiftLeft {m : ℕ} (hm : 0 < m) (k : ℕ) : (m <<< k).log2 = m.log2 + k := by
  have hscale := Nat.two_pow_pos k
  rw [Nat.shiftLeft_eq, Nat.log2_eq_iff (by positivity), Nat.pow_add, Nat.add_right_comm,
    Nat.pow_add]
  exact ⟨Nat.mul_le_mul_right _ (Nat.log2_self_le hm.ne'),
    Nat.mul_lt_mul_of_pos_right Nat.lt_log2_self hscale⟩

/-- How the square root lies to the next integer below it. -/
def rootAccuracy (n : ℕ) : Accuracy :=
  if n - n.sqrt * n.sqrt = 0 then .exact
  else .inexact (if n - n.sqrt * n.sqrt ≤ n.sqrt then .lt else .gt)

theorem roundToNearestEven_root (n : ℕ) :
    (rootAccuracy n).roundToNearestEven n.sqrt = nearestRoot n := by
  unfold rootAccuracy nearestRoot
  split_ifs with hzero
  · rfl
  · omega
  · rfl
  · rfl

section Root

variable {m : ℕ} {e : ℤ} (h : Canonical spec m e)
include h

theorem two_mul_rootExponent_le : 2 * rootExponent spec m e ≤ e := by
  have hexp := h.exponent
  unfold rootExponent
  unfold Format.targetExponent totalExponent Format.mantissaBits at *
  push_cast at *
  omega

theorem log2_radicand (hm : 0 < m) :
    ((radicand spec m e).log2 : ℤ) = totalExponent m e - 1 - 2 * rootExponent spec m e := by
  have hle := two_mul_rootExponent_le h
  rw [radicand, log2_shiftLeft hm, totalExponent]
  push_cast
  omega

theorem radicand_bounds (hm : 0 < m) :
    2 ^ (2 * spec.mantissaBitsWithoutImplicit) ≤ radicand spec m e ∧
      radicand spec m e < 2 ^ (2 * spec.mantissaBitsWithoutImplicit + 2) := by
  have hlog := log2_radicand h hm
  have hpos : radicand spec m e ≠ 0 := by
    rw [radicand, Nat.shiftLeft_eq]
    positivity
  unfold rootExponent Format.mantissaBits at hlog
  push_cast at hlog
  rw [← Nat.le_log2 hpos, ← Nat.log2_lt hpos]
  omega

/-- The root lies among the normal values, exponents included. -/
theorem rootExponent_bounds (hspec : Roomy spec) :
    spec.minExponent ≤ rootExponent spec m e ∧ rootExponent spec m e + 1 ≤ topExponent spec := by
  have hexp := h.exponent
  have htop := h.le_top
  have hmin := minExponent_eq spec
  unfold Roomy at hspec
  unfold rootExponent
  unfold topExponent Format.targetExponent totalExponent Format.mantissaBits at *
  push_cast at *
  omega

theorem sqrtCore_eq (hspec : Roomy spec) :
    sqrtCore spec m e =
      ((radicand spec m e).sqrt, rootExponent spec m e, rootAccuracy (radicand spec m e)) := by
  have hexponent : min (e.ediv 2) (spec.targetExponent ((totalExponent m e + 1).ediv 2)) =
      rootExponent spec m e := by
    have hle := two_mul_rootExponent_le h
    have htarget : spec.targetExponent ((totalExponent m e + 1).ediv 2) = rootExponent spec m e :=
      max_eq_left (rootExponent_bounds h hspec).1
    rw [htarget]
    exact min_eq_right (by show _ ≤ e / 2; omega)
  unfold sqrtCore
  dsimp only
  rw [hexponent]
  rfl

theorem nearestRoot_radicand (hm : 0 < m) :
    2 ^ spec.mantissaBitsWithoutImplicit ≤ nearestRoot (radicand spec m e) ∧
      nearestRoot (radicand spec m e) ≤ 2 ^ spec.mantissaBits := by
  obtain ⟨hlo, hhi⟩ := radicand_bounds h hm
  obtain ⟨hge, hlt⟩ := sqrt_bounds hlo hhi
  rw [Format.mantissaBits, Nat.add_comm]
  unfold nearestRoot
  split_ifs <;> omega

/-- The square root of a positive value survives being packed. -/
theorem unpack_pack_sqrt (hspec : Roomy spec) (hm : 0 < m) :
    ∃ hr, unpack spec (pack spec (sqrt spec (.finite .positive m e hm))) =
      .finite .positive (carry spec (nearestRoot (radicand spec m e)) (rootExponent spec m e)).1
        (carry spec (nearestRoot (radicand spec m e)) (rootExponent spec m e)).2 hr := by
  obtain ⟨hmin, htop⟩ := rootExponent_bounds h hspec
  obtain ⟨hlo, hhi⟩ := radicand_bounds h hm
  obtain ⟨hge, hlt⟩ := sqrt_bounds hlo hhi
  have hpos : 0 < (radicand spec m e).sqrt := Nat.lt_of_lt_of_le (Nat.two_pow_pos _) hge
  have hlog := (Nat.log2_eq_iff hpos.ne').mpr ⟨hge, hlt⟩
  have hround := roundWithAccuracy_eq (rootAccuracy (radicand spec m e)) hlog hpos hmin
  rw [roundToNearestEven_root] at hround
  obtain ⟨hr, hround⟩ := hround
  obtain ⟨hfull, hstart, hend⟩ :=
    carry_bounds (rootExponent spec m e) (nearestRoot_radicand h hm).1
  refine ⟨hr, ?_⟩
  unfold sqrt
  dsimp only
  rw [sqrtCore_eq h hspec]
  dsimp only
  rw [hround]
  exact unpack_pack_normal hr hfull (hmin.trans hstart) (hend.trans htop)

end Root

/-- A carried mantissa does not go ahead of a larger one, or of one at a larger exponent. -/
theorem carry_le {r r' : ℕ} {t t' : ℤ} (hr : r ≤ 2 ^ spec.mantissaBits)
    (hr' : 2 ^ spec.mantissaBitsWithoutImplicit ≤ r') (h : t < t' ∨ t = t' ∧ r ≤ r') :
    (carry spec r t).2 < (carry spec r' t').2 ∨
      (carry spec r t).2 = (carry spec r' t').2 ∧ (carry spec r t).1 ≤ (carry spec r' t').1 := by
  rw [Format.mantissaBits, Nat.add_comm, Nat.pow_succ] at hr
  unfold carry
  rw [Format.mantissaBits, Nat.add_comm, Nat.pow_succ]
  split_ifs <;> dsimp only <;> omega

/-- A larger value has a larger radicand at the same exponent, or a larger exponent. -/
theorem radicand_le {m m' : ℕ} {e e' : ℤ} (h : Canonical spec m e) (h' : Canonical spec m' e')
    (hm : 0 < m) (hm' : 0 < m') (hle : e < e' ∨ e = e' ∧ m ≤ m') :
    rootExponent spec m e < rootExponent spec m' e' ∨
      rootExponent spec m e = rootExponent spec m' e' ∧
        radicand spec m e ≤ radicand spec m' e' := by
  have hexp := h.exponent
  have hexp' := h'.exponent
  have hlog := log2_radicand h hm
  have hlog' := log2_radicand h' hm'
  rcases hle with hlt | ⟨rfl, hle⟩
  · have htotal : totalExponent m e < totalExponent m' e' := by
      unfold Format.targetExponent at hexp hexp'
      omega
    have hroot : rootExponent spec m e ≤ rootExponent spec m' e' := by
      unfold rootExponent
      omega
    refine hroot.lt_or_eq.imp_right fun heq => ⟨heq, ?_⟩
    -- at the same exponent the larger value has one more bit
    have hpos' : radicand spec m' e' ≠ 0 := by
      rw [radicand, Nat.shiftLeft_eq]
      positivity
    calc radicand spec m e ≤ 2 ^ ((radicand spec m e).log2 + 1) := Nat.lt_log2_self.le
      _ ≤ 2 ^ (radicand spec m' e').log2 := Nat.pow_le_pow_right Nat.two_pos (by omega)
      _ ≤ radicand spec m' e' := Nat.log2_self_le hpos'
  · have hbits : m.log2 ≤ m'.log2 :=
      (Nat.le_log2 hm'.ne').mpr ((Nat.log2_self_le hm.ne').trans hle)
    have hroot : rootExponent spec m e ≤ rootExponent spec m' e := by
      unfold rootExponent totalExponent
      omega
    refine hroot.lt_or_eq.imp_right fun heq => ⟨heq, ?_⟩
    rw [radicand, radicand, heq, Nat.shiftLeft_eq, Nat.shiftLeft_eq]
    exact Nat.mul_le_mul_right _ hle

/-! ### Comparison of roots -/

/-- The square root, packed into the format and unpacked again. -/
def root (spec : Format) (v : UnpackedFloat) : UnpackedFloat :=
  unpack spec (pack spec (sqrt spec v))

@[simp] theorem root_notANumber : root spec .notANumber = .notANumber := unpack_packedNaN

@[simp] theorem root_zero (s : Sign) : root spec (.zero s) = .zero s := unpack_packedZero

@[simp] theorem root_infinity : root spec (.infinity .positive) = .infinity .positive := by
  simp [root, sqrt, pack, unpack, packedInfinity]

@[simp] theorem root_negative_infinity : root spec (.infinity .negative) = .notANumber :=
  unpack_packedNaN

@[simp] theorem root_negative {m : ℕ} {e : ℤ} {hm : 0 < m} :
    root spec (.finite .negative m e hm) = .notANumber := unpack_packedNaN

theorem key_finite_le {m m' : ℕ} {e e' : ℤ} {hm : 0 < m} {hm' : 0 < m'} :
    key (.finite .positive m e hm) ≤ key (.finite .positive m' e' hm') ↔
      e < e' ∨ e = e' ∧ m ≤ m' := by
  simp [key, Prod.Lex.toLex_le_toLex]

/-- Values that have a root. -/
inductive HasRoot (spec : Format) : UnpackedFloat → Prop
  | zero (s : Sign) : HasRoot spec (.zero s)
  | finite {m : ℕ} {e : ℤ} {hm : 0 < m} (h : Canonical spec m e) :
    HasRoot spec (.finite .positive m e hm)
  | infinity : HasRoot spec (.infinity .positive)

theorem HasRoot.isNaN {v : UnpackedFloat} (h : HasRoot spec v) : v.isNaN = false := by
  cases h <;> rfl

theorem hasRoot_of_isNaN (hspec : Roomy spec) {b : BitVec spec.numBits}
    (h : (root spec (unpack spec b)).isNaN = false) : HasRoot spec (unpack spec b) := by
  cases hv : unpack spec b with
  | notANumber => rw [hv, root_notANumber] at h; cases h
  | zero s => exact .zero s
  | infinity s =>
    cases s with
    | positive => exact .infinity
    | negative => rw [hv, root_negative_infinity] at h; cases h
  | finite s m e hm =>
    cases s with
    | positive => exact .finite (canonical_unpack hspec hv)
    | negative => rw [hv, root_negative] at h; cases h

/-- Roots are ordered as the values are. -/
theorem key_root_le (hspec : Roomy spec) {u v : UnpackedFloat} (hu : HasRoot spec u)
    (hv : HasRoot spec v) (h : key u ≤ key v) : key (root spec u) ≤ key (root spec v) := by
  cases hu with
  | zero s =>
    cases hv with
    | zero s' => simp [key]
    | finite hc =>
      obtain ⟨hr, hroot⟩ := unpack_pack_sqrt hc hspec ‹_›
      rw [root_zero, root, hroot]
      simp [key, Prod.Lex.toLex_le_toLex]
    | infinity => simp [key, Prod.Lex.toLex_le_toLex]
  | finite hc =>
    obtain ⟨hr, hroot⟩ := unpack_pack_sqrt hc hspec ‹_›
    cases hv with
    | zero s' => simp [key, Prod.Lex.toLex_le_toLex] at h
    | finite hc' =>
      obtain ⟨hr', hroot'⟩ := unpack_pack_sqrt hc' hspec ‹_›
      rw [root, root, hroot, hroot', key_finite_le]
      have hradicand := radicand_le hc hc' ‹_› ‹_› (key_finite_le.mp h)
      exact carry_le (nearestRoot_radicand hc ‹_›).2 (nearestRoot_radicand hc' ‹_›).1
        (hradicand.imp_right fun heq => ⟨heq.1, nearestRoot_mono heq.2⟩)
    | infinity =>
      rw [root_infinity, root, hroot]
      simp [key, Prod.Lex.toLex_le_toLex]
  | infinity =>
    cases hv with
    | zero s' => simp [key, Prod.Lex.toLex_le_toLex] at h
    | finite hc => simp [key, Prod.Lex.toLex_le_toLex] at h
    | infinity => exact le_rfl

/-- Only of a smaller value the root is smaller. -/
theorem lt_of_root_lt (hspec : Roomy spec) {a b : BitVec spec.numBits}
    (h : (root spec (unpack spec a)).lt (root spec (unpack spec b)) = true) :
    (unpack spec a).lt (unpack spec b) = true := by
  rw [lt_iff_key] at h ⊢
  obtain ⟨hnan, hnan', hkey⟩ := h
  have ha := hasRoot_of_isNaN hspec hnan
  have hb := hasRoot_of_isNaN hspec hnan'
  exact ⟨ha.isNaN, hb.isNaN,
    lt_of_not_ge fun hle => not_le_of_gt hkey (key_root_le hspec hb ha hle)⟩

end MachineOrder

/-! ### Scalars with such roots -/

/-- Only of smaller values the roots are smaller, and only numbers have roots. -/
class Scalar.RootOrdered (α : Type) [Scalar α] : Prop where
  lt_of_sqrt_lt : ∀ {u v : α}, sqrt u < sqrt v → u < v
  isNumber_of_sqrt : ∀ {v : α}, IsNumber (sqrt v) → IsNumber v

theorem MachineOrder.roomy_binary32 : Roomy .binary32 := by
  unfold Roomy
  decide

theorem MachineOrder.roomy_binary64 : Roomy .binary64 := by
  unfold Roomy
  decide

instance : Scalar.RootOrdered Float32 where
  lt_of_sqrt_lt h := Scalar.Unpacked.lt_iff.mpr
    (MachineOrder.lt_of_root_lt MachineOrder.roomy_binary32 (Scalar.Unpacked.lt_iff.mp h))
  isNumber_of_sqrt h := Scalar.Unpacked.isNumber_iff.mpr
    (MachineOrder.hasRoot_of_isNaN MachineOrder.roomy_binary32
      (Scalar.Unpacked.isNumber_iff.mp h)).isNaN

instance : Scalar.RootOrdered Float where
  lt_of_sqrt_lt h := Scalar.Unpacked.lt_iff.mpr
    (MachineOrder.lt_of_root_lt MachineOrder.roomy_binary64 (Scalar.Unpacked.lt_iff.mp h))
  isNumber_of_sqrt h := Scalar.Unpacked.isNumber_iff.mpr
    (MachineOrder.hasRoot_of_isNaN MachineOrder.roomy_binary64
      (Scalar.Unpacked.isNumber_iff.mp h)).isNaN

instance : (p : Precision) → Scalar.RootOrdered p.Machine
  | .single => inferInstanceAs (Scalar.RootOrdered Float32)
  | .double => inferInstanceAs (Scalar.RootOrdered Float)

end Clustering
