import Mathlib
import Clustering.Mixture
import Clustering.Proofs.Exact

/-!
# Streams of words

A stream draws words below a bound if every word that it ever draws is one (`WordsBelow`).  The
generator of 32-bit words does, whatever its seed: the state of a seed is masked to 32 bits, and
recurrence and tempering only shift to the right, or to the left under a mask
(`Twister.wordsBelow_ofSeed`).

From such words a number of the unit interval is below one in exact arithmetic
(`Uniform.unit_spec`), so that a number between two bounds keeps to them (`Uniform.between_mem`).
-/

namespace Clustering

/-- Every word that the stream draws from a state on is below `range`. -/
def WordsBelow {σ : Type} (word : σ → UInt64 × σ) (range : ℕ) (s : σ) : Prop :=
  ∀ k, (word ((fun t => (word t).2)^[k] s)).1.toNat < range

namespace WordsBelow

variable {σ : Type} {word : σ → UInt64 × σ} {range : ℕ} {s : σ}

theorem head (h : WordsBelow word range s) : (word s).1.toNat < range := h 0

theorem tail (h : WordsBelow word range s) : WordsBelow word range (word s).2 := fun k => h (k + 1)

/-- An invariant of the states bounds the stream if it bounds each word. -/
theorem of_invariant {I : σ → Prop} (hword : ∀ t, I t → (word t).1.toNat < range ∧ I (word t).2)
    (h : I s) : WordsBelow word range s := by
  have hstates : ∀ k, I ((fun t => (word t).2)^[k] s) := by
    intro k
    induction k with
    | zero => exact h
    | succ k ih =>
      rw [Function.iterate_succ_apply']
      exact (hword _ ih).2
  exact fun k => (hword _ (hstates k)).1

end WordsBelow

/-! ### The generator of 32-bit words -/

namespace Twister

/-- A word of 32 bits. -/
def IsShort (w : UInt64) : Prop := w.toNat < 2 ^ 32

instance : DecidablePred IsShort := fun w => inferInstanceAs (Decidable (w.toNat < 2 ^ 32))

theorem IsShort.xor {v w : UInt64} (hv : IsShort v) (hw : IsShort w) : IsShort (v ^^^ w) := by
  rw [IsShort, UInt64.toNat_xor]
  exact Nat.xor_lt_two_pow hv hw

theorem IsShort.or {v w : UInt64} (hv : IsShort v) (hw : IsShort w) : IsShort (v ||| w) := by
  rw [IsShort, UInt64.toNat_or]
  exact Nat.or_lt_two_pow hv hw

/-- A mask makes any word short. -/
theorem IsShort.and {mask : UInt64} (v : UInt64) (hmask : IsShort mask) : IsShort (v &&& mask) := by
  rw [IsShort, UInt64.toNat_and]
  exact Nat.and_lt_two_pow _ hmask

theorem IsShort.shiftRight {w : UInt64} (hw : IsShort w) (v : UInt64) : IsShort (w >>> v) := by
  rw [IsShort, UInt64.toNat_shiftRight]
  exact (Nat.shiftRight_le _ _).trans_lt hw

/-- All words of a state are short. -/
def ShortWords (words : Array UInt64) : Prop := ∀ w ∈ words, IsShort w

theorem ShortWords.getD {words : Array UInt64} (h : ShortWords words) (i : ℕ) :
    IsShort (words.getD i 0) := by
  rw [Array.getD_eq_getD_getElem?]
  cases hi : words[i]? with
  | none => decide
  | some w => exact h w (Array.mem_of_getElem? hi)

theorem ShortWords.extend {words : Array UInt64} (h : ShortWords words) (i : ℕ) :
    ShortWords (extend narrow words i) :=
  Array.forall_mem_push.mpr ⟨.and _ (by decide), h⟩

theorem ShortWords.turnWord {words : Array UInt64} (h : ShortWords words) (i : ℕ) :
    ShortWords (turnWord narrow words i) := by
  intro w hw
  rcases Array.mem_or_eq_of_mem_setIfInBounds hw with hw | rfl
  · exact h w hw
  · have hjoined : IsShort ((words.getD i 0 &&& (narrow.mask ^^^ narrow.lowMask)) |||
        (words.getD ((i + 1) % narrow.size) 0 &&& narrow.lowMask)) :=
      .or (.and _ (by decide)) (.and _ (by decide))
    have htwist : ∀ p : Prop, [Decidable p] → IsShort (if p then 0 else narrow.twist) := by
      intro p _
      split_ifs <;> decide
    exact .xor (h.getD _) (.xor (hjoined.shiftRight 1) (htwist _))

/-- A fold of steps that keep words short keeps them short. -/
theorem ShortWords.foldl {step : Array UInt64 → ℕ → Array UInt64}
    (hstep : ∀ words i, ShortWords words → ShortWords (step words i)) {words : Array UInt64}
    (h : ShortWords words) (is : List ℕ) : ShortWords (is.foldl step words) := by
  induction is generalizing words with
  | nil => exact h
  | cons i is ih => exact ih (hstep words i h)

theorem IsShort.xor_and {w mask : UInt64} (hw : IsShort w) (v : UInt64) (hmask : IsShort mask) :
    IsShort (w ^^^ (v &&& mask)) := hw.xor (.and v hmask)

theorem IsShort.temper {w : UInt64} (h : IsShort w) : IsShort (temper narrow w) := by
  let w₁ := w ^^^ ((w >>> narrow.temper₁) &&& narrow.temperMask₁)
  let w₂ := w₁ ^^^ ((w₁ <<< narrow.temper₂) &&& narrow.temperMask₂)
  have h₁ : IsShort w₁ := h.xor_and _ (by decide)
  have h₂ : IsShort w₂ := h₁.xor_and _ (by decide)
  have h₃ := h₂.xor_and (w₂ <<< narrow.temper₃) (by decide : IsShort narrow.temperMask₃)
  exact h₃.xor (h₃.shiftRight narrow.temper₄)

theorem words_turn {d : Design} (g : Twister d) :
    g.turn.words = (List.range d.size).foldl (turnWord d) g.words := rfl

theorem words_ofSeed (d : Design) (seed : UInt64) :
    (ofSeed d seed).words = (List.range' 1 (d.size - 1)).foldl (extend d) #[seed &&& d.mask] := rfl

theorem ShortWords.turn {g : Twister narrow} (h : ShortWords g.words) :
    ShortWords g.turn.words := by
  rw [words_turn]
  exact h.foldl (fun words i hw => hw.turnWord i) _

theorem isShort_next {g : Twister narrow} (h : ShortWords g.words) :
    IsShort g.next.1 ∧ ShortWords g.next.2.words := by
  have hblock : ShortWords (if g.position < narrow.size then g else g.turn).words := by
    split_ifs
    · exact h
    · exact h.turn
  exact ⟨(hblock.getD _).temper, hblock⟩

theorem shortWords_ofSeed (seed : UInt64) : ShortWords (ofSeed narrow seed).words := by
  have hseed : ShortWords #[seed &&& narrow.mask] := by
    intro w hw
    rw [Array.mem_singleton.mp hw]
    exact .and _ (by decide)
  rw [words_ofSeed]
  exact hseed.foldl (fun words i hw => hw.extend i) _

/-- The generator that a seed starts draws words of 32 bits. -/
theorem wordsBelow_ofSeed (seed : UInt64) :
    WordsBelow next 0x1_0000_0000 (ofSeed narrow seed) :=
  .of_invariant (I := fun g => ShortWords g.words) (fun _ h => isShort_next h)
    (shortWords_ofSeed seed)

end Twister

/-! ### Numbers of the unit interval -/

namespace Uniform

variable {K σ : Type} [ExactScalar K] {word : σ → UInt64 × σ} {range : ℕ}

/-- The sum of the words that were gathered is short of the power by one. -/
theorem gather_spec : ∀ (count : ℕ) {sum power : K} {s : σ}, 0 ≤ sum → sum + 1 ≤ power →
    WordsBelow word range s →
      0 ≤ (gather word (range : K) count sum power s).1.1 ∧
        (gather word (range : K) count sum power s).1.1 + 1 ≤
          (gather word (range : K) count sum power s).1.2 ∧
        WordsBelow word range (gather word (range : K) count sum power s).2
  | 0, _, _, _, hsum, hpower, hs => ⟨hsum, hpower, hs⟩
  | count + 1, sum, power, s, hsum, hpower, hs => by
    have hword : ((word s).1.toNat : K) + 1 ≤ range := by exact_mod_cast hs.head
    have hpos : 0 ≤ power := by linarith
    refine gather_spec count ?_ ?_ hs.tail
    · exact add_nonneg hsum (mul_nonneg (Nat.cast_nonneg _) hpos)
    · calc sum + ((word s).1.toNat : K) * power + 1
          ≤ ((word s).1.toNat + 1) * power := by linarith
        _ ≤ power * range := by
          rw [mul_comm]
          exact mul_le_mul_of_nonneg_left hword hpos

/-- A number made of words below the bound lies in the unit interval, short of its end. -/
theorem unit_spec (count : ℕ) {s : σ} (hs : WordsBelow word range s) :
    0 ≤ (unit word (range : K) count s).1 ∧ (unit word (range : K) count s).1 < 1 ∧
      WordsBelow word range (unit word (range : K) count s).2 := by
  have hone : (0 : K) + 1 ≤ 1 := (zero_add 1).le
  obtain ⟨hsum, hpower, hrest⟩ := gather_spec count le_rfl hone hs
  set r := gather word (range : K) count 0 1 s with hr
  have hpos : 0 < r.1.2 := by linarith
  have hlt : r.1.1 / r.1.2 < 1 := (div_lt_one hpos).mpr (by linarith)
  have hunit : (unit word (range : K) count s).1 = r.1.1 / r.1.2 := if_neg (not_le.mpr hlt)
  rw [hunit]
  exact ⟨div_nonneg hsum hpos.le, hlt, hrest⟩

theorem between_mem {a b u : K} (hab : a ≤ b) (h0 : 0 ≤ u) (h1 : u ≤ 1) :
    a ≤ between a b u ∧ between a b u ≤ b := by
  have hwidth : 0 ≤ b - a := sub_nonneg.mpr hab
  have hle := mul_le_mul_of_nonneg_right h1 hwidth
  have hnonneg := mul_nonneg h0 hwidth
  unfold between
  constructor <;> linarith

end Uniform

end Clustering
