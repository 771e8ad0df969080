import Clustering.Proofs.Exact
import Clustering.Proofs.Draws

/-!
# Draws that do not depend on the unit of masses

In exact arithmetic an index drawn in proportion to masses stays the same if all masses are
multiplied by a positive number, because their shares do (`Discrete.shares_map_mul`).  A source for
which this holds is `Source.ScaleFree`.  The generator of 64-bit words, with exact numbers of the
unit interval, is such a source (`ExactTwister`).
-/

namespace Clustering

/-- A source whose proportional draws do not depend on the unit of the masses. -/
class Source.ScaleFree (σ : Type) {ω : Type} [Scalar ω] [Source σ ω] : Prop where
  pick_map_mul : ∀ {a : ω}, 0 < a → ∀ (masses : List ω) (s : σ),
    Source.pick (masses.map (a * ·)) s = Source.pick masses s

variable {K : Type} [ExactScalar K]

namespace Discrete

theorem shares_map_mul {a : K} (ha : a ≠ 0) (masses : List K) :
    shares (masses.map (a * ·)) = shares masses := by
  have hmap : (masses.map (a * ·)).map (· / (a * total masses)) =
      masses.map (· / total masses) := by
    rw [List.map_map]
    exact List.map_congr_left fun m _ => mul_div_mul_left m _ ha
  rw [shares, shares, total_map_mul, hmap]

theorem draw_map_mul {σ : Type} (coin : σ → K × σ) {a : K} (ha : a ≠ 0) (masses : List K) (s : σ) :
    draw coin (masses.map (a * ·)) s = draw coin masses s := by
  unfold draw index
  rw [shares_map_mul ha, List.length_map]

end Discrete

instance : Source.ScaleFree (Counter K) where
  pick_map_mul _ masses s := by
    show (s.next % (masses.map _).length, _) = _
    rw [List.length_map]
    rfl

/-! ### The generator with exact numbers -/

/-- The generator of 64-bit words, as a source of numbers of `K`. -/
structure ExactTwister (K : Type) where
  words : Twister Twister.wide

namespace ExactTwister

/-- Draws a word. -/
def next (g : ExactTwister K) : UInt64 × ExactTwister K :=
  let (w, words) := g.words.next
  (w, ⟨words⟩)

/-- A number of the unit interval from one word. -/
def coin (g : ExactTwister K) : K × ExactTwister K :=
  Uniform.unit next ((Uniform.wordRange : ℕ) : K) 1 g

instance : Source (ExactTwister K) K where
  seed w := ⟨Twister.ofSeed Twister.wide w⟩
  index top := Uniform.index next top Uniform.patience
  coin := coin
  pick := Discrete.draw coin

/-- A word divided by the number of words is below one. -/
theorem coin_lt_one (g : ExactTwister K) : g.coin.1 < 1 := by
  have hword : (g.next.1.toNat : K) < ((Uniform.wordRange : ℕ) : K) :=
    Nat.cast_lt.mpr g.next.1.toNat_lt
  have hpos : (0 : K) < ((Uniform.wordRange : ℕ) : K) := Nat.cast_pos.mpr (by decide)
  have hquotient : (0 + (g.next.1.toNat : K) * 1) / (1 * ((Uniform.wordRange : ℕ) : K)) < 1 := by
    rw [zero_add, mul_one, one_mul, div_lt_one hpos]
    exact hword
  have hcoin : g.coin.1 = (0 + (g.next.1.toNat : K) * 1) / (1 * ((Uniform.wordRange : ℕ) : K)) :=
    if_neg (not_le.mpr hquotient)
  rw [hcoin]
  exact hquotient

instance : Source.InRange (ExactTwister K) where
  index_le h := Uniform.index_le _ _ _ _ h
  pick_lt h := Discrete.draw_lt (fun g => lt_asymm (coin_lt_one g)) h _

instance : Source.ScaleFree (ExactTwister K) where
  pick_map_mul ha masses g := Discrete.draw_map_mul coin ha.ne' masses g

end ExactTwister

end Clustering
