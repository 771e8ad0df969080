import Clustering.Random.Discrete
import Clustering.Random.Twister
import Clustering.Random.Uniform

/-!
# Sources of randomness

The draws that seeding makes, over any state that a source may have: a uniform index, a number of
the unit interval, and an index in proportion to masses.  Algorithms use these draws only, so that
what holds for every source holds for every sequence of draws.
-/

namespace Clustering

/-- A source of random draws with states in `σ`. -/
class Source (σ : Type) (ω : outParam Type) where
  seed : UInt64 → σ
  /-- An index from `0` to `top`; `none` if the source gives up. -/
  index : (top : Nat) → σ → Option Nat × σ
  /-- A number of the unit interval. -/
  coin : σ → ω × σ
  /-- An index in proportion to masses, of which at least one is positive. -/
  pick : (masses : List ω) → σ → Nat × σ

/-- A number of the unit interval from one 64-bit word. -/
def Twister.coin (g : Twister Twister.wide) : Float × Twister Twister.wide :=
  Uniform.unit Twister.next (Uniform.wordRange : Float) 1 g

instance : Source (Twister Twister.wide) Float where
  seed := Twister.ofSeed Twister.wide
  index top := Uniform.index Twister.next top Uniform.patience
  coin := Twister.coin
  pick := Discrete.draw Twister.coin

end Clustering
