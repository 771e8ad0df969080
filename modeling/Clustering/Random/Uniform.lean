import Clustering.Scalar

/-!
# Uniform draws

Uniform indices and uniform numbers of the unit interval, from a source of words.

An index comes from the upper half of the product of a 64-bit word and the size of the range.  The
words for which the lower half falls below a threshold would make some indices more likely than
others; they are drawn again.
-/

namespace Clustering.Uniform

variable {σ : Type}

/-- How often a draw is repeated before it is given up.  No source of independent words comes near
it. -/
def patience : Nat := 0x100_0000_0000

/-- The number of 64-bit words. -/
def wordRange : Nat := 0x1_0000_0000_0000_0000

/-- An index from `0` to `top`, from 64-bit words; `none` if all words were rejected. -/
def index (word : σ → UInt64 × σ) (top : Nat) : (tries : Nat) → σ → Option Nat × σ
  | 0, s => (none, s)
  | tries + 1, s =>
    let range := top + 1
    let (w, s) := word s
    let product := w.toNat * range
    if product % wordRange < (wordRange - range) % range then index word top tries s
    else (some (product / wordRange), s)

section Unit

variable {α : Type} [Scalar α]

/-- Sums `count` words, each scaled by the next power of the number of words; gives the sum and
the last power. -/
def gather (word : σ → UInt64 × σ) (range : α) :
    (count : Nat) → (sum power : α) → σ → (α × α) × σ
  | 0, sum, power, s => ((sum, power), s)
  | count + 1, sum, power, s =>
    let (w, s) := word s
    gather word range count (sum + Scalar.ofWord w * power) (power * range) s

/-- A number of the unit interval from `count` words out of `range`.  A quotient that rounds to one
becomes the largest value below it. -/
def unit (word : σ → UInt64 × σ) (range : α) (count : Nat) (s : σ) : α × σ :=
  let ((sum, power), s) := gather word range count 0 1 s
  let q := sum / power
  (if 1 ≤ q then Scalar.belowOne else q, s)

/-- The number of the interval from `a` to `b` that a number of the unit interval stands for. -/
def between (a b u : α) : α := u * (b - a) + a

end Unit

end Clustering.Uniform
