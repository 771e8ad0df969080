import Clustering.Scalar

/-!
# Normal draws

Standard normal numbers by the polar method.  Two uniform numbers give a point of the square around
the origin; a point inside the unit circle, and not at its centre, gives two normal numbers, of
which the first is kept for the next draw.
-/

namespace Clustering.Normal

variable {α σ : Type} [Scalar α]

/-- A source of uniform numbers with the normal number that was kept. -/
structure State (α σ : Type) where
  source : σ
  spare : Option α

/-- A point inside the unit circle with its squared radius, from numbers of the unit interval;
`none` if all points were rejected. -/
def point (unit : σ → α × σ) : (tries : Nat) → σ → Option ((α × α × α) × σ)
  | 0, _ => none
  | tries + 1, s =>
    let (u, s) := unit s
    let x := ((2 : Nat) : α) * u - 1
    let (v, s) := unit s
    let y := ((2 : Nat) : α) * v - 1
    let r := x * x + y * y
    if 1 < r ∨ r ≤ 0 then point unit tries s else some ((x, y, r), s)

/-- Draws a normal number of mean zero and deviation one. -/
def draw (unit : σ → α × σ) (tries : Nat) (s : State α σ) : Option (α × State α σ) :=
  match s.spare with
  | some v => some (v * 1 + 0, ⟨s.source, none⟩)
  | none =>
    (point unit tries s.source).map fun ((x, y, r), source) =>
      let m := Scalar.sqrt (-((2 : Nat) : α) * Scalar.log r / r)
      (y * m * 1 + 0, ⟨source, some (x * m)⟩)

end Clustering.Normal
