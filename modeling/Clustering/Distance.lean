import Clustering.Precision
import Clustering.Selector

/-!
# Squared distances

Squared Euclidean distances between the rows of two blocks, by either metric.  The direct one sums
squared coordinate differences.  The expanded one takes the inner products of all pairs of rows at
once from a `BlockProduct`, adds the squared norms, and lifts a negative result to zero.
-/

namespace Clustering

section Vector

variable {α : Type} [Scalar α]

/-- The squared distance between two vectors, summed in coordinate order. -/
def sqDist (a b : List α) : α :=
  total (List.zipWith (fun u v => (u - v) * (u - v)) a b)

/-- The squared norm of a vector. -/
def sqNorm (a : List α) : α := total (a.map fun u => u * u)

/-- The inner product of two vectors. -/
def dot (a b : List α) : α := total (List.zipWith (· * ·) a b)

/-- A value, or zero in place of a negative one.  A value that is not a number is kept. -/
def liftNegative (v : α) : α := if v < 0 then 0 else v

end Vector

/-- All scaled inner products between the rows of two blocks: entry `(i, j)` belongs to row `i` of
the first and row `j` of the second.  How an entry is summed and where the scale enters is left
open. -/
class BlockProduct (α : Type) where
  block : (scale : α) → List (List α) → List (List α) → List (List α)
  length_block : ∀ s xs cs, (block s xs cs).length = xs.length
  length_of_mem_block : ∀ s xs cs, ∀ r ∈ block s xs cs, r.length = cs.length

/-- The product that sums each entry in coordinate order and scales the sum. -/
@[reducible] def BlockProduct.plain (α : Type) [Scalar α] : BlockProduct α where
  block s xs cs := xs.map fun x => cs.map fun c => s * dot x c
  length_block := by simp
  length_of_mem_block := by
    intro s xs cs r hr
    obtain ⟨x, -, rfl⟩ := List.mem_map.1 hr
    simp

instance : BlockProduct Float32 := .plain Float32

instance : BlockProduct Float := .plain Float

instance : (p : Precision) → BlockProduct p.Machine
  | .single => inferInstanceAs (BlockProduct Float32)
  | .double => inferInstanceAs (BlockProduct Float)

namespace Metric

variable {α : Type} [Scalar α] [BlockProduct α]

/-- The squared distances between all rows of two blocks, summed directly. -/
def directBlock (xs cs : List (List α)) : List (List α) := xs.map fun x => cs.map (sqDist x)

/-- Adds the squared norms of the rows of two blocks to their products, each entry once it is
complete lifted to zero if it is negative. -/
def addNorms (xs cs : List (List α)) (products : List (List α)) : List (List α) :=
  let norms := cs.map sqNorm
  List.zipWith
    (fun x row =>
      let norm := sqNorm x
      List.zipWith (fun p n => liftNegative (p + norm + n)) row norms)
    xs products

/-- The inner products of all rows of two blocks, scaled as the expanded metric needs them. -/
def products (xs cs : List (List α)) : List (List α) := BlockProduct.block (-((2 : Nat) : α)) xs cs

/-- The squared distances between all rows of two blocks, from norms and inner products. -/
def expandedBlock (xs cs : List (List α)) : List (List α) := addNorms xs cs (products xs cs)

/-- The squared distances between all rows of two blocks: one list for each row of the first. -/
def block (metric : Metric) (xs cs : List (List α)) : List (List α) :=
  if metric = .expanded then expandedBlock xs cs else directBlock xs cs

end Metric

end Clustering
