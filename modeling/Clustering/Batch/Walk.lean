import Clustering.Batch
import Clustering.Failure

/-!
# Walking a range in batches

A cursor that moves through `[0, total)` one batch at a time.  Positions and sizes are 64-bit words
and a move adds in words, so that a sum beyond the largest word wraps round to an earlier position.
For totals up to `2 ^ 63` a walk from the start never gets there: it visits the batches of
`Batch.cover`.
-/

namespace Clustering

/-- A range of rows and the largest size of its batches. -/
structure BatchWalk where
  total : UInt64
  batch : UInt64
  batch_ne_zero : batch ≠ 0

namespace BatchWalk

/-- The walk through `total` rows by batches of a size that must not be zero. -/
def new? (total batch : UInt64) : Except Failure BatchWalk :=
  if h : batch = 0 then .error .zeroBatch else .ok ⟨total, batch, h⟩

/-- The batch that starts at a position. -/
def batchAt (r : BatchWalk) (pos : UInt64) : UInt64 × UInt64 := (pos, min r.batch (r.total - pos))

/-- The position after the batch that starts at `pos`. -/
def next (r : BatchWalk) (pos : UInt64) : UInt64 := min r.total (pos + r.batch)

/-- The batches from a position on, at most `limit` of them, and the position reached. -/
def visit (r : BatchWalk) : (limit : Nat) → UInt64 → List (UInt64 × UInt64) × UInt64
  | 0, pos => ([], pos)
  | limit + 1, pos =>
    if pos = r.total then ([], pos)
    else
      let (later, last) := r.visit limit (r.next pos)
      (r.batchAt pos :: later, last)

/-- How many batches there are, computed from the sizes in words. -/
def count (r : BatchWalk) : UInt64 := (r.total + r.batch - 1) / r.batch

/-- The size of the largest batch. -/
def maxBatch (r : BatchWalk) : UInt64 := min r.batch r.total

end BatchWalk

end Clustering
