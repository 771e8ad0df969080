import Clustering.Batch
import Clustering.Distance
import Clustering.Matrix

/-!
# The distance kernel

Nearest centroids and pairwise distances, computed for a batch of rows at a time and, within a
batch, for a tile of centroids at a time.  For each row the kernel carries a `Lead`: the nearest
centroid of the tiles scanned so far.  A later centroid takes the lead only if it is strictly
closer, so that of equally near centroids the first one wins.

`Kernel.sweep` delivers the answers batch by batch, which is how all consumers of nearest
centroids read them.
-/

namespace Clustering

/-- The nearest centroid of a row and its squared distance. -/
structure Nearest (α : Type) where
  label : Nat
  dist : α
deriving DecidableEq

/-- The nearest centroids of a batch of rows. -/
structure NearestBatch (α : Type) where
  batch : Batch
  rows : List (Nearest α)
deriving DecidableEq

/-! ### The lead -/

/-- The nearest centroid among those scanned.  A distance of `none` stands for infinity: so far no
distance was below it. -/
structure Lead (α : Type) where
  label : Nat
  dist : Option α
deriving DecidableEq

namespace Lead

variable {α : Type} [Scalar α]

/-- Nothing is scanned yet.  If no distance turns out to be below infinity, the first centroid
keeps the lead. -/
def start : Lead α := ⟨0, none⟩

/-- Whether a distance is strictly below the leading one. -/
def beatenBy (l : Lead α) (v : α) : Bool :=
  match l.dist with
  | none => Scalar.belowInfinity v
  | some d => v < d

/-- A centroid at distance `v` takes the lead if it is strictly closer. -/
def challenge (l : Lead α) (label : Nat) (v : α) : Lead α :=
  if l.beatenBy v then ⟨label, some v⟩ else l

/-- The lead after the distances to consecutive centroids, the first of which has label
`offset`. -/
def scan (l : Lead α) (offset : Nat) (vs : List α) : Lead α :=
  (vs.zipIdx offset).foldl (fun l (v, j) => l.challenge j v) l

/-- The answer that a lead stands for when all centroids are scanned. -/
def nearest (l : Lead α) : Nearest α := ⟨l.label, l.dist.getD Scalar.infinity⟩

end Lead

/-! ### Kernels -/

/-- The largest row or column count that an index of the block product reaches. -/
def indexLimit : Nat := 0x7fff_ffff

/-- Bytes that a stored label takes. -/
def labelBytes : Nat := 4

/-- A metric with the sizes of batches and tiles. -/
structure Kernel where
  metric : Metric
  /-- The largest number of rows in a batch. -/
  batchRows : Nat
  /-- The largest number of centroids in a tile; zero puts all of them into one. -/
  tileRows : Nat
  batchRows_pos : 0 < batchRows

namespace Kernel

/-- A kernel for a positive batch size, which is cut down to the index limit. -/
def new? (metric : Metric) (batchRows tileRows : Nat) : Except Failure Kernel :=
  if h : 0 < batchRows then
    .ok ⟨metric, min batchRows indexLimit, tileRows, by simp [indexLimit]; omega⟩
  else .error (.invalidParam .batchRows)

/-- The same batches and tiles with distances summed directly. -/
def direct (e : Kernel) : Kernel := { e with metric := .unexpanded }

/-- The tile size for `k` centroids. -/
def tile (e : Kernel) (k : Nat) : Nat := if e.tileRows = 0 then k else min e.tileRows k

/-- The tiles of `k` centroids. -/
def tiles (e : Kernel) (k : Nat) : List Batch := Batch.cover k (e.tile k)

/-- The batches of `n` rows. -/
def batches (e : Kernel) (n : Nat) : List Batch := Batch.cover n (min e.batchRows n)

/-- Bytes of buffer space that finding nearest centroids takes, as a word. -/
def bufferBytes (e : Kernel) (valueBytes n k : Nat) : Nat :=
  let bs := min e.batchRows n
  let answers := bs * (labelBytes + valueBytes)
  if e.metric = .expanded then
    sizeWord (answers + bs * e.tile k * valueBytes + bs * valueBytes + k * valueBytes)
  else sizeWord answers

variable {α : Type}

/-- The shapes that a kernel computes with.  Without rows the width of the data does not matter. -/
def checkShapes (op : String) (x c : Matrix α) : Except Failure Unit :=
  if c.rows = 0 then .error (.noCentroids op)
  else if c.cols = 0 then .error (.centroidsWithoutFeatures op)
  else if 0 < x.rows ∧ x.cols ≠ c.cols then .error (.widthMismatch op x.cols c.cols)
  else if indexLimit < c.cols ∨ indexLimit < c.rows then .error (.indexRange op)
  else .ok ()

variable [Scalar α] [Memory]

/-- Buffers for row and centroid norms, which only the expanded metric uses. -/
def normBuffers (α : Type) [Scalar α] (e : Kernel) (n k : Nat) : Except Failure Unit :=
  if e.metric = .expanded then do
    Memory.buffer "row norm buffer" (Scalar.bytes α) (min e.batchRows n)
    Memory.buffer "centroid norm buffer" (Scalar.bytes α) k
  else .ok ()

/-- Buffers for the answers of one batch and for the distances of one tile. -/
def sweepBuffers (α : Type) [Scalar α] (e : Kernel) (n k : Nat) : Except Failure Unit := do
  let bs := min e.batchRows n
  Memory.buffer "nearest-label batch buffer" labelBytes bs
  Memory.buffer "nearest-distance batch buffer" (Scalar.bytes α) bs
  if e.metric = .expanded then
    Memory.buffer "distance tile buffer" (Scalar.bytes α) (sizeWord (bs * e.tile k))
  e.normBuffers α n k

variable [BlockProduct α]

/-- The leads of a batch of rows after one more tile of centroids. -/
def scanTile (e : Kernel) (xs : List (List α)) (leads : List (Lead α))
    (tile : Batch × List (List α)) : List (Lead α) :=
  List.zipWith (fun l vs => l.scan tile.1.offset vs) leads (e.metric.block xs tile.2)

/-- The tiles with the centroids that lie in them. -/
def tiled (e : Kernel) (cs : List (List α)) : List (Batch × List (List α)) :=
  (e.tiles cs.length).zip (Batch.deal (e.tiles cs.length) cs)

/-- The nearest centroid of each row of a batch. -/
def nearestIn (e : Kernel) (xs cs : List (List α)) : List (Nearest α) :=
  ((e.tiled cs).foldl (e.scanTile xs) (xs.map fun _ => Lead.start)).map Lead.nearest

/-- The nearest centroids of all rows, batch by batch. -/
def sweep (e : Kernel) (x c : Matrix α) : Except Failure (List (NearestBatch α)) := do
  checkShapes "nearest" x c
  if x.rows = 0 then return []
  e.sweepBuffers α x.rows c.rows
  let bs := e.batches x.rows
  let cs := c.rowList
  return List.zipWith (fun b xs => ⟨b, e.nearestIn xs cs⟩) bs (Batch.deal bs x.rowList)

/-- The nearest centroid of each row. -/
def nearest (e : Kernel) (x c : Matrix α) : Except Failure (List (Nearest α)) := do
  return (← e.sweep x c).flatMap (·.rows)

/-- The products of the rows of a batch with the centroids of one more tile, written behind those
of the tiles before. -/
def appendProducts (xs rows : List (List α)) (tile : Batch × List (List α)) : List (List α) :=
  List.zipWith (· ++ ·) rows (Metric.products xs tile.2)

/-- The squared distances from the rows of a batch to all centroids.  The expanded metric puts the
products together from the tiles and adds the norms when the rows are complete; the direct one
needs no tiles. -/
def distancesIn (e : Kernel) (xs cs : List (List α)) : List (List α) :=
  if e.metric = .expanded then
    Metric.addNorms xs cs ((e.tiled cs).foldl (appendProducts xs) (xs.map fun _ => []))
  else Metric.directBlock xs cs

/-- The distances from every row to every centroid, squared or, if `euclidean`, not. -/
def pairwise (e : Kernel) (x c : Matrix α) (euclidean : Bool) :
    Except Failure (List (List α)) := do
  checkShapes "pairwise" x c
  if x.rows = 0 then return []
  e.normBuffers α x.rows c.rows
  let cs := c.rowList
  let squared := (Batch.deal (e.batches x.rows) x.rowList).flatMap fun xs => e.distancesIn xs cs
  return if euclidean then squared.map (·.map Scalar.sqrt) else squared

end Kernel

end Clustering
