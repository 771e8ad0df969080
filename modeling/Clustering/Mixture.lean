import Clustering.Matrix
import Clustering.Random.Normal
import Clustering.Random.Twister
import Clustering.Random.Uniform

/-!
# Mixtures of Gaussians

Synthetic data around known centres.  Every cluster has a centre, uniform in a cube around the
origin, and a scale; the rows are dealt to the clusters in turn, and each is its cluster's centre
plus the scale times normal noise.

All draws of the clusters come before those of the rows, and the rows are drawn in order, so that
a longer sample starts with the shorter one.
-/

namespace Clustering

/-- Generated data with the centres that they lie around. -/
structure Mixture (α : Type) where
  points : Matrix α
  centres : Matrix α
deriving DecidableEq

/-- Types that have a uniform number made of 32-bit words. -/
class UnitWords (α : Type) where
  /-- How many words make one number. -/
  words : Nat

instance : UnitWords Float32 := ⟨1⟩

instance : UnitWords Float := ⟨2⟩

instance : (p : Precision) → UnitWords p.Machine
  | .single => inferInstanceAs (UnitWords Float32)
  | .double => inferInstanceAs (UnitWords Float)

namespace Mixture

variable {α σ : Type} [Scalar α]

section Draws

variable (unit : σ → α × σ) (tries : Nat)

/-- Draws `dim` coordinates between `-spread` and `spread`. -/
def drawCentre (spread : α) : (dim : Nat) → σ → List α × σ
  | 0, s => ([], s)
  | dim + 1, s =>
    let (u, s) := unit s
    let (later, s) := drawCentre spread dim s
    (Uniform.between (-spread) spread u :: later, s)

/-- Draws the scale and the centre of each cluster.  A scale lies between half and twice the
noise. -/
def drawClusters (dim : Nat) (spread noise : α) : (count : Nat) → σ → List (α × List α) × σ
  | 0, s => ([], s)
  | count + 1, s =>
    let (u, s) := unit s
    let scale := Uniform.between (1 / ((2 : Nat) : α)) ((2 : Nat) : α) u * noise
    let (centre, s) := drawCentre unit spread dim s
    let (later, s) := drawClusters dim spread noise count s
    ((scale, centre) :: later, s)

/-- Draws a row around a centre. -/
def drawRow (scale : α) :
    (centre : List α) → Normal.State α σ → Option (List α × Normal.State α σ)
  | [], s => some ([], s)
  | c :: centre, s => do
    let (z, s) ← Normal.draw unit tries s
    let (later, s) ← drawRow scale centre s
    return ((c + scale * z) :: later, s)

/-- Draws `count` rows, the first of which has number `i`. -/
def drawRows (clusters : Array (α × List α)) :
    (count i : Nat) → Normal.State α σ → Option (List (List α))
  | 0, _, _ => some []
  | count + 1, i, s => do
    let (scale, centre) := clusters.getD (i % clusters.size) (0, [])
    let (row, s) ← drawRow unit tries scale centre s
    return row :: (← drawRows clusters count (i + 1) s)

end Draws

/-- Generates `n` rows of `dim` coordinates around `g` centres, from a source of numbers of the
unit interval.  A point for normal noise is given up after `tries` rejections. -/
def generate [Memory] (unit : σ → α × σ) (tries : Nat) (source : σ) (n dim g : Nat)
    (spread noise : α) : Except Failure (Mixture α) := do
  if n = 0 ∨ dim = 0 ∨ g = 0 then throw .mixtureShape
  Memory.storage (Scalar.bytes α) (sizeWord (g * dim))
  Memory.storage (Scalar.bytes α) g
  let (clusters, source) := drawClusters unit dim spread noise g source
  Memory.storage (Scalar.bytes α) (sizeWord (n * dim))
  match drawRows unit tries clusters.toArray n 0 ⟨source, none⟩ with
  | some rows => return ⟨⟨n, dim, rows.flatten⟩, ⟨g, dim, (clusters.map (·.2)).flatten⟩⟩
  | none => throw .stalled

/-- The mixture that a seed determines.  Of the seed the low 32 bits count. -/
def ofSeed [Memory] [UnitWords α] (seed : UInt64) (n dim g : Nat) (spread noise : α) :
    Except Failure (Mixture α) :=
  generate (Uniform.unit Twister.next ((0x1_0000_0000 : Nat) : α) (UnitWords.words α))
    Uniform.patience (Twister.ofSeed Twister.narrow seed) n dim g spread noise

/-- What a caller is handed: the values of the points, and those of the centres where the caller
has a place for them.  Without a mixture the place keeps what it held. -/
def handOver (place : Option (List α)) :
    Except Failure (Mixture α) → Except Failure (List α) × Option (List α)
  | .ok m => (.ok m.points.values, place.map fun _ => m.centres.values)
  | .error f => (.error f, place)

/-- The clusters that the rows of a mixture were dealt to. -/
def groundTruth? [Memory] (n g : Nat) : Except Failure (List Nat) := do
  Memory.storage 4 n
  return (List.range n).map (· % g)

/-- The clusters of the rows as labels.  A label is a signed word of 32 bits. -/
def trueLabels? [Memory] (n g : Nat) : Except Failure (List Int) := do
  return (← groundTruth? n g).map fun (l : Nat) => (l : Int).bmod 0x1_0000_0000

end Mixture

end Clustering
