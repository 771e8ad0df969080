import Clustering.Params
import Clustering.Quality.Spread
import Clustering.Seeding.Start

/-!
# Models

A model holds validated parameters, possibly the centroids that fits start from, and what the last
successful fit found.  Data come in two precisions; a family `E` says which scalars each one stands
for.  A model answers questions about data of the precision and width that it was fitted to.
-/

namespace Clustering

/-- Data as a caller hands them over: a matrix, or only the shape of one whose values are
missing. -/
structure Dataset (α : Type) where
  table : Matrix α
  isPresent : Bool

/-- What a fit found. -/
structure Fit (α ω : Type) extends Refined α ω where
  seeding : SeedStats
  /-- The number of the run that was kept, counted from zero. -/
  run : Nat
deriving DecidableEq

/-- What a model keeps of its last fit. -/
structure Fitted (E : Precision → Type) (ω : Type) where
  precision : Precision
  centroids : Matrix (E precision)
  features : Nat
  iterations : Nat
  inertia : ω

/-- Starting centroids, in the precision that they were given in. -/
structure StartArray (E : Precision → Type) where
  precision : Precision
  centroids : Matrix (E precision)

/-- A clustering model over the scalars `E p` of each precision `p`, with totals in `ω`. -/
structure Model (E : Precision → Type) (ω : Type) where
  params : Params ω
  start : Option (StartArray E)
  fitted : Option (Fitted E ω)

namespace Model

variable {E : Precision → Type} {ω : Type}

section Access

/-- Whether a fit has succeeded. -/
def isFitted (m : Model E ω) : Bool := m.fitted.isSome

/-- The precision that the model was fitted to; single before the first fit. -/
def precision (m : Model E ω) : Precision := (m.fitted.map (·.precision)).getD .single

/-- The number of clusters that the parameters ask for. -/
def clusters (m : Model E ω) : Nat := m.params.clusters

/-- The width of the data that the model was fitted to; zero before the first fit. -/
def features (m : Model E ω) : Nat := (m.fitted.map (·.features)).getD 0

/-- The iterations of the run that was kept; zero before the first fit. -/
def iterations (m : Model E ω) : Nat := (m.fitted.map (·.iterations)).getD 0

/-- The centroids that the model holds in a precision: none but in that of the last fit. -/
def stored (m : Model E ω) (p : Precision) : Matrix (E p) :=
  match m.fitted with
  | some f => if h : f.precision = p then h ▸ f.centroids else .empty
  | none => .empty

end Access

section Construction

variable [Scalar ω]

/-- A model that finds its starting centroids in the data. -/
def new? (params : Params ω) : Except Failure (Model E ω) := do
  params.validate
  if params.method = .array then throw .startMissing
  return ⟨params, none, none⟩

/-- A model with given starting centroids, of which it keeps a copy. -/
def withStart? [∀ p, Scalar (E p)] [Memory] (params : Params ω) (p : Precision)
    (array : Dataset (E p)) : Except Failure (Model E ω) := do
  params.validate
  if params.method ≠ .array then throw (.startUnexpected params.method)
  if array.table.rows ≠ params.clusters then
    throw (.startRows array.table.rows params.clusters)
  if array.table.cols = 0 ∨ ¬ array.isPresent then throw .startWithoutFeatures
  return ⟨params, some ⟨p, ← array.table.copy?⟩, none⟩

end Construction

/-! ### Checks -/

/-- The starting centroids for a fit in some precision; without any, the void matrix. -/
def startFor (m : Model E ω) (p : Precision) : Except Failure (Matrix (E p)) :=
  match m.start with
  | none => .ok .empty
  | some s =>
    if h : s.precision = p then .ok (h ▸ s.centroids) else .error (.startPrecision s.precision p)

/-- The centroids of the last fit, for an operation on data of some precision. -/
def centroidsFor (m : Model E ω) (op : String) (p : Precision) :
    Except Failure (Matrix (E p)) :=
  match m.fitted with
  | none => .error (.notFitted op)
  | some f =>
    if h : f.precision = p then .ok (h ▸ f.centroids)
    else .error (.modelPrecision op f.precision p)

section Data

variable {α : Type} [Scalar α]

/-- Data have to have rows, columns and values, and the width that is asked for. -/
def checkData (op : String) (width : Option Nat) (x : Dataset α) : Except Failure Unit :=
  if x.table.isVoid then .error (.emptyData op)
  else if ¬ x.isPresent then .error (.missingData op)
  else
    match width with
    | some d => if x.table.cols = d then .ok () else .error (.fittedWidth op x.table.cols d)
    | none => .ok ()

/-- Whether a value may be the weight of a row. -/
def isWeight (w : α) : Bool := Scalar.isFinite w && !decide (w < 0)

/-- Weights have to be finite and not negative. -/
def checkWeights (op : String) (weights : Option (List α)) : Except Failure Unit :=
  match weights with
  | none => .ok ()
  | some ws =>
    match ws.findIdx? (!isWeight ·) with
    | some i => .error (.invalidWeight op i)
    | none => .ok ()

/-- The weights of a fit must not all be zero. -/
def checkTotal [Scalar ω] [Widening α ω] (op : String) (weights : Option (List α)) :
    Except Failure Unit :=
  match weights with
  | none => .ok ()
  | some ws => if 0 < total (ws.map widen) then .ok () else .error (.zeroWeights op)

end Data

/-- The kernel that the parameters ask for. -/
def kernel (m : Model E ω) : Except Failure Kernel :=
  Kernel.new? m.params.metric m.params.batchRows m.params.tileRows

end Model

end Clustering
