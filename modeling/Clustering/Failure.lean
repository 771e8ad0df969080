import Clustering.Precision
import Clustering.Selector
import Clustering.Text

/-!
# Failures

Why a call is refused or cannot be carried out.  There is one constructor per cause; `Failure.kind`
sorts the causes into the classes that callers distinguish, and `Failure.message` words them.
-/

namespace Clustering

/-- The first parameter that validation finds at fault. -/
inductive ParamFault where
  | clusters
  | iterations
  | tolerance
  | oversampling
  | batchRows
  | runs
  | method
  | metric
deriving DecidableEq

/-- The classes of failures. -/
inductive FailureKind where
  | configuration
  | precision
  | dimension
  | notFitted
  | resource
  | argument
  | length
  | memory
  /-- Random draws were rejected without end. -/
  | stalled
deriving DecidableEq

/-- What made a call fail.  An `op` is the operation that the message names. -/
inductive Failure where
  | invalidParam (fault : ParamFault)
  | unknownMethod (text : String)
  | unknownMetric (text : String)
  /-- The starting centroids are to be supplied, and none were. -/
  | startMissing
  /-- Starting centroids were supplied for a method that does not take them. -/
  | startUnexpected (method : SeedMethod)
  | startRows (rows clusters : Nat)
  | startWithoutFeatures
  | startWidth (start data : Nat)
  | startPrecision (start data : Precision)
  | modelPrecision (op : String) (model data : Precision)
  | notFitted (op : String)
  | emptyData (op : String)
  | missingData (op : String)
  | fittedWidth (op : String) (data model : Nat)
  | invalidWeight (op : String) (row : Nat)
  | zeroWeights (op : String)
  | noCentroids (op : String)
  | centroidsWithoutFeatures (op : String)
  | widthMismatch (op : String) (data centroids : Nat)
  | indexRange (op : String)
  | bufferBytes (what : String) (bytes : Nat)
  | bufferElements (what : String) (count : Nat)
  | candidateSet (rows : Nat)
  | distanceMatrix (rows clusters : Nat)
  | fitMemory (rows cols clusters : Nat)
  | predictMemory (rows : Nat)
  | zeroBatch
  | zeroIterations
  | refinerWidth
  | mixtureShape
  /-- A sequence was to be longer than any can be. -/
  | overlong
  /-- Room was to be set aside for more elements than any sequence can have. -/
  | overlongReserve
  | outOfMemory
  | stalled
deriving DecidableEq

namespace ParamFault

/-- What is wrong with the parameter. -/
def message : ParamFault → String
  | clusters => "n_clusters must be >= 1"
  | iterations => "max_iter must be >= 1"
  | tolerance => "tol must be a finite value >= 0"
  | oversampling => "oversampling_factor must be a finite value > 0"
  | batchRows => "batch_samples must be >= 1"
  | runs => "n_init must be >= 1"
  | method => "unsupported init method"
  | metric => "unsupported metric"

end ParamFault

namespace Failure

/-- The class that a cause belongs to. -/
def kind : Failure → FailureKind
  | invalidParam _ | unknownMethod _ | unknownMetric _ | startMissing | startUnexpected _
  | startRows _ _ | startWithoutFeatures | invalidWeight _ _ | zeroWeights _ => .configuration
  | startPrecision _ _ | modelPrecision _ _ _ => .precision
  | startWidth _ _ | emptyData _ | fittedWidth _ _ _ | centroidsWithoutFeatures _
  | widthMismatch _ _ _ => .dimension
  | notFitted _ => .notFitted
  | indexRange _ | bufferBytes _ _ | bufferElements _ _ | candidateSet _ | distanceMatrix _ _
  | fitMemory _ _ _ | predictMemory _ => .resource
  | missingData _ | noCentroids _ | zeroBatch | zeroIterations | refinerWidth | mixtureShape =>
    .argument
  | overlong | overlongReserve => .length
  | outOfMemory => .memory
  | stalled => .stalled

/-- The full wording of a failure.  The name of a buffer is worked in as it is shown. -/
def wording : Failure → String
  | invalidParam fault => fault.message
  | unknownMethod text => s!"unsupported init method: '{text}'"
  | unknownMetric text => s!"unsupported metric: '{text}'"
  | startMissing => "init=array requires initial centroids"
  | startUnexpected method => s!"initial centroids given but init is '{method.name}'"
  | startRows rows clusters => s!"init array has {rows} rows, n_clusters is {clusters}"
  | startWithoutFeatures => "init array has no features"
  | startWidth start data => s!"init array has {start} features, data has {data}"
  | startPrecision start data => s!"fit: init array is {start.name}, input is {data.name}"
  | modelPrecision op model data =>
    s!"{op}: model holds {model.name} centroids, input is {data.name}"
  | notFitted op => s!"{op}: model is not fitted"
  | emptyData op => s!"{op}: empty dataset"
  | missingData op => s!"{op}: null data"
  | fittedWidth op data model => s!"{op}: data has {data} features, model was fitted with {model}"
  | invalidWeight op row => s!"{op}: sample_weight[{row}] must be finite and >= 0"
  | zeroWeights op => s!"{op}: sample weights sum to zero"
  | noCentroids op => s!"DistanceEngine::{op}: empty centroid set"
  | centroidsWithoutFeatures op => s!"DistanceEngine::{op}: centroids have no features"
  | widthMismatch op data centroids =>
    s!"DistanceEngine::{op}: data has {data} features, centroids have {centroids}"
  | indexRange op => s!"DistanceEngine::{op}: shape exceeds BLAS index range"
  | bufferBytes what bytes => s!"cannot allocate {shown what} ({bytes} bytes)"
  | bufferElements what count => s!"cannot allocate {shown what} ({count} elements)"
  | candidateSet rows => s!"cannot allocate candidate set ({rows} rows)"
  | distanceMatrix rows clusters => s!"cannot allocate {rows} x {clusters} distance matrix"
  | fitMemory rows cols clusters => s!"fit: out of memory for n={rows} d={cols} k={clusters}"
  | predictMemory rows => s!"predict: out of memory for n={rows}"
  | zeroBatch => "RowBatches: batch size must be > 0"
  | zeroIterations => "LloydRefiner: max_iter must be >= 1"
  | refinerWidth => "LloydRefiner: centroid width differs from data width"
  | mixtureShape => "generate_gaussian_mixture: invalid parameters"
  | overlong => "cannot create std::vector larger than max_size()"
  | overlongReserve => "vector::reserve"
  | outOfMemory => "std::bad_alloc"
  | stalled => "random draws do not end"

/-- The message that a caller sees. -/
def message (f : Failure) : String := shown f.wording

end Failure

end Clustering
