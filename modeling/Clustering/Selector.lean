/-!
# Selectors

The choices that a caller makes by name: how starting centroids are found and how distances are
computed.  A name is read with upper and lower case, and hyphen and underscore, taken as equal.
-/

namespace Clustering

/-- A selector name in the form that spellings are compared in: ASCII lower case, with hyphens
for underscores. -/
def normalizedName (s : String) : String :=
  s.map fun c => if c = '_' then '-' else c.toLower

/-! ### Starting centroids -/

/-- How the starting centroids are found. -/
inductive SeedMethod where
  /-- The caller supplies them. -/
  | array
  /-- Rows drawn uniformly, without repetition while there are rows left. -/
  | random
  /-- Oversampling rounds, reduced to the wanted number of centroids. -/
  | scalable
  /-- A code that stands for no method; validation refuses it. -/
  | unsupported
deriving DecidableEq

namespace SeedMethod

/-- The name that a method is reported by. -/
def name : SeedMethod → String
  | array => "array"
  | random => "random"
  | scalable => "k-means||"
  | unsupported => "unknown"

/-- The method with a given code. -/
def ofCode : Nat → SeedMethod
  | 0 => array
  | 1 => random
  | 2 => scalable
  | _ => unsupported

/-- The accepted spellings, in normalized form. -/
def spellings : List (String × SeedMethod) :=
  [("k-means||", scalable), ("scalable-k-means++", scalable), ("k-means++", scalable),
    ("kmeans||", scalable), ("scalable-kmeans++", scalable), ("random", random),
    ("array", array), ("ndarray", array), ("precomputed", array)]

/-- The method that a text names. -/
def parse? (s : String) : Option SeedMethod := spellings.lookup (normalizedName s)

end SeedMethod

/-! ### Distances -/

/-- How squared Euclidean distances are computed. -/
inductive Metric where
  /-- As `‖x‖² - 2 x·c + ‖c‖²`, with the middle term from a block product. -/
  | expanded
  /-- As the sum of the squared coordinate differences. -/
  | unexpanded
  /-- A code that stands for no metric.  Validation refuses it; a kernel that is built with it
  computes as for `unexpanded`. -/
  | unsupported
deriving DecidableEq

namespace Metric

/-- The name that a metric is reported by. -/
def name : Metric → String
  | expanded => "l2_expanded"
  | unexpanded => "l2_unexpanded"
  | unsupported => "unknown"

/-- The metric with a given code. -/
def ofCode : Nat → Metric
  | 0 => expanded
  | 1 => unexpanded
  | _ => unsupported

/-- The accepted spellings, in normalized form. -/
def spellings : List (String × Metric) :=
  [("sqeuclidean", expanded), ("l2", expanded), ("l2-expanded", expanded),
    ("l2-unexpanded", unexpanded)]

/-- The metric that a text names. -/
def parse? (s : String) : Option Metric := spellings.lookup (normalizedName s)

end Metric

end Clustering
