import Clustering.Decimal.Scientific
import Clustering.Failure
import Clustering.Level
import Clustering.Lloyd.Refiner

/-!
# Notices

What a computation reports while it runs.  Computations record all their notices; the threshold in
force decides which of them are shown, and a shown notice is a line of text with a tag in front.
-/

namespace Clustering

/-- An event that a computation reports, with what it says about it. -/
inductive Notice (ω : Type) where
  /-- A report with a text of its own. -/
  | report (level : Level) (tag text : String)
  /-- There are fewer rows than clusters, so that rows were drawn more than once. -/
  | duplicatesDrawn (clusters rows : Nat)
  /-- An oversampling round found no candidate. -/
  | roundSkipped (round : Nat) (potential : ω)
  /-- An oversampling round found candidates. -/
  | roundSampled (round added total : Nat) (potential : ω)
  /-- There are fewer candidates than clusters. -/
  | padding (candidates clusters : Nat)
  /-- The candidates were reduced to the wanted number of centroids. -/
  | reduced (candidates clusters iterations : Nat)
  /-- Clusters without weight kept their centroids. -/
  | clustersEmpty (iteration count : Nat)
  | iterated (iteration : Nat) (inertia shift : ω)
  | fitStarted (rows cols clusters : Nat) (method : SeedMethod) (metric : Metric)
      (batchRows tileRows : Nat) (precision : Precision)
  | runEnded (run runs : Nat) (phase : Phase) (iterations : Nat) (inertia : ω)
  | runKept (run runs : Nat) (inertia : ω)
  | fitFailed (failure : Failure)
  | fitExhausted (rows cols clusters : Nat)

namespace Notice

variable {ω : Type}

/-- How important a notice is. -/
def level : Notice ω → Level
  | report level _ _ => level
  | fitFailed _ | fitExhausted _ _ _ => .error
  | duplicatesDrawn _ _ | roundSkipped _ _ | padding _ _ | clustersEmpty _ _ => .warn
  | fitStarted _ _ _ _ _ _ _ _ | runEnded _ _ _ _ _ | runKept _ _ _ => .info
  | roundSampled _ _ _ _ | reduced _ _ _ | iterated _ _ _ => .debug

/-- The part of the library that a notice comes from. -/
def tag : Notice ω → String
  | report _ tag _ => tag
  | duplicatesDrawn _ _ | roundSkipped _ _ | roundSampled _ _ _ _ | padding _ _
  | reduced _ _ _ => "init"
  | clustersEmpty _ _ | iterated _ _ _ => "lloyd"
  | fitStarted _ _ _ _ _ _ _ _ | runEnded _ _ _ _ _ | runKept _ _ _ | fitFailed _
  | fitExhausted _ _ _ => "fit"

/-- The wording of a notice, given how totals are written. -/
def text (write : ω → String) : Notice ω → String
  | report _ _ text => shown text
  | duplicatesDrawn clusters rows =>
    s!"random init: n_clusters={clusters} exceeds {rows} rows, duplicates drawn"
  | roundSkipped round potential =>
    s!"k-means|| round {round}: no candidates sampled (potential={write potential}), skipped"
  | roundSampled round added total potential =>
    s!"k-means|| round {round}: +{added} candidates (total {total}), " ++
      s!"potential={write potential}"
  | padding candidates clusters =>
    s!"k-means|| produced {candidates} candidates for {clusters} clusters, " ++
      "padding with random rows"
  | reduced candidates clusters iterations =>
    s!"k-means|| reduced {candidates} candidates to {clusters} centroids " ++
      s!"in {iterations} iterations"
  | clustersEmpty iteration count =>
    s!"iteration {iteration}: {count} empty cluster(s) kept at previous position"
  | iterated iteration inertia shift =>
    s!"iteration {iteration}: inertia={write inertia} shift={write shift}"
  | fitStarted rows cols clusters method metric batchRows tileRows precision =>
    s!"n={rows} d={cols} k={clusters} init={method.name} metric={metric.name} " ++
      s!"batch={batchRows}/{tileRows} dtype={precision.name}"
  | runEnded run runs phase iterations inertia =>
    s!"run {run}/{runs}: {phase.name} after {iterations} iteration(s), " ++
      s!"inertia={write inertia}"
  | runKept run runs inertia => s!"kept run {run} of {runs} (inertia={write inertia})"
  | fitFailed failure => failure.message
  | fitExhausted rows cols clusters =>
    s!"out of memory for n={rows} d={cols} k={clusters}"

/-- The line of text for a notice. -/
def line (write : ω → String) (n : Notice ω) : String :=
  s!"[kmeanix:{n.tag}] {n.text write}"

/-- How totals are written in notices: in scientific notation with six digits after the point. -/
def writeTotal : Float → String := Decimal.scientific 6

/-- The lines that are shown under a threshold.  A text with line breaks takes several. -/
def linesUnder (threshold : Level) (ns : List (Notice Float)) : List String :=
  (ns.filter fun n => threshold.shownUnder n.level).flatMap fun n =>
    (n.line writeTotal).splitOn "\n"

end Notice

namespace Iteration

/-- The notices that an iteration gives rise to. -/
def notices {ω : Type} (it : Iteration ω) : List (Notice ω) :=
  (if 0 < it.emptyClusters then [.clustersEmpty it.number it.emptyClusters] else []) ++
    [.iterated it.number it.inertia it.shift]

end Iteration

/-- The notices that a refinement gives rise to, up to where it failed if it did. -/
def Trace.notices {α ω : Type} (t : Trace α ω) : List (Notice ω) :=
  t.history.flatMap Iteration.notices

/-- The notices of the iterations that led to a result. -/
def Refined.notices {α ω : Type} (r : Refined α ω) : List (Notice ω) :=
  r.history.flatMap Iteration.notices

theorem Refiner.notices_trace {α ω : Type} [Scalar α] [Scalar ω] [Widening α ω] [Memory]
    [BlockProduct α] {r : Refiner ω} {x start : Matrix α} {weights : Option (List α)}
    {res : Refined α ω} (h : (r.trace x weights start).result = .ok res) :
    (r.trace x weights start).notices = res.notices := by
  rw [Trace.notices, Refined.notices, history_trace h]

end Clustering
