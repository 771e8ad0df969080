import Clustering.Model.Answer

/-!
# How a model is kept

An object keeps a model in members: a storage of centroids for each precision, and what else is
known of the last fit.  A call reads and writes the members one by one, and what it has written
stays written if it fails later on.

Each call finds conditions of its own: the memory that is left, and failures from outside.  Such a
failure may cut off the computation of a fit or of an answer wherever it stands; no member is
written before the computation has ended.  The writes of a fit move storage and assign numbers, and
nothing can cut them off.
-/

namespace Clustering

/-- The members that a model is kept in. -/
structure Object (E : Precision → Type) (ω : Type) where
  params : Params ω
  start : Option (StartArray E)
  single : Matrix (E .single)
  double : Matrix (E .double)
  isFitted : Bool
  precision : Precision
  features : Nat
  iterations : Nat
  inertia : ω

/-- The precision that a precision is not. -/
def Precision.other : Precision → Precision
  | single => double
  | double => single

namespace Object

variable {E : Precision → Type} {ω : Type}

/-- A new object. -/
def fresh [Zero ω] (params : Params ω) (start : Option (StartArray E)) : Object E ω where
  params := params
  start := start
  single := .empty
  double := .empty
  isFitted := false
  precision := .single
  features := 0
  iterations := 0
  inertia := 0

/-- The storage of a precision. -/
def storage (o : Object E ω) : (p : Precision) → Matrix (E p)
  | .single => o.single
  | .double => o.double

/-- The object with other centroids in the storage of a precision. -/
def store (o : Object E ω) : (p : Precision) → Matrix (E p) → Object E ω
  | .single, c => { o with single := c }
  | .double, c => { o with double := c }

/-- The model that is kept: what a call finds when it asks whether there is a fit, of which
precision it is, and then reads the storage of this precision. -/
def model (o : Object E ω) : Model E ω where
  params := o.params
  start := o.start
  fitted :=
    if o.isFitted then
      some ⟨o.precision, o.storage o.precision, o.features, o.iterations, o.inertia⟩
    else none

end Object

/-! ### Calls under way -/

/-- An object in the middle of a call, and the notices of the call so far. -/
structure Stage (E : Precision → Type) (ω : Type) where
  object : Object E ω
  notices : List (Notice ω)

/-- Steps of a call.  A failure keeps what was written before it. -/
abbrev Method (E : Precision → Type) (ω : Type) := ExceptT Failure (StateM (Stage E ω))

namespace Method

variable {E : Precision → Type} {ω β : Type}

/-- A step that fails from outside, if there is such a failure. -/
def unlessCut (cut : Option Failure) (a : Method E ω β) : Method E ω β :=
  match cut with
  | some f => throw f
  | none => a

/-- Writes members. -/
def write (change : Object E ω → Object E ω) : Method E ω Unit :=
  ExceptT.mk fun s => (.ok (), { s with object := change s.object })

/-- Asks the model that is kept. -/
def ask (question : Model E ω → Except Failure β) : Method E ω β :=
  ExceptT.mk fun s => (question s.object.model, s)

/-- Computes with the model that is kept, in a session that starts from the seed. -/
def compute {σ : Type} [Source σ ω] (a : Model E ω → Seeding σ ω β) : Method E ω β :=
  ExceptT.mk fun s =>
    let (r, session) := (a s.object.model).run ⟨Source.seed s.object.params.seed, s.notices⟩
    (r, { s with notices := session.notices })

end Method

namespace Object

variable {E : Precision → Type} {ω : Type} [∀ p, Scalar (E p)] [Scalar ω]
  [∀ p, Widening (E p) ω] [∀ p, BlockProduct (E p)] [Memory]

/-- Writes what is known of a fit, member by member.  The storage of the other precision is
emptied. -/
def keep (p : Precision) (features : Nat) (f : Fit (E p) ω) : Method E ω Unit := do
  Method.write fun o => o.store p f.centroids
  Method.write fun o => o.store p.other .empty
  Method.write fun o => { o with precision := p }
  Method.write fun o => { o with features := features }
  Method.write fun o => { o with iterations := f.iterations }
  Method.write fun o => { o with inertia := widen f.inertia }
  Method.write fun o => { o with isFitted := true }

/-- Fits the model that is kept.  The fit and the copy of its centroids come first; the members are
written when nothing can fail any more. -/
def fit (σ : Type) [Source σ ω] (cut : Option Failure) (p : Precision) (x : Dataset (E p))
    (weights : Option (List (E p))) : Method E ω (Fit (E p) ω) := do
  let f ← .unlessCut cut (.compute (σ := σ) fun m => m.computeFit p x weights)
  keep p x.table.cols f
  return f

end Object

/-! ### Calls -/

/-- What a call asks for. -/
inductive Action where
  | fit
  | predict
  | transform
  | fitPredict
  | fitTransform
  | score
  | clusterStats
deriving DecidableEq

namespace Action

/-- Whether the action fits the model before it answers. -/
def fits : Action → Bool
  | fit | fitPredict | fitTransform => true
  | predict | transform | score | clusterStats => false

end Action

/-- What a call returns. -/
inductive Reply (α ω : Type) where
  | fit (f : Fit α ω)
  | labels (labels : List Nat)
  | assignment (a : Assignment α)
  | distances (table : Matrix α)
  | score (s : α)
  | stats (stats : List (ClusterStats ω))

/-- What a call finds: the memory, and the failures that cut off its fit or its answer. -/
structure Conditions where
  memory : Memory
  fitting : Option Failure
  answering : Option Failure

/-- A call with data of some precision, and the conditions that it finds. -/
structure Call (E : Precision → Type) where
  action : Action
  precision : Precision
  data : Dataset (E precision)
  weights : Option (List (E precision))
  conditions : Conditions

namespace Call

variable {E : Precision → Type} {ω : Type} [∀ p, Scalar (E p)] [Scalar ω]
  [∀ p, Widening (E p) ω] [∀ p, BlockProduct (E p)] (σ : Type) [Source σ ω] (c : Call E)

/-- The fit of a call. -/
def fitStep : Method E ω (Fit (E c.precision) ω) :=
  letI := c.conditions.memory
  Object.fit σ c.conditions.fitting c.precision c.data c.weights

/-- The answer of a call. -/
def answer {β : Type} (question : [Memory] → Model E ω → Except Failure β) : Method E ω β :=
  letI := c.conditions.memory
  .unlessCut c.conditions.answering (.ask question)

/-- Carries out a call. -/
def perform : Method E ω (Reply (E c.precision) ω) :=
  match c.action with
  | .fit => return .fit (← c.fitStep σ)
  | .predict => return .assignment (← c.answer fun m => m.predict c.precision c.data c.weights)
  | .transform => return .distances (← c.answer fun m => m.transform c.precision c.data)
  | .fitPredict => return .labels (← c.fitStep σ).labels
  | .fitTransform => do
    let _ ← c.fitStep σ
    return .distances (← c.answer fun m => m.transform c.precision c.data)
  | .score => return .score (← c.answer fun m => m.score c.precision c.data c.weights)
  | .clusterStats => return .stats (← c.answer fun m => m.clusterStats c.precision c.data)

end Call

namespace Object

variable {E : Precision → Type} {ω : Type} [∀ p, Scalar (E p)] [Scalar ω]
  [∀ p, Widening (E p) ω] [∀ p, BlockProduct (E p)] (σ : Type) [Source σ ω]

/-- The object after a call. -/
def after (o : Object E ω) (c : Call E) : Object E ω := ((c.perform σ).run ⟨o, []⟩).2.object

/-- The object after a sequence of calls. -/
def afterAll (o : Object E ω) (calls : List (Call E)) : Object E ω := calls.foldl (after σ) o

/-- The object after only the fit of a call. -/
def afterFit (o : Object E ω) (c : Call E) : Object E ω := ((c.fitStep σ).run ⟨o, []⟩).2.object

/-- Whether the fit of a call succeeds. -/
def fits (o : Object E ω) (c : Call E) : Bool := ((c.fitStep σ).run ⟨o, []⟩).1.isOk

/-- The last call of a sequence whose fit succeeds, whatever becomes of the call after its fit. -/
def lastFit? (o : Object E ω) : List (Call E) → Option (Call E)
  | [] => none
  | c :: calls =>
    (lastFit? (o.after σ c) calls).or (if c.action.fits && o.fits σ c then some c else none)

end Object

end Clustering
