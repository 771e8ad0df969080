/-!
# Reporting levels

How much a run reports.  A notice has a level, and is shown when that level is within the
threshold in force: the one set for the whole process, if there is one, and otherwise the one of
the innermost scope.
-/

namespace Clustering

/-- A reporting level, from silence to everything. -/
inductive Level where
  | off
  | error
  | warn
  | info
  | debug
  /-- Above every level that has a name. -/
  | beyond
deriving DecidableEq

namespace Level

/-- The name that a level is reported by. -/
def name : Level → String
  | off => "off"
  | error => "error"
  | warn => "warn"
  | info => "info"
  | debug => "debug"
  | beyond => "unknown"

/-- The level with a given code. -/
def ofCode : Nat → Level
  | 0 => off
  | 1 => error
  | 2 => warn
  | 3 => info
  | 4 => debug
  | _ => beyond

/-- The place of a level in the order of verbosity. -/
def rank : Level → Nat
  | off => 0
  | error => 1
  | warn => 2
  | info => 3
  | debug => 4
  | beyond => 5

/-- The accepted spellings, in lower case. -/
def spellings : List (String × Level) :=
  [("off", off), ("0", off), ("none", off), ("error", error), ("warn", warn), ("warning", warn),
    ("info", info), ("1", info), ("debug", debug)]

/-- The level that a text names, whatever the case of its letters. -/
def parse? (s : String) : Option Level := spellings.lookup (s.map Char.toLower)

/-- Whether a notice of a level is shown under a threshold.  Level `off` never is. -/
def shownUnder (threshold level : Level) : Bool :=
  level ≠ off && level.rank ≤ threshold.rank

end Level

/-- The threshold in force: a level for the whole process that overrides the scopes, and the
levels of the open scopes, innermost first. -/
structure Thresholds where
  process : Option Level
  scopes : List Level

namespace Thresholds

/-- No scope is open.  The text is the process setting, if there is one; a text that names no
level counts as none. -/
def start (setting : Option String) : Thresholds := ⟨setting.bind Level.parse?, []⟩

/-- The threshold that notices are compared with.  Outside all scopes it lets warnings through. -/
def current (t : Thresholds) : Level := t.process.getD (t.scopes.headD .warn)

/-- Opens a scope. -/
def enter (t : Thresholds) (level : Level) : Thresholds := { t with scopes := level :: t.scopes }

/-- Closes the innermost scope, which puts back the level of the one around it. -/
def leave (t : Thresholds) : Thresholds := { t with scopes := t.scopes.tail }

end Thresholds

end Clustering
