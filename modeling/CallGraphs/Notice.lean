/-! Notices: what the library has to say while it works, each with a level of importance. Functions hand
    their notices back as data, in order; the outer layer shows those that are important enough. -/

namespace CallGraphs

/-- How important a notice is, least important first. -/
inductive Level where
  | trace | debug | info | warn | error
  deriving DecidableEq

namespace Level

/-- The position in the order of importance. -/
def rank : Level → Nat
  | .trace => 0
  | .debug => 1
  | .info => 2
  | .warn => 3
  | .error => 4

/-- The word for a level. -/
def word : Level → String
  | .trace => "trace"
  | .debug => "debug"
  | .info => "info"
  | .warn => "warn"
  | .error => "error"

/-- The level that a word stands for. -/
def ofWord? : String → Option Level
  | "trace" => some .trace
  | "debug" => some .debug
  | "info" => some .info
  | "warn" => some .warn
  | "error" => some .error
  | _ => none

end Level

/-- One notice. -/
structure Notice where
  level : Level
  text : String
  deriving DecidableEq

namespace Notice

def trace (text : String) : Notice := ⟨.trace, text⟩
def debug (text : String) : Notice := ⟨.debug, text⟩
def info (text : String) : Notice := ⟨.info, text⟩
def warn (text : String) : Notice := ⟨.warn, text⟩
def error (text : String) : Notice := ⟨.error, text⟩

/-- The notices that reach the threshold, in order; without a threshold there are none. -/
def atLeast (threshold : Option Level) (ns : List Notice) : List Notice :=
  match threshold with
  | none => []
  | some l => ns.filter fun n => l.rank ≤ n.level.rank

end Notice

end CallGraphs
