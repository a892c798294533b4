import CallGraphs.Tool

/-! The command line of the tool: the settings file and options. An option is a name after one or two dashes,
    with its value after an equals sign or as the next argument; switches need no value. -/

namespace CallGraphs

/-- What is asked for: the settings file, the options, and which notices to show. -/
structure Invocation where
  configPath : String := ""
  options : Options := {}
  threshold : Option Level := some .info
  quiet : Bool := false

/-- What can be wrong with a command line. -/
inductive UsageError where
  | unknownOption (name : String)
  | missingValue (name : String)
  | badValue (name value : String)
  | noSettings
  | tooMany (argument : String)
  deriving DecidableEq

/-- The wording of a fault. -/
def UsageError.message : UsageError → String
  | .unknownOption name => s!"Unknown command line argument '{name}'."
  | .missingValue name => s!"for the --{name} option: requires a value!"
  | .badValue name value => s!"for the --{name} option: Cannot find option named '{value}'!"
  | .noSettings => "Not enough positional command line arguments specified!"
  | .tooMany argument => s!"Too many positional arguments specified! ('{argument}')"

namespace Invocation

/-- The notices to show. -/
def shown (i : Invocation) : Option Level := if i.quiet then none else i.threshold

/-- The options that are on or off. -/
def isSwitch (name : String) : Bool := name == "dump-type-hierarchy" || name == "quiet"

/-- Whether a switch is on. -/
def switch? (name : String) : String → Except UsageError Bool
  | "true" => .ok true
  | "false" => .ok false
  | value => .error (.badValue name value)

/-- The threshold that a word stands for. -/
def threshold? (value : String) : Except UsageError (Option Level) :=
  match value, Level.ofWord? value with
  | "off", _ => .ok none
  | _, some l => .ok (some l)
  | _, none => .error (.badValue "log-level" value)

/-- The form of a hierarchy that a word stands for. -/
def format? : String → Except UsageError HierarchyFormat
  | "text" => .ok .text
  | "dot" => .ok .dot
  | "json" => .ok .json
  | value => .error (.badValue "type-hierarchy-format" value)

/-- A whole number. -/
def integer? (name value : String) : Except UsageError Int :=
  match Numeral.ofChars? value.toList with
  | some (.whole n) => .ok n
  | _ => .error (.badValue name value)

/-- Change what the settings file says. -/
def override (i : Invocation) (f : Overrides → Overrides) : Invocation :=
  { i with options := { i.options with overrides := f i.options.overrides } }

/-- Take one option into account. -/
def set (i : Invocation) (name value : String) : Except UsageError Invocation :=
  match name with
  | "algorithm" => .ok (i.override fun o => { o with algorithm := value })
  | "entry" => .ok (i.override fun o => { o with strategy := value })
  | "namespace" =>
    let more := (Text.split ',' value.toList).map String.ofList
    .ok (i.override fun o => { o with namespaces := o.namespaces ++ more })
  | "o" => .ok (i.override fun o => { o with jsonPath := value })
  | "dot-output" => .ok (i.override fun o => { o with dotPath := value })
  | "dot-edge-limit" => do
    let n ← integer? name value
    return i.override fun o => { o with dotLimit := n }
  | "dump-type-hierarchy" => do
    let on ← switch? name value
    return { i with options := { i.options with dumpHierarchy := on } }
  | "type-hierarchy-format" => do
    let format ← format? value
    return { i with options := { i.options with format } }
  | "log-level" => do return { i with threshold := ← threshold? value }
  | "quiet" => do return { i with quiet := ← switch? name value }
  | _ => .error (.unknownOption name)

/-- The name of an option without its dashes, and the value after an equals sign. -/
def nameAndValue (argument : String) : String × Option String :=
  let cs := argument.toList.dropWhile (· == '-')
  let name := String.ofList (cs.takeWhile (· != '='))
  match cs.dropWhile (· != '=') with
  | [] => (name, none)
  | _ :: value => (name, some (String.ofList value))

/-- Whether an argument is an option. -/
def isOption (argument : String) : Bool := argument.toList.head? == some '-' && argument != "-"

/-- Take the arguments into account one by one. -/
def read (i : Invocation) : List String → Except UsageError Invocation
  | [] => if i.configPath = "" then .error .noSettings else .ok i
  | argument :: rest =>
    if isOption argument then
      match nameAndValue argument with
      | (name, some value) => do (← i.set name value).read rest
      | (name, none) =>
        if isSwitch name then do (← i.set name "true").read rest
        else
          match rest with
          | [] => .error (.missingValue name)
          | value :: rest => do (← i.set name value).read rest
    else if i.configPath = "" then { i with configPath := argument }.read rest
    else .error (.tooMany argument)

end Invocation

end CallGraphs
