import CallGraphs.Dispatch.Candidates
import CallGraphs.Entry.Selection
import CallGraphs.Files
import CallGraphs.Graph.Export

/-! Settings of a run: where the program is, what to compute and where to write. They come from a JSON
    document, whose members are looked at in a fixed order up to the first fault, and can be changed one by
    one afterwards. -/

namespace CallGraphs

open Json (Object)

/-- The settings of a run. An empty DOT path stands for the path that goes with the JSON path. -/
structure Settings where
  binaryPath : String
  namespaces : List String := []
  algorithm : Algorithm
  strategy : Strategy
  jsonPath : String
  dotPath : String := ""
  dotLimit : Nat := CallGraph.defaultDotLimit
  deriving DecidableEq

/-! ### Faults -/

/-- What can be wrong with a settings document. -/
inductive SettingsFault where
  | notAnObject
  | noBinaryPath
  | namespacesNotArray
  | namespacesNotStrings
  | noAlgorithm
  | unknownAlgorithm (word : String)
  | noStrategy
  | unknownStrategy (word : String)
  | noJsonPath
  | badLimit
  deriving DecidableEq

/-- The wording of a fault. -/
def SettingsFault.message : SettingsFault → String
  | .notAnObject => "configuration must be a JSON object"
  | .noBinaryPath => "missing 'BinaryPath'"
  | .namespacesNotArray => "'Namespaces' must be an array"
  | .namespacesNotStrings => "'Namespaces' must hold strings"
  | .noAlgorithm => "missing 'Algorithm'"
  | .unknownAlgorithm w => s!"unknown algorithm '{w}'"
  | .noStrategy => "missing 'EntrypointStrategy'"
  | .unknownStrategy w => s!"unknown entry point strategy '{w}'"
  | .noJsonPath => "missing 'JsonOutputPath'"
  | .badLimit => "'DotEdgeLimit' must be a non-negative integer"

/-- Why there are no settings to work with. -/
inductive SettingsError where
  | malformed (source : String)
  | fault (source : String) (what : SettingsFault)
  | override (what : SettingsFault)
  | emptyBinaryPath
  | emptyJsonPath
  | noFile (path : String) (why : FileError)
  deriving DecidableEq

namespace SettingsError

/-- The wording of an error. -/
def message : SettingsError → String
  | .malformed source => s!"{source}: <json syntax error>"
  | .fault source what => s!"{source}: {what.message}"
  | .override what => what.message
  | .emptyBinaryPath => "configuration: empty binary path"
  | .emptyJsonPath => "configuration: empty JSON output path"
  | .noFile path _ => s!"Configuration file not found: {path}"

/-- The operating system's number for an error of the file tree. -/
def code? : SettingsError → Option Nat
  | .noFile _ why => some why.code
  | _ => none

end SettingsError

/-! ### Reading -/

/-- The namespaces of a settings document. -/
def decodeNamespaces (o : Object) : Except SettingsFault (List String) :=
  match Object.get? o "Namespaces" with
  | none => .ok []
  | some (.arr items) => items.mapM fun
    | .str s => .ok s
    | _ => .error .namespacesNotStrings
  | some _ => .error .namespacesNotArray

/-- The algorithm of a settings document. -/
def decodeAlgorithm (o : Object) : Except SettingsFault Algorithm :=
  match Object.text? o "Algorithm" with
  | none => .error .noAlgorithm
  | some word =>
    match Algorithm.ofWord? word with
    | some a => .ok a
    | none => .error (.unknownAlgorithm word)

/-- The strategy of a settings document. -/
def decodeStrategy (o : Object) : Except SettingsFault Strategy :=
  match Object.text? o "EntrypointStrategy" with
  | none => .error .noStrategy
  | some word =>
    match Strategy.ofWord? word with
    | some s => .ok s
    | none => .error (.unknownStrategy word)

/-- The number of edges in the DOT graph. -/
def decodeLimit (o : Object) : Except SettingsFault Nat :=
  match Object.get? o "DotEdgeLimit" with
  | none => .ok CallGraph.defaultDotLimit
  | some v =>
    match v.integer? with
    | some (.ofNat n) => .ok n
    | _ => .error .badLimit

/-- A path that must be there and not be empty. -/
def decodePath (o : Object) (key : String) (missing : SettingsFault) : Except SettingsFault String :=
  match Object.name? o key with
  | none => .error missing
  | some path => .ok path

namespace Settings

/-- The settings that a document gives. -/
def ofDocument : Json → Except SettingsFault Settings
  | .obj o => do
    let binaryPath ← decodePath o "BinaryPath" .noBinaryPath
    let namespaces ← decodeNamespaces o
    let algorithm ← decodeAlgorithm o
    let strategy ← decodeStrategy o
    let jsonPath ← decodePath o "JsonOutputPath" .noJsonPath
    let dotLimit ← decodeLimit o
    return { binaryPath, namespaces, algorithm, strategy, jsonPath,
             dotPath := (Object.text? o "DotOutputPath").getD "", dotLimit }
  | _ => .error .notAnObject

/-- The settings that a document from a source gives. -/
def ofValue (source : String) (v : Json) : Except SettingsError Settings :=
  match ofDocument v with
  | .ok s => .ok s
  | .error what => .error (.fault source what)

/-- The settings that a text gives. -/
def ofText (parse : Json.Parser) (source text : String) : Except SettingsError Settings :=
  match parse text with
  | none => .error (.malformed source)
  | some v => ofValue source v

/-- The settings that a file gives. -/
def ofFile (parse : Json.Parser) (files : FileAccess) (path : String) : Except SettingsError Settings :=
  match files.read path with
  | .error why => .error (.noFile path why)
  | .ok text => ofText parse path text

/-! ### Use -/

/-- The paths that a run cannot do without. -/
def validate (s : Settings) : Except SettingsError Unit :=
  if s.binaryPath = "" then .error .emptyBinaryPath
  else if s.jsonPath = "" then .error .emptyJsonPath
  else .ok ()

/-- Where the DOT graph goes. -/
def dotTarget (s : Settings) : String :=
  if s.dotPath = "" then CallGraph.dotPathFor s.jsonPath else s.dotPath

/-- The namespaces in one line. -/
def namespaceList (s : Settings) : String := Text.join ", " s.namespaces

/-- The settings as a notice. -/
def notice (s : Settings) : Notice :=
  .info <|
    "\n============== Configuration ============\n" ++
    s!"Binary Path: {s.binaryPath}\n" ++
    s!"Namespaces: {s.namespaceList}\n" ++
    s!"Algorithm: {s.algorithm.name}\n" ++
    s!"Entrypoint Strategy: {s.strategy.name}\n" ++
    s!"Json Output Path: {s.jsonPath}\n" ++
    s!"Dot Output Path: {s.dotTarget} ({s.dotLimit} edges)\n" ++
    "========================================="

end Settings

/-! ### Changes on the command line -/

/-- Changes to the settings; an empty text, an empty list and a negative number change nothing. The values of options
    are bytes on a command line; here they are texts, which have these bytes as UTF-8. -/
structure Overrides where
  algorithm : String := ""
  strategy : String := ""
  namespaces : List String := []
  jsonPath : String := ""
  dotPath : String := ""
  dotLimit : Int := -1

namespace Overrides

/-- The algorithm after the changes. -/
def algorithmOf (o : Overrides) (s : Settings) : Except SettingsFault Algorithm :=
  if o.algorithm = "" then .ok s.algorithm
  else
    match Algorithm.ofWord? o.algorithm with
    | some a => .ok a
    | none => .error (.unknownAlgorithm o.algorithm)

/-- The strategy after the changes. -/
def strategyOf (o : Overrides) (s : Settings) : Except SettingsFault Strategy :=
  if o.strategy = "" then .ok s.strategy
  else
    match Strategy.ofWord? o.strategy with
    | some t => .ok t
    | none => .error (.unknownStrategy o.strategy)

/-- The settings after the changes. -/
def change (o : Overrides) (s : Settings) : Except SettingsFault Settings := do
  let algorithm ← o.algorithmOf s
  let strategy ← o.strategyOf s
  return { s with
    algorithm, strategy
    namespaces := if o.namespaces.isEmpty then s.namespaces else o.namespaces
    jsonPath := if o.jsonPath = "" then s.jsonPath else o.jsonPath
    dotPath := if o.dotPath = "" then s.dotPath else o.dotPath
    dotLimit := if o.dotLimit < 0 then s.dotLimit else o.dotLimit.toNat }

/-- The settings after the changes, if a run can use them. -/
def apply (o : Overrides) (s : Settings) : Except SettingsError Settings :=
  match o.change s with
  | .error what => .error (.override what)
  | .ok s =>
    match s.validate with
    | .error e => .error e
    | .ok _ => .ok s

end Overrides

end CallGraphs
