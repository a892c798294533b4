import CallGraphs.Description.Load
import CallGraphs.Hierarchy.Format
import CallGraphs.Report

/-! One run of the command-line tool over a tree of files: read the settings, apply the changes asked for,
    load the program, show its hierarchy if asked, choose entry points, build the call graph and write it. The
    first error ends the run; what was said, printed and written before it stands. The report waits until
    the cost of the run is known. -/

namespace CallGraphs

/-- What is asked for on the command line. -/
structure Options where
  overrides : Overrides := {}
  dumpHierarchy : Bool := false
  format : HierarchyFormat := .text

/-- What a run leaves behind: whether it failed, what it printed and said, the files, and at the end of a
    run that did not fail what there is to report. -/
structure Outcome where
  failed : Bool := false
  printed : String := ""
  notices : Array Notice := #[]
  files : FileTree := {}
  concluded : Option (Settings × Analysis) := none

namespace Outcome

/-- Add a notice. -/
def note (o : Outcome) (n : Notice) : Outcome := { o with notices := o.notices.push n }

/-- Add notices, in order. -/
def noteAll (o : Outcome) (ns : List Notice) : Outcome := { o with notices := o.notices ++ ns }

/-- End the run with an error. -/
def fail (o : Outcome) (message : String) : Outcome := { o.note (.error message) with failed := true }

/-- Report on a run that did not fail, once its cost is known. -/
def report (o : Outcome) (cost : Cost) : Outcome :=
  match o.concluded with
  | none => o
  | some (s, a) => o.note (Report.notice s a cost)

/-- The exit status. -/
def exitCode (o : Outcome) : Nat := if o.failed then 1 else 0

end Outcome

namespace Tool

/-- Write a file and go on, or end the run. -/
def writeFile (path text : String) (o : Outcome) (next : Outcome → Outcome) : Outcome :=
  let o := o.note (.info s!"Writing results to {path}...")
  match o.files.write path text with
  | .error why => o.fail s!"Failed to open '{path}': {why.message}"
  | .ok files => next { o with files }

/-- Write the call graph in both forms. -/
def conclude (s : Settings) (p : Program) (a : Analysis) (o : Outcome) : Outcome :=
  let graph := a.scan.graph
  writeFile s.jsonPath ((graph.json p).pretty ++ "\n") o fun o =>
    writeFile s.dotTarget (graph.dot p s.dotLimit) o fun o => { o with concluded := some (s, a) }

/-- Analyse a loaded program. -/
def analyse (options : Options) (s : Settings) (p : Program) (o : Outcome) : Outcome :=
  let d := Dispatch.ofProgram p s.algorithm
  let o := o.noteAll (Hierarchy.notices p)
  let o := if options.dumpHierarchy then
      { o with printed := o.printed ++ d.hierarchy.render p options.format }
    else o
  let selection : Selection := { program := p, strategy := s.strategy, filter := s.namespaces }
  let seeds := selection.entryPoints
  let o := o.noteAll (selection.notices ++
    seeds.map fun m => .debug s!"in queue: {p.methodName m}")
  let a := Analysis.run d seeds
  conclude s p a (o.noteAll a.scan.notices.toList)

/-- Load the program and analyse it. -/
def loadAndAnalyse (options : Options) (s : Settings) (o : Outcome) : Outcome :=
  match Program.ofDirectory Json.ofText? o.files.access s.binaryPath with
  | .error halt => (o.noteAll halt.notices.toList).fail halt.cause.message
  | .ok draft =>
    let p := draft.program
    let o := o.noteAll draft.notices.toList
    if p.isEmpty then o.fail s!"no program description found in '{s.binaryPath}'"
    else
      let size := s!"{p.modules.size} module(s), {p.types.size} type(s), {p.methods.size} method(s)"
      analyse options s p (o.note (.info s!"Loaded {size}"))

/-- The settings of a run: those of the file, changed as asked. -/
def settings (options : Options) (files : FileTree) (configPath : String) :
    Except SettingsError Settings := do
  options.overrides.apply (← Settings.ofFile Json.ofText? files.access configPath)

/-- A whole run, up to the report. -/
def run (options : Options) (configPath : String) (files : FileTree) : Outcome :=
  let o : Outcome := { files }
  match settings options files configPath with
  | .error e => o.fail e.message
  | .ok s => loadAndAnalyse options s (o.note s.notice)

end Tool

end CallGraphs
