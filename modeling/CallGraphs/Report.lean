import CallGraphs.Analysis
import CallGraphs.Number.Binary64
import CallGraphs.Settings

/-! The report at the end of a run: the settings, the size of the result, and what it cost. -/

namespace CallGraphs

/-- What a run costs: time in milliseconds and memory in bytes. -/
structure Cost where
  milliseconds : Nat := 0
  peakBytes : Nat := 0
  heapBytes : Nat := 0

namespace Report

/-- A number of bytes in units of `2 ^ k`, rounded to a binary number first and then to two places. -/
def scaled (bytes k : Nat) : String :=
  let (num, den) := (Binary64.nearest bytes 1).ratio
  fixedTwo num (den * Nat.pow 2 k)

/-- A number of bytes in the largest unit that it reaches. -/
def bytes (n : Nat) : String :=
  if Nat.pow 2 30 ≤ n then scaled n 30 ++ " GB"
  else if Nat.pow 2 20 ≤ n then scaled n 20 ++ " MB"
  else if Nat.pow 2 10 ≤ n then scaled n 10 ++ " KB"
  else toString n ++ " bytes"

/-- A time in seconds. -/
def seconds (milliseconds : Nat) : String := fixedTwo milliseconds 1000 ++ " seconds"

/-- The settings of the run. -/
def parameters (s : Settings) : String :=
  " \n==================== Parameters ==========================\n" ++
  s!"Binary Path:         {s.binaryPath}\n" ++
  s!"Namespaces:          {s.namespaceList}\n" ++
  s!"Algorithm:           {s.algorithm.name}\n" ++
  s!"Entrypoint Strategy: {s.strategy.name}\n" ++
  s!"Json Output Path:    {s.jsonPath}\n" ++
  "==========================================================\n"

/-- The size of the result; rounds are only counted where there are any. -/
def results (s : Settings) (a : Analysis) : String :=
  " \n==================== Results =============================\n" ++
  s!"Graph Nodes:         {a.scan.graph.nodes.length}\n" ++
  s!"Graph Edges:         {a.scan.graph.edges.length}\n" ++
  s!"Scanned Methods:     {a.scan.scanned}\n" ++
  s!"Virtual Call Sites:  {a.scan.sites.length}\n" ++
  s!"Instantiated Types:  {a.scan.live.length}\n" ++
  (if s.algorithm = .rta then s!"Refinement Rounds:   {a.rounds}\n" else "") ++
  s!"Diagnostics:         {a.scan.problems.length}\n"

/-- What the run has cost. -/
def costs (c : Cost) : String :=
  s!"Elapsed Time:        {seconds c.milliseconds}\n" ++
  s!"Peak Memory:         {bytes c.peakBytes}\n" ++
  s!"Heap Usage:          {bytes c.heapBytes}\n" ++
  "=========================================================="

/-- The whole report. -/
def notice (s : Settings) (a : Analysis) (c : Cost) : Notice :=
  .info (parameters s ++ results s a ++ costs c)

end Report

end CallGraphs
