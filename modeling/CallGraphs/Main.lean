import CallGraphs.CommandLine

/-! The command-line program. It takes a snapshot of the files that a run can see, lets `Tool.run` do the
    work on the snapshot, and then writes, prints and reports what the run leaves behind. -/

namespace CallGraphs.Shell

/-- The names in a directory; nothing if it cannot be listed. -/
def listDirectory (path : String) : IO (Option (List String)) := do
  try
    let entries ← (← IO.FS.realPath path).readDir
    return some (entries.toList.map (·.fileName))
  catch _ => return none

/-- The text of a file; nothing if it cannot be read. -/
def readText (path : String) : IO (Option String) := do
  try return some (← IO.FS.readFile path)
  catch _ => return none

/-- Add a file to a snapshot. -/
def addFile (path text : String) (tree : FileTree) : FileTree :=
  if (tree.files.lookup (.ofPath path)).isSome then tree
  else { tree with files := (.ofPath path, text) :: tree.files }

/-- Add what is at a path to a snapshot: a directory, or a file with its text. -/
def look (path : String) (tree : FileTree) : IO FileTree := do
  match ← listDirectory path, ← readText path with
  | some _, _ => return { tree with dirs := .ofPath path :: tree.dirs }
  | none, some text => return addFile path text tree
  | none, none => return tree

/-- Add what is on the way of a path to a snapshot, up to its end. -/
def lookAlong (path : String) (tree : FileTree) : IO FileTree := do
  let parts := Location.parts path
  (List.range parts.length).foldlM (fun tree k => look (Text.join "/" (parts.take (k + 1))) tree) tree

/-- Add the description files below a directory to a snapshot, with all directories on the way. -/
partial def snapshot (path : String) (tree : FileTree) : IO FileTree := do
  match ← listDirectory path with
  | some names =>
    let mut tree := { tree with dirs := .ofPath path :: tree.dirs }
    for name in names do
      tree ← snapshot (path ++ "/" ++ name) tree
    return tree
  | none =>
    if ".json".toList.isSuffixOf path.toList then
      match ← readText path with
      | some text => return addFile path text tree
      | none => return tree
    else return tree

/-- All that a run can see. -/
def world (i : Invocation) : IO FileTree := do
  let tree ← lookAlong i.configPath {}
  match Tool.settings i.options tree i.configPath with
  | .error _ => return tree
  | .ok s =>
    let tree ← snapshot (Location.significant s.binaryPath) (← lookAlong s.binaryPath tree)
    lookAlong s.dotTarget (← lookAlong s.jsonPath tree)

/-- The number of bytes on a line of a memory listing that counts in units of 1024 bytes. -/
def bytesOn (listing key : String) : Nat :=
  match (Text.split '\n' listing.toList).find? key.toList.isPrefixOf with
  | none => 0
  | some line => 1024 * Decimal.natOfDigits (line.filter Char.isDigit)

/-- What the run has cost so far. -/
def cost (started : Nat) : IO Cost := do
  let listing := (← readText "/proc/self/status").getD ""
  return { milliseconds := (← IO.monoMsNow) - started
           peakBytes := bytesOn listing "VmHWM:", heapBytes := bytesOn listing "VmData:" }

/-- Print the notices that are to be shown. -/
def printNotices (threshold : Option Level) (notices : List Notice) : IO Unit :=
  (Notice.atLeast threshold notices).forM fun n => IO.eprintln s!"[{n.level.word}] {n.text}"

/-- Run the tool. -/
def perform (i : Invocation) : IO UInt32 := do
  let started ← IO.monoMsNow
  let before ← world i
  let outcome := Tool.run i.options i.configPath before
  IO.print outcome.printed
  for (l, text) in outcome.files.files do
    if before.files.lookup l != some text then IO.FS.writeFile l.path text
  printNotices i.shown (outcome.report (← cost started)).notices.toList
  return outcome.exitCode.toUInt32

end CallGraphs.Shell

def main (args : List String) : IO UInt32 :=
  match CallGraphs.Invocation.read {} args with
  | .error e => do
    IO.eprintln e.message
    return 1
  | .ok i => CallGraphs.Shell.perform i
