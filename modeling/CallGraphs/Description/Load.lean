import CallGraphs.Description.Draft
import CallGraphs.Files

/-! Programs loaded from a text, from a file, or from all description files below a directory. The files are
    read in the order of their paths into one program, and names are bound once, at the end. What value a text
    writes is up to a parser, such as `Json.ofText?`, and the files are those that an access to them gives. -/

namespace CallGraphs

/-- Why a program cannot be loaded. -/
inductive LoadError where
  | malformed (source : String)
  | schema (source : String) (fault : SchemaError)
  | unreadable (path : String) (why : FileError)
  | noDirectory (path : String)
  deriving DecidableEq

namespace LoadError

/-- The wording of a fault. -/
def message : LoadError → String
  | .malformed source => s!"{source}: <json syntax error>"
  | .schema source fault => s!"{source}: {fault.message}"
  | .unreadable path why => s!"Failed to read '{path}': {why.message}"
  | .noDirectory path => s!"Directory not found: {path}"

/-- The operating system's number for a fault of the file tree. -/
def code? : LoadError → Option Nat
  | .unreadable _ why => some why.code
  | .noDirectory _ => some FileError.missing.code
  | _ => none

end LoadError

namespace Draft

/-- Read a document into the draft; `source` says where it came from. -/
def readValue (source : String) (d : Draft) (v : Json) : Except (Halt LoadError) Draft :=
  match d.readDocument v with
  | .ok d => .ok d
  | .error halt => .error ⟨.schema source halt.cause, halt.notices⟩

/-- Read a text into the draft; `source` says where it came from. -/
def readText (parse : Json.Parser) (source : String) (d : Draft) (text : String) : Except (Halt LoadError) Draft :=
  match parse text with
  | none => d.check (.error (.malformed source))
  | some v => d.readValue source v

/-- Read a file into the draft. -/
def readFile (parse : Json.Parser) (files : FileAccess) (d : Draft) (path : String) : Except (Halt LoadError) Draft :=
  match files.read path with
  | .error why => d.check (.error (.unreadable path why))
  | .ok text => d.readText parse path text

/-- Read one of several files, with a notice. -/
def readListed (parse : Json.Parser) (files : FileAccess) (d : Draft) (path : String) :
    Except (Halt LoadError) Draft :=
  (d.note (.info s!" ::: Reading program description: {path}")).readFile parse files path

end Draft

/-- Whether a path is written as that of a description file and does not lead to a directory. A path that
    ends early does: what is below such a directory cannot be told from the directory. -/
def isDescription (files : FileAccess) (path : String) : Bool :=
  ".json".toList.isSuffixOf path.toList && !files.isDir path

/-- The description files below a directory, by path. -/
def descriptionFiles (files : FileAccess) (dir : String) : List String :=
  ((files.below dir).filter (isDescription files)).mergeSort fun a b => decide (a ≤ b)

namespace Program

/-- The program that a document describes. -/
def ofDocument (source : String) (v : Json) : Except (Halt LoadError) Draft :=
  (Draft.readValue source {} v).map Draft.finish

/-- The program that a text describes. -/
def ofText (parse : Json.Parser) (source text : String) : Except (Halt LoadError) Draft :=
  (Draft.readText parse source {} text).map Draft.finish

/-- The program that a file describes. -/
def ofFile (parse : Json.Parser) (files : FileAccess) (path : String) : Except (Halt LoadError) Draft :=
  (Draft.readFile parse files {} path).map Draft.finish

/-- What a directory scan has found. -/
def scanNotice (dir : String) (paths : List String) : Notice :=
  if paths.isEmpty then .warn s!"Empty program description list in {dir}"
  else .info s!"Found {paths.length} program description(s)."

/-- The program that all description files below a directory describe together. -/
def ofDirectory (parse : Json.Parser) (files : FileAccess) (dir : String) : Except (Halt LoadError) Draft :=
  if files.isDir dir then
    let paths := descriptionFiles files dir
    (paths.foldlM (Draft.readListed parse files) (Draft.note {} (scanNotice dir paths))).map Draft.finish
  else Draft.check {} (.error (.noDirectory dir))

end Program

end CallGraphs
