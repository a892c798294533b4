import CallGraphs.Text

/-! A tree of text files as a value: what the library reads from and writes to. Directories are those listed,
    those that hold a file or a directory, and the working directory with all that is above it.

    A path is walked part by part from the working directory or the root, and every part has to be looked up
    in a directory. So a path through a file leads nowhere even if its next part goes back up, and so does
    a path through a name that does not exist. The empty path leads nowhere, and neither names nor paths may
    be too long. A zero character ends a path, whatever is written after it. -/

namespace CallGraphs

/-- Why a file cannot be opened. -/
inductive FileError where
  | missing | notADirectory | isADirectory | nameTooLong
  deriving DecidableEq

namespace FileError

/-- The number that operating systems give to the reason. -/
def code : FileError → Nat
  | .missing => 2
  | .notADirectory => 20
  | .isADirectory => 21
  | .nameTooLong => 36

/-- The wording of the reason. -/
def message : FileError → String
  | .missing => "No such file or directory"
  | .notADirectory => "Not a directory"
  | .isADirectory => "Is a directory"
  | .nameTooLong => "File name too long"

end FileError

/-! ### Places in the tree -/

/-- Where something is: the names on the way down to it from the working directory. Parts `..` in front lead
    up from the working directory, and a part `/` in front stands for the root. -/
abbrev Location := List String

namespace Location

/-- The directory above. The root is above itself. -/
def up (l : Location) : Location :=
  match l.getLast? with
  | none => [".."]
  | some name => if name = ".." then l ++ [".."] else if name = "/" then l else l.dropLast

/-- One part of a path: nothing or a dot stays, two dots go up, any other name goes down. -/
def step (l : Location) (part : String) : Location :=
  if part = "" ∨ part = "." then l else if part = ".." then l.up else l ++ [part]

/-- Where a path starts: at the root if it begins with a slash, else in the working directory. -/
def start (path : String) : Location := if path.toList.head? = some '/' then ["/"] else []

/-- The part of a path that counts: all before the first zero character. -/
def significant (path : String) : String := String.ofList (path.toList.takeWhile (· != '\x00'))

/-- The parts of a path. -/
def parts (path : String) : List String := (Text.split '/' (significant path).toList).map String.ofList

/-- Whether a path ends in a slash, so that it can only mean a directory. -/
def endsOpen (path : String) : Bool := (parts path).getLast? == some ""

/-- The parts of a path in front of its last name; slashes at its end do not count. -/
def front (path : String) : List String := ((parts path).reverse.dropWhile (· == "")).tail.reverse

/-- Where a path leads if every directory on its way exists. -/
def ofPath (path : String) : Location := (parts path).foldl step (start path)

/-- A path to the location. -/
def path : Location → String
  | "/" :: names => "/" ++ Text.join "/" names
  | l => Text.join "/" l

/-- The names on the way down from a directory to a location strictly below it. -/
def descent? (dir l : Location) : Option (List String) :=
  if dir.isPrefixOf l then
    match l.drop dir.length with
    | [] => none
    | name :: rest => if name = ".." ∨ name = "/" then none else some (name :: rest)
  else none

end Location

/-! ### Trees -/

/-- What a location holds. -/
inductive FileEntry where
  | file (text : String)
  | directory

/-- Text files by location, and directories that exist whether or not they hold anything. -/
structure FileTree where
  files : List (Location × String) := []
  dirs : List Location := []

namespace FileTree

/-- The tree of some files and directories given by paths. -/
def ofPaths (files : List (String × String)) (dirs : List String) : FileTree :=
  { files := files.map fun f => (.ofPath f.1, f.2), dirs := dirs.map .ofPath }

/-- Whether a location is a directory: it is the working directory, above it or the root, or it is on the
    way to something in the tree. -/
def isDirAt (t : FileTree) (l : Location) : Bool :=
  l.all (· == "..") || l == ["/"] || t.dirs.any l.isPrefixOf || t.files.any fun f => l.isPrefixOf f.1.dropLast

/-- What is at a location. -/
def entry? (t : FileTree) (l : Location) : Option FileEntry :=
  match t.files.lookup l with
  | some text => some (.file text)
  | none => if t.isDirAt l then some .directory else none

/-- The most bytes of a name in a directory. -/
def maxName : Nat := 255

/-- The most bytes of a path. -/
def maxPath : Nat := 4095

/-- One part of a path, which can only be followed from a directory. -/
def follow (t : FileTree) (l : Location) (part : String) : Except FileError Location :=
  match t.entry? l with
  | none => .error .missing
  | some (.file _) => .error .notADirectory
  | some .directory => if maxName < part.utf8ByteSize then .error .nameTooLong else .ok (l.step part)

/-- Follow some parts of a path from its start. The whole path must be neither empty nor too long. -/
def followAll (t : FileTree) (path : String) (parts : List String) : Except FileError Location :=
  if Location.significant path = "" then .error .missing
  else if maxPath < (Location.significant path).utf8ByteSize then .error .nameTooLong
  else parts.foldlM t.follow (Location.start path)

/-- Where a path leads. There need not be anything. -/
def locate (t : FileTree) (path : String) : Except FileError Location :=
  t.followAll path (Location.parts path)

/-- Where a path leads for a text to be put there. A path that ends in a slash means a directory whether or
    not there is one, as long as its last name stands in a directory. -/
def target (t : FileTree) (path : String) : Except FileError Location :=
  if Location.endsOpen path then do
    let l ← t.followAll path (Location.front path)
    let _ ← t.follow l ""
    .error .isADirectory
  else t.locate path

/-- Whether a path leads to a directory. -/
def isDir (t : FileTree) (path : String) : Bool :=
  match (t.locate path).toOption.bind t.entry? with
  | some .directory => true
  | _ => false

/-- The text of the file that a path leads to, or why it cannot be read. -/
def read (t : FileTree) (path : String) : Except FileError String := do
  match t.entry? (← t.locate path) with
  | none => .error .missing
  | some .directory => .error .isADirectory
  | some (.file text) => .ok text

/-- The text of the file that a path leads to. -/
def get? (t : FileTree) (path : String) : Option String := (t.read path).toOption

/-- Put a text where a path leads, over what was there. The directory around it must exist. -/
def write (t : FileTree) (path text : String) : Except FileError FileTree := do
  let l ← t.target path
  match t.entry? l with
  | some .directory => .error .isADirectory
  | _ => .ok { t with files := t.files.filter (fun f => f.1 != l) ++ [(l, text)] }

/-- The paths of all files below a directory, written from that directory on. -/
def below (t : FileTree) (dir : String) : List String :=
  match t.locate dir with
  | .error _ => []
  | .ok l => t.files.filterMap fun f => (l.descent? f.1).map fun names => Text.join "/" (dir :: names)

end FileTree

/-! ### Access -/

/-- What a reader asks of the files: whether a path leads to a directory, which paths a scan of a directory gives, in
    whatever order, and the text of a file. -/
structure FileAccess where
  isDir : String → Bool
  below : String → List String
  read : String → Except FileError String

/-- The files of a tree. -/
def FileTree.access (t : FileTree) : FileAccess := { isDir := t.isDir, below := t.below, read := t.read }

end CallGraphs
