/-!
# Paths and files

A path is read from the working directory, or from the root if it starts with a slash. Its steps are
divided by slashes; `.` stays where it is and `..` goes up.

* `Place` : where files and directories can be, `Place.ofText` : the place that a path names whether
  it exists or not;
* `Path.ofText` : the steps of a path, `PathError` : why a path cannot be used;
* `Files` : the files that a session sees, `Files.ofTexts` : those of its working directory;
* `Files.node?` : what stands at a place;
* `Files.find` : what a path leads to;
* `Files.read` : the text at a path, `Files.create` : the place for another file, `Files.write`.
-/

namespace Microcomputer.Cli

/-! ## Paths -/

inductive PathError where
  | notFound
  /-- A file stands where the path goes on. -/
  | notDirectory
  /-- A directory stands where a file is wanted. -/
  | isDirectory
  | nameTooLong
deriving DecidableEq, Repr

def PathError.message : PathError → String
  | .notFound => "no such file or directory"
  | .notDirectory => "not a directory"
  | .isDirectory => "is a directory"
  | .nameTooLong => "file name too long"

/-- The directory from which a place is counted. -/
inductive Origin where
  | root
  /-- The directory that many levels above the working directory. -/
  | above (levels : Nat)
deriving DecidableEq, Repr

/-- A place for a file or a directory: the names on the way from its origin. -/
structure Place where
  origin : Origin
  names : List String
deriving DecidableEq, Repr

namespace Place

def root : Place := ⟨.root, []⟩

/-- The working directory. -/
def here : Place := ⟨.above 0, []⟩

def child (place : Place) (name : String) : Place := ⟨place.origin, place.names ++ [name]⟩

/-- The directory that holds a place. The root holds itself. -/
def parent (place : Place) : Place :=
  match place.names, place.origin with
  | [], .root => root
  | [], .above levels => ⟨.above (levels + 1), []⟩
  | names, origin => ⟨origin, names.dropLast⟩

def step (place : Place) (name : String) : Place :=
  if name = "." then place else if name = ".." then place.parent else place.child name

def isBelow (place directory : Place) : Bool :=
  place.origin == directory.origin && directory.names.length < place.names.length &&
    directory.names.isPrefixOf place.names

end Place

structure Path where
  start : Place
  steps : List String
  /-- The path ends in a slash, and so asks for a directory. -/
  endsInSlash : Bool
deriving DecidableEq, Repr

namespace Path

/-- What stands between the slashes of a text whose first characters, last one first, are
`pending`. -/
def pieces (pending : List Char) : List Char → List String
  | [] => [String.ofList pending.reverse]
  | c :: cs =>
    if c = '/' then String.ofList pending.reverse :: pieces [] cs else pieces (c :: pending) cs

/-- The path that a text writes. Several slashes count as one. -/
def ofText (text : String) : Path where
  start := if text.toList.head? = some '/' then .root else .here
  steps := (pieces [] text.toList).filter (· != "")
  endsInSlash := text.toList.getLast? = some '/'

/-- A path has less than this many bytes. -/
def byteLimit : Nat := 4096

/-- A name has at most this many bytes. -/
def nameLimit : Nat := 255

/-- The path that a text writes, if it is neither empty nor too long. -/
def parse (text : String) : Except PathError Path :=
  if text.isEmpty then .error .notFound
  else if byteLimit ≤ text.utf8ByteSize then .error .nameTooLong
  else .ok (ofText text)

end Path

/-- The place that a path names, whether it exists or not. -/
def Place.ofText (text : String) : Place :=
  let path := Path.ofText text
  path.steps.foldl Place.step path.start

/-! ## Files -/

inductive Node where
  | directory
  | file (text : String)
deriving DecidableEq, Repr

/-- Files with their places and texts. There are no empty directories but those of the system. -/
structure Files where
  texts : List (Place × String)
deriving DecidableEq, Repr

namespace Files

def systemDirectories : List String :=
  ["bin", "dev", "etc", "home", "lib", "media", "mnt", "opt", "proc", "root", "run", "sbin", "srv",
    "sys", "tmp", "usr", "var"]

/-- The file that is always empty and takes any text. -/
def nullPlace : Place := ⟨.root, ["dev", "null"]⟩

def ofTexts (texts : List (String × String)) : Files :=
  ⟨texts.map fun file => (Place.ofText file.1, file.2)⟩

/-- Whether a place is a directory: an origin, a directory of the system, or one that holds files. -/
def isDirectory (files : Files) (place : Place) : Bool :=
  place.names.isEmpty || systemDirectories.any (fun name => place == Place.root.child name) ||
    files.texts.any fun file => file.1.isBelow place

def node? (files : Files) (place : Place) : Option Node :=
  if files.isDirectory place then some .directory
  else if place = nullPlace then some (.file "")
  else (files.texts.lookup place).map .file

def locate (place : Place) (name : String) : Except PathError Place :=
  if Path.nameLimit < name.utf8ByteSize then .error .nameTooLong else .ok (place.step name)

def enter (files : Files) (place : Place) (name : String) : Except PathError Place := do
  let next ← locate place name
  match files.node? next with
  | some .directory => .ok next
  | some (.file _) => .error .notDirectory
  | none => .error .notFound

def lastDirectory (files : Files) (path : Path) : Except PathError Place :=
  path.steps.dropLast.foldlM files.enter path.start

def find (files : Files) (text : String) : Except PathError Node := do
  let path ← Path.parse text
  let directory ← files.lastDirectory path
  match path.steps.getLast? with
  | none => .ok .directory
  | some name =>
    if path.endsInSlash then (files.enter directory name).map fun _ => .directory
    else
      match files.node? (← locate directory name) with
      | some node => .ok node
      | none => .error .notFound

/-- The place of the file that a path asks for, which need not exist yet. -/
def create (files : Files) (text : String) : Except PathError Place := do
  let path ← Path.parse text
  let directory ← files.lastDirectory path
  match path.steps.getLast? with
  | none => .error .isDirectory
  | some name =>
    if path.endsInSlash then .error .isDirectory
    else
      let place ← locate directory name
      if files.isDirectory place then .error .isDirectory else .ok place

/-- The text at a path, or the complaint. A directory can be opened, but holds no text. -/
def read (files : Files) (text : String) : Except String String :=
  match files.find text with
  | .ok (.file content) => .ok content
  | .ok .directory => .error (text ++ ": read " ++ text ++ ": " ++ PathError.isDirectory.message)
  | .error e => .error ("open " ++ text ++ ": " ++ e.message)

def write (files : Files) (place : Place) (text : String) : Files :=
  if place = nullPlace then files
  else ⟨(place, text) :: files.texts.filter (·.1 != place)⟩

end Files

end Microcomputer.Cli
