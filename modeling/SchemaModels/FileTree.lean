/-! Trees of files: what reading a path gives, and what writing one changes. A path is a sequence of
names with slashes between, from the working directory on, or from the root if a slash stands first;
every name but the last has to be that of a directory. Names and whole paths have a greatest length
in bytes. -/

namespace SchemaModels
set_option autoImplicit false

/-! ## Faults -/

/-- Why a path cannot be read or written. -/
inductive FileFault where
  | notFound
  | notDirectory
  | isDirectory
  | nameTooLong
  | nulInPath
  | notText
  | other (description : String)
deriving DecidableEq, Repr

def FileFault.describe : FileFault → String
  | notFound => "No such file or directory (os error 2)"
  | notDirectory => "Not a directory (os error 20)"
  | isDirectory => "Is a directory (os error 21)"
  | nameTooLong => "File name too long (os error 36)"
  | nulInPath => "file name contained an unexpected NUL byte"
  | notText => "stream did not contain valid UTF-8"
  | other description => description

/-- What reading a path gives. -/
abbrev FileText := Except FileFault String

/-- Whether a path is a directory, told by what reading it gives. -/
def FileText.isDirectory : FileText → Bool
  | .error .isDirectory => true
  | _ => false

/-- Whether a path is a file, told by what reading it gives. -/
def FileText.isFile : FileText → Bool
  | .ok _ => true
  | .error .notText => true
  | .error (.other _) => true
  | _ => false

/-! ## Paths -/

/-- A place in a tree: the names on the way to it from the root. -/
abbrev Place := List String

/-- The working directory. The name on the way to it is empty: no path spells it, and the directory
is reached only by starting there. -/
def workingPlace : Place := [""]

/-- The names of a path; a slash at either end gives an empty name there. -/
def pathNames (path : String) : List String :=
  (path.toList.splitOn '/').map String.ofList

/-- The names of a path without the slashes at its end. -/
def pathStem (names : List String) : List String :=
  (names.reverse.dropWhile (· = "")).reverse

/-- The most bytes that a name can have. -/
def maxNameBytes : Nat := 255

/-- The most bytes that a path can have. -/
def maxPathBytes : Nat := 4095

/-- Where a path starts. -/
def pathStart (path : String) : Except FileFault Place :=
  if path.toList.contains '\x00' then .error .nulInPath
  else if path = "" then .error .notFound
  else if maxPathBytes < path.utf8ByteSize then .error .nameTooLong
  else if path.toList.head? = some '/' then .ok []
  else .ok workingPlace

/-! ## Trees -/

inductive FileNode where
  | file (content : ByteArray)
  | directory

/-- Files are the same if their bytes are. -/
instance : DecidableEq FileNode
  | .file a, .file b =>
    decidable_of_iff (a.data = b.data)
      ⟨fun h => congrArg FileNode.file (ByteArray.ext h), fun h => congrArg ByteArray.data (FileNode.file.inj h)⟩
  | .file _, .directory => .isFalse nofun
  | .directory, .file _ => .isFalse nofun
  | .directory, .directory => .isTrue rfl

/-- The nodes of a tree by place. The root and the working directory are always there. -/
structure FileTree where
  nodes : List (Place × FileNode)

namespace FileTree

/-- The tree with nothing in its working directory. -/
def empty : FileTree := ⟨[]⟩

def node? (tree : FileTree) (place : Place) : Option FileNode :=
  if place = [] ∨ place = workingPlace then some .directory else tree.nodes.lookup place

/-- Goes down a list of names. An empty name and a single dot stay, two dots go up; the root has
nothing above it but itself. -/
def descend (tree : FileTree) : Place → List String → Except FileFault Place
  | place, [] => .ok place
  | place, name :: names =>
    match tree.node? place with
    | none => .error .notFound
    | some (.file _) => .error .notDirectory
    | some .directory =>
      if name = "" ∨ name = "." then tree.descend place names
      else if name = ".." then tree.descend place.dropLast names
      else if maxNameBytes < name.utf8ByteSize then .error .nameTooLong
      else tree.descend (place ++ [name]) names

/-- The place of a path. -/
def place (tree : FileTree) (path : String) : Except FileFault Place := do
  tree.descend (← pathStart path) (pathNames path)

/-! ## Reading and writing -/

/-- The text of a file. -/
def read (tree : FileTree) (path : String) : FileText :=
  match tree.place path with
  | .error fault => .error fault
  | .ok place =>
    match tree.node? place with
    | none => .error .notFound
    | some .directory => .error .isDirectory
    | some (.file content) =>
      match String.fromUTF8? content with
      | some text => .ok text
      | none => .error .notText

/-- Puts a node at a place. -/
def put (tree : FileTree) (place : Place) (node : FileNode) : FileTree :=
  ⟨(place, node) :: tree.nodes.filter (·.1 ≠ place)⟩

/-- Puts a node under a path in the working directory. -/
def store (tree : FileTree) (path : String) (node : FileNode) : FileTree :=
  tree.put (workingPlace ++ pathNames path) node

/-- The place at which a path writes a file, in a directory that is there. A path with a slash at
its end is that of a directory; its last name is not looked at. -/
def target (tree : FileTree) (path : String) : Except FileFault Place := do
  let start ← pathStart path
  let names := pathNames path
  if names.getLast? = some "" then
    let _ ← tree.descend start ((pathStem names).dropLast ++ ["."])
    throw .isDirectory
  else
    let place ← tree.descend start names
    if tree.node? place = some .directory then throw .isDirectory
    return place

/-- Writes a text to a file. -/
def write (tree : FileTree) (path : String) (text : String) : Except FileFault FileTree := do
  return tree.put (← tree.target path) (.file text.toUTF8)

end FileTree

end SchemaModels
