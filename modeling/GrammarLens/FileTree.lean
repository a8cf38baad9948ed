import GrammarLens.Path
import GrammarLens.Table
import GrammarLens.Text.Quoted
import GrammarLens.Text.Utf8

/-!
Contract: a finite file system of directories, byte files and symbolic links, as a value.

Owns:
- locations and nodes, and what is denied: reading a file, listing a directory, looking a name
  up in one;
- resolving a path to a location, through at most forty links;
- the quiet checks, which take a path that leads nowhere for absent;
- listing a directory and reading a file as text, and the reasons why that may fail;
- writing and removing nodes, which nothing is denied to.

Does not own: owners, groups and who is asking.
-/

namespace GrammarLens

/-- The place of a node: the names from the root down to it. -/
abbrev Location := List Text

inductive Node where
  | directory
  | file (content : List UInt8)
  | link (target : Text)
deriving DecidableEq, Repr

/-- The nodes below the root, the directory in which relative paths start, and what is denied. -/
structure FileTree where
  current : Location
  nodes : Table Location Node
  /-- Files that may not be read and directories that may not be listed. -/
  unreadable : List Location := []
  /-- Directories in which no name may be looked up. -/
  unsearchable : List Location := []
deriving DecidableEq, Repr

/-- Why a path does not lead to what is wanted. -/
inductive FileError where
  | missing
  | permissionDenied
  | notADirectory
  | isADirectory
  | nameTooLong
  | tooManyLinks
deriving DecidableEq, Repr

namespace FileError

/-- The number of a system error. -/
def code : FileError → Int
  | missing => 2
  | permissionDenied => 13
  | notADirectory => 20
  | isADirectory => 21
  | nameTooLong => 36
  | tooManyLinks => 40

def reason : FileError → Text
  | missing => "No such file or directory".toList
  | permissionDenied => "Permission denied".toList
  | notADirectory => "Not a directory".toList
  | isADirectory => "Is a directory".toList
  | nameTooLong => "File name too long".toList
  | tooManyLinks => "Too many levels of symbolic links".toList

/-- Errors that a quiet check takes for absence. -/
def isAbsence : FileError → Bool
  | missing | notADirectory | tooManyLinks => true
  | permissionDenied | isADirectory | nameTooLong => false

end FileError

/-- Why a file cannot be read as text. -/
inductive ReadError where
  /-- The system refused, with a number, a reason, and the path it was asked for. -/
  | system (code : Int) (reason : Text) (path : Option Text)
  /-- The bytes are not UTF-8. -/
  | malformed (sequence : Malformed)
  /-- An error that has nothing but its text. -/
  | unexplained (text : Text)
deriving DecidableEq, Repr

/-- A system error at a path. -/
def FileError.at (error : FileError) (path : Text) : ReadError :=
  .system error.code error.reason (some path)

/-- What malformed bytes are reported as. -/
def Malformed.message (sequence : Malformed) : Text :=
  let place :=
    if sequence.length ≤ 1 then
      " byte 0x".toList ++ Text.hexDigits 2 sequence.first.toNat ++ " in position ".toList ++
        Text.ofNat sequence.position
    else
      " bytes in position ".toList ++ Text.ofNat sequence.position ++ '-' ::
        Text.ofNat (sequence.position + sequence.length - 1)
  "'utf-8' codec can't decode".toList ++ place ++ ": ".toList ++ sequence.reason.message

namespace ReadError

def message : ReadError → Text
  | system code reason path =>
    let place := (path.map fun name => ": ".toList ++ Text.quoted name).getD []
    "[Errno ".toList ++ Text.ofInt code ++ "] ".toList ++ reason ++ place
  | malformed sequence => sequence.message
  | unexplained text => text

/-- The reason alone, where the system gave one. -/
def summary (error : ReadError) : Text :=
  match error with
  | system _ reason _ => if reason.isEmpty then error.message else reason
  | _ => error.message

end ReadError

/-- How reading ends without a text: with an error that is reported and passed over, or at a
path that holds a null character and cannot be passed to the system at all. -/
inductive ReadFailure where
  | error (cause : ReadError)
  | nullCharacter
deriving DecidableEq, Repr

namespace FileTree

/-- The node at a location. The root is a directory. -/
def node? (tree : FileTree) : Location → Option Node
  | [] => some .directory
  | place => tree.nodes.find? place

def isDirectoryAt (tree : FileTree) (place : Location) : Bool := tree.node? place = some .directory

/-- Every location that has a node. -/
def locations (tree : FileTree) : List Location := [] :: tree.nodes.keys

/-- How many locations a traversal has not visited. -/
def unvisited (tree : FileTree) (visited : List Location) : Nat :=
  (tree.locations.filter fun place => place ∉ visited).length

/-- Bytes that a name takes. -/
def byteLength (name : Text) : Nat := (Utf8.encode name).length

/-- Where the walk through a link's target starts. -/
def linkStart (here : Location) (target : Text) : Location :=
  if target.head? = some '/' then [] else here

/-- Follows names from a directory. A link hands its target and the remaining names to
`follow`. An empty name or a dot stays, and needs a directory to stay in. All names but the
empty one, dots too, are looked up in that directory. -/
def walkWith (tree : FileTree) (follow : Location → List Text → Except FileError Location) :
    Location → List Text → Except FileError Location
  | here, [] => .ok here
  | here, name :: rest =>
    if !tree.isDirectoryAt here then .error .notADirectory
    else if name = [] then walkWith tree follow here rest
    else if here ∈ tree.unsearchable then .error .permissionDenied
    else if name = ['.'] then walkWith tree follow here rest
    else if name = ['.', '.'] then walkWith tree follow here.dropLast rest
    else if 255 < byteLength name then .error .nameTooLong
    else
      match tree.node? (here ++ [name]) with
      | none => .error .missing
      | some (.link target) =>
        if target.isEmpty then .error .missing
        else follow (linkStart here target) (Text.splitAtChar '/' target ++ rest)
      | some _ => walkWith tree follow (here ++ [name]) rest

/-- Follows names from a directory through at most `links` links. -/
def walk (tree : FileTree) : (links : Nat) → Location → List Text → Except FileError Location
  | 0 => walkWith tree fun _ _ => .error .tooManyLinks
  | links + 1 => walkWith tree (walk tree links)

/-- The most links followed for one path. -/
def linkLimit : Nat := 40

/-- The location a path leads to. The empty path leads nowhere. -/
def resolve (tree : FileTree) (path : Text) : Except FileError Location :=
  if path.isEmpty then .error .missing
  else if 4095 < byteLength path then .error .nameTooLong
  else tree.walk linkLimit (linkStart tree.current path) (Text.splitAtChar '/' path)

/-- The quiet check: where a path leads, if anywhere. -/
def locate? (tree : FileTree) (path : Text) : Except FileError (Option Location) :=
  if path.contains '\x00' then .ok none
  else
    match tree.resolve path with
    | .ok place => .ok (some place)
    | .error error => if error.isAbsence then .ok none else .error error

/-- The quiet check for a directory. -/
def directory? (tree : FileTree) (path : Text) : Except FileError (Option Location) :=
  (tree.locate? path).map fun place => place.filter tree.isDirectoryAt

/-- The names in a directory, sorted by code points. -/
def children (tree : FileTree) (place : Location) : List Text :=
  Text.sort <| distinct <| tree.nodes.keys.filterMap fun other =>
    if other.dropLast = place then other.getLast? else none

/-- Lists a directory. -/
def list (tree : FileTree) (place : Location) : Except FileError (List Text) :=
  if place ∈ tree.unreadable then .error .permissionDenied else .ok (tree.children place)

/-- Reads a file as text: strict UTF-8, with every line end as a newline. -/
def read (tree : FileTree) (path : Text) : Except ReadFailure Text :=
  if path.contains '\x00' then .error .nullCharacter
  else
    match tree.resolve path with
    | .error error => .error (.error (error.at path))
    | .ok place =>
      if place ∈ tree.unreadable then .error (.error (FileError.permissionDenied.at path))
      else
        match tree.node? place with
        | some (.file content) =>
          match Utf8.decode content with
          | .ok text => .ok text.plainLineEnds
          | .error sequence => .error (.error (.malformed sequence))
        | some .directory => .error (.error (FileError.isADirectory.at path))
        | some (.link _) | none => .error (.error (FileError.missing.at path))

/-! ## Changing the tree -/

/-- The tree in which nothing is denied, as it is for changes. -/
def unrestricted (tree : FileTree) : FileTree := { tree with unreadable := [], unsearchable := [] }

def put (tree : FileTree) (place : Location) (node : Node) : FileTree :=
  { tree with nodes := tree.nodes.put place node }

/-- Goes down named directories, making those that are missing. -/
def enter (tree : FileTree) (here : Location) : List Text → FileTree × Location
  | [] => (tree, here)
  | name :: rest =>
    match tree.unrestricted.walk linkLimit here [name] with
    | .ok place => enter tree place rest
    | .error _ => enter (tree.put (here ++ [name]) .directory) (here ++ [name]) rest

/-- The tree with nothing but the directory in which relative paths start. -/
def empty (current : Location) : FileTree := (enter { current, nodes := Table.empty } [] current).1

/-- The location at which a file of a given name in a directory is written: through links,
also through one whose target does not exist yet. -/
def landing (tree : FileTree) : (links : Nat) → Location → Text → Location
  | 0, here, name => here ++ [name]
  | links + 1, here, name =>
    match tree.node? (here ++ [name]) with
    | some (.link target) =>
      let pieces := (Text.splitAtChar '/' target).filter Path.isPart
      match pieces.getLast?,
        tree.unrestricted.walk linkLimit (linkStart here target) pieces.dropLast with
      | some last, .ok place => landing tree links place last
      | _, _ => here ++ [name]
    | _ => here ++ [name]

/-- Writes a node at a path below the current directory; missing directories are made. -/
def write (tree : FileTree) (path : Text) (node : Node) : FileTree :=
  let names := (Path.ofText path).parts
  let (made, here) := tree.enter tree.current names.dropLast
  match names.getLast?, node with
  | none, _ => made
  | some name, .file _ => made.put (made.landing linkLimit here name) node
  | some name, .directory => (made.enter here [name]).1
  | some name, .link _ => made.put (here ++ [name]) node

/-- Removes the node at a path below the current directory, with all that lies under it. A
link is removed itself. -/
def remove (tree : FileTree) (path : Text) : FileTree :=
  let names := (Path.ofText path).parts
  match names.getLast?, tree.unrestricted.walk linkLimit tree.current names.dropLast with
  | some name, .ok here =>
    { tree with
      nodes := ⟨tree.nodes.entries.filter fun entry => !(here ++ [name]).isPrefixOf entry.1⟩ }
  | _, _ => tree

end FileTree

end GrammarLens
