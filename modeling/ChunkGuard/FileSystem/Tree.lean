import ChunkGuard.FileSystem.Content
import ChunkGuard.Word

/-!
# File trees

A file tree holds files, directories and symbolic links, each at its place: the names on the way
from the root. `FileTree.walk` follows a path the way the system does, through links and upward
steps, and ends at a place where something is, or at one where only the last name is missing, so
that a file can be made there.
-/

namespace ChunkGuard

/-- The names on the way from the root. -/
abbrev Place := List String

/-- What is at a place. -/
inductive Node where
  | file (content : Content)
  | directory
  | link (target : String)
  deriving DecidableEq, Repr

/-- Why the system refuses what is asked of a path. -/
inductive PathError where
  | empty
  | missing
  | notDirectory
  | tooManyLinks
  /-- A name on the way or the whole path has too many bytes. -/
  | nameTooLong
  /-- The file would have too many bytes. -/
  | tooLarge
  deriving DecidableEq, Repr

/-- The system's words for it. -/
def PathError.text : PathError → String
  | empty => "Invalid argument"
  | missing => "No such file or directory"
  | notDirectory => "Not a directory"
  | tooManyLinks => "Too many levels of symbolic links"
  | nameTooLong => "File name too long"
  | tooLarge => "File too large"

/-- Whether it tells that nothing is at the path. -/
def PathError.isAbsence : PathError → Bool
  | missing => true
  | notDirectory => true
  | _ => false

/-- What the system says of a path that it couldn't do something with. -/
def PathError.complaint (cause : PathError) (action path : String) : String :=
  "filesystem error: " ++ action ++ ": " ++ cause.text ++ " [" ++ path ++ "]"

/-- Where a path ends. -/
inductive Destination where
  /-- Something is here. -/
  | found (place : Place)
  /-- Nothing is here, but the directory exists. -/
  | free (place : Place)
  deriving DecidableEq, Repr

/-- Files, directories and links by their places. -/
structure FileTree where
  nodes : List (Place × Node)
  /-- The place that relative paths start at. -/
  current : Place
  /-- The greatest offset in a file. Systems differ in it, but it is never beyond the signed
  words. -/
  offsetLimit : Nat := Word.half - 1
  deriving DecidableEq, Repr

namespace FileTree

/-- What is at a place. The root is a directory. -/
def node? (t : FileTree) (place : Place) : Option Node :=
  if place = [] then some .directory else t.nodes.lookup place

/-- Whether a directory is at a place. -/
def isDirectory (t : FileTree) (place : Place) : Bool := t.node? place == some .directory

/-- The bytes of the file at a place. -/
def bytes? (t : FileTree) (place : Place) : Option Bytes :=
  match t.node? place with
  | some (.file content) => some (Content.toBytes content)
  | _ => none

/-- Puts a node at a place. -/
def put (place : Place) (node : Node) (t : FileTree) : FileTree :=
  { t with nodes := (place, node) :: t.nodes.filter (·.1 ≠ place) }

/-- The names in a path. Where a slash stands first or last or beside another one, there is an
empty name. -/
def names (path : String) : List String :=
  (path.toList.splitOn '/').map String.ofList

/-- Whether a path starts at the root. -/
def isAbsolute (path : String) : Bool := path.toList.head? = some '/'

/-- The path of a place. -/
def pathOf (place : Place) : String :=
  if place.isEmpty then "/" else String.join (place.map ("/" ++ ·))

/-- The path as a path from the root. -/
def absolute (t : FileTree) (path : String) : String :=
  if isAbsolute path then path
  else if t.current.isEmpty then "/" ++ path
  else pathOf t.current ++ "/" ++ path

/-- How many links may be followed on the way. -/
def linkLimit : Nat := 40

/-- How many bytes a name may have. -/
def nameLimit : Nat := 255

/-- How many bytes a path may have that something is opened by. -/
def pathLimit : Nat := 4095

/-- Follows names from a place. `links` is how many links may still be followed. -/
def walkFrom (t : FileTree) (links : Nat) (place : Place) :
    List String → Except PathError Destination
  | [] => .ok (.found place)
  | name :: rest =>
    if !t.isDirectory place then .error .notDirectory
    else if name = "" ∨ name = "." then walkFrom t links place rest
    else if name = ".." then walkFrom t links place.dropLast rest
    else if nameLimit < name.utf8ByteSize then .error .nameTooLong
    else
      match t.node? (place ++ [name]) with
      | none => if rest.isEmpty then .ok (.free (place ++ [name])) else .error .missing
      | some (.link target) =>
        if links = 0 then .error .tooManyLinks
        else
          walkFrom t (links - 1) (if isAbsolute target then [] else place) (names target ++ rest)
      | some _ => walkFrom t links (place ++ [name]) rest
termination_by rest => (links, rest.length)

/-- Follows a path. -/
def walk (t : FileTree) (path : String) : Except PathError Destination :=
  if path.isEmpty then .error .empty
  else walkFrom t linkLimit (if isAbsolute path then [] else t.current) (names path)

/-- Follows a path in one request to the system, which refuses long ones. -/
def resolve (t : FileTree) (path : String) : Except PathError Destination :=
  if pathLimit < (t.absolute path).utf8ByteSize then .error .nameTooLong else t.walk path

/-- The place of what a path leads to, found name by name, so the path may be long. -/
def canonical (t : FileTree) (path : String) : Except PathError Place := do
  match ← t.walk path with
  | .found place => return place
  | .free _ => throw .missing

end FileTree

end ChunkGuard
