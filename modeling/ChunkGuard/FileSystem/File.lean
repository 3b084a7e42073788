import ChunkGuard.Error
import ChunkGuard.FileSystem.Tree
import ChunkGuard.Storage

/-!
# Open files

An open file is read and written at any offset that the system allows. It keeps the size that it
takes the file to have, which is greater than the number of bytes after an empty write past the
end. Reading bytes that are missing then fails, as does writing at an offset that isn't allowed. A
file that failed refuses to be read and drops what is written to it, though its size still grows,
until cutting it off opens it anew.

A directory can be opened for reading, too. It seems to have no end, and none of it can be read.

Open files are storages. What goes wrong with them apart from errors of streams is handed on by those
who use them as such, with its message.
-/

namespace ChunkGuard

/-- What can go wrong with files. -/
inductive FileError where
  | stream (error : StreamError)
  /-- The system refused to read or write. -/
  | device
  /-- A directory was read, by the function of the system's library that is named. -/
  | directory (function : String)
  /-- What the system was asked to do with a path, and why it couldn't. -/
  | path (action name : String) (cause : PathError)
  /-- No file is open. -/
  | closed
  deriving DecidableEq, Repr

/-- What a caller is told of an error. -/
def FileError.message : FileError → String
  | stream error => error.report.message
  | device => "basic_ios::clear: iostream error"
  | directory function =>
    "basic_filebuf::" ++ function ++ " error reading the file: Is a directory"
  | path action name cause => cause.complaint action name
  | closed => "no file is open"

/-- The error as users of storages have it. They look at nothing but its message unless it is one of
streams. -/
def FileError.toStream : FileError → StreamError
  | stream error => error
  | other => .reported (.ofText .unsupportedOperation other.message)

/-- How well an open file works. -/
inductive Health where
  /-- It reads and writes. -/
  | sound
  /-- It failed once. -/
  | failed
  /-- It failed, and the system closed it and wouldn't open it anew. -/
  | closed
  deriving DecidableEq, Repr

/-- A file that is open. -/
structure OpenFile where
  /-- The path from the root, as it is named in messages. -/
  path : String
  place : Place
  content : Content
  size : Nat
  writable : Bool
  /-- The greatest offset in the file. -/
  offsetLimit : Nat
  health : Health := .sound
  /-- It is a directory, which holds no bytes. -/
  isDirectory : Bool := false
  deriving DecidableEq, Repr

namespace OpenFile

/-- The bytes that the file holds. -/
def bytes (f : OpenFile) : Bytes := Content.toBytes f.content

/-- The size that directories seem to have. -/
def directorySize : Nat := Word.half - 1

/-- The room of the buffer that bytes are read through. Longer reads go past it. -/
def bufferRoom : Nat := 8191

/-- Reads `size` bytes at an offset. All of them have to be before the end. -/
def read (offset size : Nat) : EStateM FileError OpenFile Bytes := fun f =>
  if f.size < offset ∨ f.size - offset < size then .error (.stream (.pastEnd (.file f.path))) f
  else if f.health ≠ .sound then .error .device f
  else if size ≠ 0 ∧ f.isDirectory then
    .error (.directory (if bufferRoom < size then "xsgetn" else "underflow"))
      { f with health := .failed }
  else if size ≠ 0 ∧ Content.size f.content < offset + size then
    .error .device { f with health := .failed }
  else .ok (Content.slice offset size f.content) f

/-- Lays bytes over the file at an offset. A gap before them is filled with zeros; without any
bytes only the size grows. So it does in a file that failed, up to where the bytes would end, which
is a word. -/
def write (offset : Nat) (src : Bytes) : EStateM FileError OpenFile Unit := fun f =>
  if !f.writable then .error .device f
  else if f.health ≠ .sound then
    .ok () { f with size := max f.size ((offset + src.length) % Word.count) }
  else if f.offsetLimit < offset then .error .device { f with health := .failed }
  else
    .ok ()
      { f with
        content := if src.isEmpty then f.content else Content.write offset src f.content
        size := max f.size (offset + src.length) }

/-- Makes the file have a size. It grows by writing its last byte. When it is cut off it is opened
anew; a size that it can't have leaves it closed. -/
def resize (n : Nat) : EStateM FileError OpenFile Unit := fun f =>
  if !f.writable then .error .device f
  else if f.size < n then write (n - 1) [0] f
  else if f.size = n then .ok () f
  else if f.health = .closed then .error .device f
  else if f.offsetLimit < n then
    .error (.path "cannot resize file" f.path .tooLarge) { f with health := .closed }
  else .ok () { f with content := Content.resize n f.content, size := n, health := .sound }

instance : Storing OpenFile where
  empty := { path := "", place := [], content := [], size := 0, writable := false, offsetLimit := 0 }
  size := size
  read offset size := (read offset size).adaptExcept FileError.toStream
  write offset src := (write offset src).adaptExcept FileError.toStream
  resize n := (resize n).adaptExcept FileError.toStream

end OpenFile

/-- A file tree with at most one open file. -/
structure FileDesk where
  tree : FileTree
  opened : Option OpenFile := none
  deriving DecidableEq, Repr

namespace FileTree

/-- Opens the file at the end of a path for reading, or for writing too, which makes the file if
only its name is missing. Before a file is opened for writing the system is asked if it is there,
and it is an error of its own if the system can't say. -/
def openFile (t : FileTree) (path : String) (writable : Bool) :
    Except FileError (OpenFile × FileTree) :=
  let absolute := t.absolute path
  let unopened := .error (.stream (.unopened absolute))
  let opened (place : Place) (content : Content) (size : Nat) : OpenFile :=
    { path := absolute, place, content, size, writable, offsetLimit := t.offsetLimit }
  match t.resolve path with
  | .error .empty => .error (.path "cannot make absolute path" path .empty)
  | .error cause =>
    if writable ∧ !cause.isAbsence then .error (.path "status" absolute cause) else unopened
  | .ok (.free place) =>
    if writable then .ok (opened place [] 0, t.put place (.file [])) else unopened
  | .ok (.found place) =>
    match t.node? place with
    | some (.file content) => .ok (opened place content (Content.size content), t)
    | some .directory =>
      if writable then unopened
      else .ok ({ opened place [] OpenFile.directorySize with isDirectory := true }, t)
    | _ => unopened

/-- Puts what an open file holds into the tree, if it may be written. -/
def save (t : FileTree) (f : OpenFile) : FileTree :=
  if f.writable then t.put f.place (.file f.content) else t

end FileTree

namespace FileDesk

/-- Closes the open file, if there is one. -/
def close : EStateM FileError FileDesk Unit := modify fun d => { d with opened := none }

/-- Closes the open file and opens the one at a path. -/
def openFile (path : String) (writable : Bool) : EStateM FileError FileDesk Unit := do
  close
  match (← get).tree.openFile path writable with
  | .error e => throw e
  | .ok (f, tree) => set ({ tree, opened := some f } : FileDesk)

/-- Works on the open file. What it does to the content is in the tree afterwards. -/
def onFile {α : Type} (m : EStateM FileError OpenFile α) : EStateM FileError FileDesk α := fun d =>
  match d.opened with
  | none => .error .closed d
  | some f =>
    match m f with
    | .ok a f => .ok a { tree := d.tree.save f, opened := some f }
    | .error e f => .error e { tree := d.tree.save f, opened := some f }

end FileDesk

end ChunkGuard
