import ChunkGuard.Checksum.Sidecar
import ChunkGuard.Command.Format
import ChunkGuard.FileSystem.File
import ChunkGuard.Log.Console
import ChunkGuard.Mode.Parse
import ChunkGuard.Source.Replicas
import ChunkGuard.Stream.Operation
import ChunkGuard.Usage.Poller

/-!
# The command line tool

The tool writes the checksums of a file, prints a file while verifying it, prints the disk usage of
a directory, and prints the permissions that a mode makes. Data and sidecars are open files
throughout, read and written where they lie. `Tool.run` says what a line of arguments does to a file
tree, what it prints, and how it ends.
-/

namespace ChunkGuard.Tool

/-- The chunks that files are checked in. -/
def chunkSize : Nat := 512

/-- The name of a file's checksums after the name of the file. -/
def extension : String := ".crc"

/-- What the tool prints about itself. -/
def usage : String :=
  "Usage: verifs-tool [-v] <command> ...\n"
    ++ "  checksum [-c32c] <file>                 write checksums of <file> to <file>.crc\n"
    ++ "  cat [-noverify] [-c32c] <file> [copy...] print <file> verifying checksums\n"
    ++ "  du <path>                               print disk usage of <path>\n"
    ++ "  chmod [-dir] <mode> <octal mode>        print mode after applying <mode>\n"

/-- Why a command failed. -/
inductive Failure where
  | argument (error : ArgumentError)
  /-- A number too great. -/
  | outOfRange
  | file (error : FileError)
  | stream (error : StreamError)
  | sidecar (failure : Sidecar.Failure)
  | usage (failure : Usage.Failure)
  deriving DecidableEq, Repr

namespace Failure

/-- What the user is told. -/
def message : Failure → String
  | argument error => error.message
  | outOfRange => "stoul"
  | file error => error.message
  | stream error => error.report.message
  | sidecar failure => failure.message
  | usage failure => failure.message

/-- The exit code: 1 for errors in arguments, 2 for all others. -/
def exitCode : Failure → Nat
  | argument _ => 1
  | _ => 2

/-- What is printed on the error channel. With errors in arguments the usage is repeated. -/
def complaint (command : String) (failure : Failure) : String :=
  command ++ ": " ++ failure.message ++ "\n" ++
    match failure with
    | argument _ => Tool.usage
    | _ => ""

end Failure

/-- What a command works on: the files, the disk usage program, and what was printed and told to
the log so far. -/
structure Desk where
  tree : FileTree
  program : Usage.Program
  output : Bytes := []
  events : List Log.Event := []

/-- Work of a command. What it did stays done when it fails. -/
abbrev ToolM : Type → Type := EStateM Failure Desk

/-- Goes on with a value, or fails. -/
def orFail {ε α : Type} (failure : ε → Failure) : Except ε α → ToolM α
  | .ok a => return a
  | .error e => throw (failure e)

/-- Prints bytes. -/
def print (bytes : Bytes) : ToolM Unit := modify fun d => { d with output := d.output ++ bytes }

/-- Prints a text. -/
def printText (text : String) : ToolM Unit := print text.toUTF8.toList

/-- Opens a file. -/
def openFile (path : String) (writable : Bool) : ToolM OpenFile := do
  let (file, tree) ← orFail .file ((← get).tree.openFile path writable)
  modify fun d => { d with tree }
  return file

/-- Leaves what an open file holds in the tree, if it may be written. -/
def save (file : OpenFile) : ToolM Unit := modify fun d => { d with tree := d.tree.save file }

/-- Reads the arguments after the command's name. -/
def parse (format : Command.Format) (arguments : List String) :
    ToolM (List String × Command.Format) :=
  match Command.Format.parse arguments 1 format with
  | .ok parameters format => return (parameters, format)
  | .error e _ => throw (.argument e)

/-- Whether an option was given. -/
def isGiven (format : Command.Format) (option : String) : ToolM Bool :=
  orFail .argument (format.isGiven option)

/-- The checksums that were asked for. -/
def algorithm (format : Command.Format) : ToolM Algorithm :=
  return if ← isGiven format "c32c" then .crc32c else .crc32

/-- Writes the checksums of a file to the file beside it, which keeps what was written when that
fails. -/
def checksum (arguments : List String) : ToolM Unit := do
  let (parameters, format) ← parse ⟨"checksum", 1, 1, ["c32c"], []⟩ arguments
  let path := parameters.headD ""
  let data ← openFile path false
  let target ← openFile (path ++ extension) true
  let desk : Sidecar.Desk OpenFile :=
    { data, target, checksum := Checksum.ofAlgorithm (← algorithm format) }
  match Sidecar.write chunkSize desk with
  | .ok _ desk => save desk.target
  | .error failure desk =>
    save desk.target
    throw (.sidecar failure)

/-- The number of bytes read and printed at once. -/
def batchSize : Nat := chunksPerRead * chunkSize

/-- Prints a stream from where it is to the end. `fuel` bounds the number of batches. -/
def pump {σ : Type} (source : Source σ) : (fuel : Nat) → Session σ → ToolM (Session σ)
  | 0, s => return s
  | fuel + 1, s =>
    match Stream.read source 0 batchSize s with
    | .ok none s => return s
    | .ok (some count) s => do
      print (s.lent.take count)
      pump source fuel s
    | .error e s => do
      modify fun d => { d with events := d.events ++ s.events }
      throw (.stream e)

/-- The number of numbers of attempts, which are narrower than words. The arguments of a program are
counted in even less, so no line of them names as many copies. -/
def attemptsCount : Nat := 0x100000000

/-- Prints a file, whose copies are read where it is damaged. There are as many attempts as copies,
cut off where that is no number of attempts. -/
def cat (arguments : List String) : ToolM Unit := do
  let (parameters, format) ← parse ⟨"cat", 1, Word.count - 1, ["noverify", "c32c"], []⟩ arguments
  let replicas ← parameters.mapM fun path => do
    let data ← openFile path false
    let sums ← openFile (path ++ extension) false
    return (some data, some sums)
  let copies ← orFail .stream (Replicas.ofList? replicas chunkSize)
  let options : Options :=
    { verify := !(← isGiven format "noverify"), maxChunk := chunkSize
      attempts := replicas.length % attemptsCount, name := parameters.headD "" }
  let stream ← orFail .stream (Stream.ofOptions? (some (← algorithm format)) options)
  let session : Session (Replicas OpenFile) :=
    { stream, source := copies, lent := Bytes.zeros batchSize }
  let s ← pump Replicas.source (copies.totalSize + 1) session
  modify fun d => { d with events := d.events ++ s.events }

/-- Prints the disk usage of a directory. -/
def du (arguments : List String) : ToolM Unit := do
  let (parameters, _) ← parse ⟨"du", 1, 1, [], []⟩ arguments
  let d ← get
  let poller ← orFail .usage (Usage.Poller.ofPath d.tree d.program (parameters.headD "") 0)
  printText (poller.text ++ "\n")

/-- The number that a text starts with in octal digits, after blanks and a sign. A negative one
counts back from the end of the words. -/
def octal (text : String) : Except Failure Nat :=
  let text := text.toList.dropWhile Text.isBlank
  let negative := text.head? = some '-'
  let text := if negative ∨ text.head? = some '+' then text.tail else text
  let digits := text.takeWhile Text.isOctalDigit
  let n := digits.foldl (fun n c => 8 * n + Text.digitValue c) 0
  if digits.isEmpty then .error (.argument .noNumber)
  else if Word.count ≤ n then .error .outOfRange
  else .ok (if negative then Word.ofInt (-n) else n)

/-- Permissions in octal digits, four at least, and in letters. -/
def permissionText (p : Permissions) : String :=
  let digits := Nat.toDigits 8 p.toNat
  String.ofList (List.replicate (4 - digits.length) '0' ++ digits) ++ " " ++ p.symbols
    ++ if p.sticky then " sticky" else ""

/-- Prints what a mode makes of permissions. -/
def chmod (arguments : List String) : ToolM Unit := do
  let (parameters, format) ← parse ⟨"chmod", 2, 2, ["dir"], []⟩ arguments
  let mode ← orFail .argument (Mode.ofString (parameters.getD 0 ""))
  let existing ← orFail id (octal (parameters.getD 1 ""))
  let isDirectory ← isGiven format "dir"
  let permissions := mode.apply (Permissions.ofNat (existing % 0x10000)) isDirectory
  printText (permissionText permissions ++ "\n")

/-- The command of a name. -/
def command? : String → Option (List String → ToolM Unit)
  | "checksum" => some checksum
  | "cat" => some cat
  | "du" => some du
  | "chmod" => some chmod
  | _ => none

/-- What a run of the tool did. -/
structure Result where
  exit : Nat
  output : Bytes
  errors : String
  /-- The events that passed the level of the log. -/
  events : List Log.Event
  /-- What the console log wrote. -/
  console : String
  tree : FileTree

/-- Runs the tool on a line of arguments. A first argument that asks for it lowers the level of
the log. -/
def run (arguments : List String) (tree : FileTree) (program : Usage.Program) : Result :=
  let verbose := arguments.head? = some "-v"
  let arguments := if verbose then arguments.tail else arguments
  let console : Log.Console := { sinks := 1, level := some (if verbose then .debug else .info) }
  let finish (exit : Nat) (errors : String) (d : Desk) : Result :=
    let events := d.events.filter console.shows
    { exit, errors, events, output := d.output, console := console.writeAll events
      tree := d.tree }
  let desk : Desk := { tree, program }
  let name := arguments.headD ""
  match command? name with
  | none => finish 1 usage desk
  | some command =>
    match command arguments desk with
    | .ok _ d => finish 0 "" d
    | .error failure d => finish failure.exitCode (failure.complaint name) d

end ChunkGuard.Tool
