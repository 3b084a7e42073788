import ChunkGuard.FileSystem.Tree
import ChunkGuard.Text
import ChunkGuard.Word

/-!
# What a disk usage program reports

The program is asked about a path, and answers by what it prints and by its exit code. The first
line printed starts with a number of kilobytes, which ends at the first tab. The number is decimal,
may have a sign, and has to be a signed word; nothing else may stand beside it.
-/

namespace ChunkGuard.Usage

/-- What a program printed, and its exit code. -/
structure Report where
  output : String
  exit : Nat
  deriving DecidableEq, Repr

/-- The disk usage program, if there is one: what it reports about a path. -/
abbrev Program := Option (String → Report)

/-- Why the disk usage couldn't be found out. -/
inductive Failure where
  /-- The path leads nowhere. -/
  | noPlace (path : String) (cause : PathError)
  /-- There is no program. -/
  | noProgram
  /-- The program gave up. -/
  | exit (path : String) (code : Nat)
  /-- The program printed nothing. -/
  | noLine
  /-- The first line doesn't start with a number. -/
  | illegal (line : String)
  deriving DecidableEq, Repr

/-- What a caller is told of a failure. It ends before the first NUL. -/
def Failure.message : Failure → String
  | noPlace path cause => cause.complaint "cannot make canonical path" path
  | noProgram => "Can't find \"du\" utility"
  | exit path code =>
    Text.untilNul ("\"du -sk " ++ path ++ "\" failed with exit code " ++ Nat.repr code)
  | noLine => "Expecting a line not the end of stream"
  | illegal line => Text.untilNul ("Illegal du output: " ++ line)

/-- The number that decimal digits are. There has to be one at least. -/
def digits? (text : List Char) : Option Nat :=
  if !text.isEmpty && text.all Char.isDigit then
    some (text.foldl (fun n c => 10 * n + Text.digitValue c) 0)
  else none

/-- The signed word that a text is. -/
def word? (text : List Char) : Option Int := do
  let n ←
    match text with
    | '-' :: rest => (digits? rest).map fun n => -(n : Int)
    | '+' :: rest => (digits? rest).map Int.ofNat
    | rest => (digits? rest).map Int.ofNat
  if Word.IsSigned n then some n else none

/-- The first line of some output. -/
def firstLine (output : String) : List Char := output.toList.takeWhile (· ≠ '\n')

/-- The kilobytes that a line starts with. -/
def kilobytes? (line : List Char) : Option Int := word? (line.takeWhile (· ≠ '\t'))

/-- The kilobytes that a report tells of a path. -/
def Report.kilobytes (r : Report) (path : String) : Except Failure Int :=
  if r.exit ≠ 0 then .error (.exit path r.exit)
  else if r.output.isEmpty then .error .noLine
  else
    let line := firstLine r.output
    (kilobytes? line).elim (.error (.illegal (String.ofList line))) .ok

/-- Asks the program about a path. -/
def ask (program : Program) (path : String) : Except Failure Int :=
  match program with
  | none => .error .noProgram
  | some report => (report path).kilobytes path

end ChunkGuard.Usage
