import ChunkGuard.Bytes
import ChunkGuard.Text

/-!
# Log records

An event is what the library tells its log. Every event has a severity and a text, and each text
starts with the tag of the library.
-/

namespace ChunkGuard.Log

/-- How serious a record is, from the least to the most. -/
inductive Severity where
  | trace
  | debug
  | info
  | warning
  | error
  | fatal
  deriving DecidableEq, Repr

/-- The place of a severity in their order. -/
def Severity.rank : Severity → Nat
  | trace => 0
  | debug => 1
  | info => 2
  | warning => 3
  | error => 4
  | fatal => 5

/-- The name of a severity. -/
def Severity.name : Severity → String
  | trace => "trace"
  | debug => "debug"
  | info => "info"
  | warning => "warning"
  | error => "error"
  | fatal => "fatal"

/-- What is told to the log. -/
inductive Event where
  /-- Bytes that a source gave for a range failed their checksums. -/
  | corrupted (source : String) (start stop : Int) (bytes : Bytes)
  /-- A stream goes on with another copy. -/
  | switched (source : String) (position : Int) (attemptsLeft : Nat)
  /-- A replica is given up for another one. -/
  | replicaFailed (replica : Nat) (position : Int) (next : Nat)
  /-- A replica failed and there is no other. -/
  | noReplicaLeft (position : Int)
  /-- The disk usage of a directory couldn't be found out. -/
  | usageUnknown (path reason : String)
  /-- Any other text. -/
  | note (severity : Severity) (text : String)
  deriving DecidableEq, Repr

/-- The most bytes that a record shows. -/
def dumpLimit : Nat := 64

/-- The first bytes of a string in hexadecimal digits, with dots if there are more. -/
def dump (bytes : Bytes) : String :=
  Bytes.hex (bytes.take dumpLimit) ++ if bytes.length > dumpLimit then "..." else ""

/-- What all texts start with. -/
def tag : String := "verifs: "

namespace Event

/-- How serious an event is. -/
def severity : Event → Severity
  | corrupted .. => .info
  | switched .. => .warning
  | replicaFailed .. => .info
  | noReplicaLeft .. => .warning
  | usageUnknown .. => .warning
  | note severity _ => severity

/-- The text of an event after the tag. -/
def message : Event → String
  | corrupted source start stop bytes =>
    "Found checksum error in " ++ source ++ ": b[" ++ Text.decimal start ++ ", "
      ++ Text.decimal stop ++ "]=" ++ dump bytes
  | switched source position attemptsLeft =>
    "Switched " ++ source ++ " to another source at " ++ Text.decimal position ++ ", "
      ++ Nat.repr attemptsLeft ++ " attempts left"
  | replicaFailed replica position next =>
    "Replica " ++ Nat.repr replica ++ " failed at " ++ Text.decimal position
      ++ ", switching to replica " ++ Nat.repr next
  | noReplicaLeft position =>
    "No more replicas to read position " ++ Text.decimal position ++ " from"
  | usageUnknown path reason =>
    "Could not get disk usage information for " ++ path ++ ": " ++ reason
  | note _ text => text

/-- The text of an event. -/
def text (event : Event) : String := tag ++ event.message

end Event

end ChunkGuard.Log
