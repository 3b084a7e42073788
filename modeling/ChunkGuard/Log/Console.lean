import ChunkGuard.Log

/-!
# The console log

The console log drops the events below a level and writes each of the others once for every time
it was set up. Before a level is set nothing is dropped.
-/

namespace ChunkGuard.Log

/-- How often the console log was set up, and the least severity it shows. -/
structure Console where
  sinks : Nat := 0
  level : Option Severity := none
  deriving DecidableEq, Repr

namespace Console

/-- Sets the console log up once more. -/
def addSink (c : Console) : Console := { c with sinks := c.sinks + 1 }

/-- Sets the least severity that is shown. -/
def setLevel (level : Severity) (c : Console) : Console := { c with level := some level }

/-- Whether an event passes the level. -/
def shows (c : Console) (event : Event) : Bool :=
  c.level.all fun level => level.rank ≤ event.severity.rank

/-- One line for an event. -/
def line (event : Event) : String := "[" ++ event.severity.name ++ "] " ++ event.text ++ "\n"

/-- What is written for one event. -/
def write (c : Console) (event : Event) : String :=
  if c.shows event then String.join (List.replicate c.sinks (line event)) else ""

/-- What is written for events in their order. -/
def writeAll (c : Console) (events : List Event) : String := String.join (events.map c.write)

end Console

end ChunkGuard.Log
