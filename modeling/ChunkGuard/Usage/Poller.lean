import ChunkGuard.Log
import ChunkGuard.Usage.Report

/-!
# Polling the disk usage

A poller keeps the disk usage of a directory in bytes. While it is started it refreshes the value
from time to time and keeps the failure of a refresh for the next question; while it isn't, every
question refreshes the value. In between the value can be adjusted by what is known to have been
written or removed. A step of a poller is data, so that runs are lists of steps.
-/

namespace ChunkGuard.Usage

/-- A poller of the disk usage of a directory. -/
structure Poller where
  path : String
  /-- The time between refreshes. It doesn't refresh by itself unless this is positive. -/
  interval : Int
  /-- The bytes used, as far as known. -/
  used : Int := 0
  /-- The failure of a refresh that nobody was told of. -/
  pending : Option Failure := none
  /-- Whether it refreshes by itself. -/
  started : Bool := false
  deriving DecidableEq, Repr

namespace Poller

/-- Asks the program. A failure leaves the value as it was. -/
def measure (program : Program) : EStateM Failure Poller Unit := fun p =>
  match ask program p.path with
  | .ok kilobytes => .ok () { p with used := Word.signed (kilobytes * 1024) }
  | .error e => .error e p

/-- A poller that has asked the program once. -/
def create (program : Program) (path : String) (interval : Int) : Except Failure Poller :=
  match measure program { path, interval } with
  | .ok _ p => .ok p
  | .error e _ => .error e

/-- A poller of the directory that a path leads to. -/
def ofPath (tree : FileTree) (program : Program) (path : String) (interval : Int) :
    Except Failure Poller :=
  match tree.canonical path with
  | .ok place => create program (FileTree.pathOf place) interval
  | .error cause => .error (.noPlace path cause)

/-- Starts to refresh. -/
def start (p : Poller) : Poller := { p with started := p.started || 0 < p.interval }

/-- Stops to refresh. -/
def shutdown (p : Poller) : Poller := { p with started := false }

/-- The bytes used. A started poller tells the failure that it kept, once. -/
def ask (program : Program) : EStateM Failure Poller Int := do
  let p ← get
  if p.started then
    match p.pending with
    | some failure =>
      set { p with pending := none }
      throw failure
    | none => return p.used
  else
    measure program
    return (← get).used

/-- Adjusts the value. -/
def adjust (n : Int) (p : Poller) : Poller := { p with used := Word.signed (p.used + n) }

/-- What a started poller does from time to time, and what it tells the log. -/
def refresh (program : Program) (p : Poller) : List Log.Event × Poller :=
  if p.started then
    match measure program p with
    | .ok _ p => ([], p)
    | .error e p => ([.usageUnknown p.path e.message], { p with pending := some e })
  else ([], p)

/-- The value as text, in the form that the program prints it, under the command. -/
def text (p : Poller) : String :=
  "du -sk " ++ p.path ++ "\n" ++ Text.decimal p.used ++ "\t" ++ p.path

/-- What can happen to a poller. -/
inductive Step where
  | start
  | shutdown
  | ask (program : Program)
  | increase (n : Int)
  | decrease (n : Int)
  | refresh (program : Program)

/-- The poller after a step, and the answer if the step was a question. -/
def Step.perform : Step → Poller → Option (Except Failure Int) × Poller
  | start, p => (none, p.start)
  | shutdown, p => (none, p.shutdown)
  | ask program, p =>
    match Poller.ask program p with
    | .ok n p => (some (.ok n), p)
    | .error e p => (some (.error e), p)
  | increase n, p => (none, p.adjust n)
  | decrease n, p => (none, p.adjust (-n))
  | refresh program, p => (none, (p.refresh program).2)

end Poller

end ChunkGuard.Usage
