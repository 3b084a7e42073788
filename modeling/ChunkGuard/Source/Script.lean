import ChunkGuard.Source

/-!
# Scripted sources

A source that answers from a script, whatever it is asked: each request takes the next answer of
one list, and each look for another copy the next answer of another. When the answers run out,
the data has ended and there is no other copy.
-/

namespace ChunkGuard

/-- One answer of a script. -/
inductive ScriptedReply where
  /-- An error. -/
  | fails (error : StreamError)
  /-- The end of the data, told by a number that is so many below zero. -/
  | ended (below : Nat)
  /-- Data and checksums, of which as much is given as was asked for. -/
  | gives (data sums : Bytes)
  deriving DecidableEq, Repr

/-- The answers still to be given, and how positions are aligned: to multiples of `align`, plus
`shift`. -/
structure Script where
  align : Nat
  shift : Int := 0
  replies : List ScriptedReply
  switches : List Bool
  deriving DecidableEq, Repr

namespace Script

/-- Answers a request by the next answer. -/
def read (request : Request) : EStateM StreamError Script Reply := fun s =>
  match s.replies with
  | [] => .ok (.ended 1) s
  | reply :: rest =>
    let s := { s with replies := rest }
    match reply with
    | .fails e => .error e s
    | .ended below => .ok (.ended below) s
    | .gives data sums =>
      .ok (.chunk (data.take request.size) (sums.take (request.capacity.getD 0))) s

/-- The multiple of the alignment next to a position towards zero, shifted. -/
def start (s : Script) (position : Int) : Int := position - position.tmod s.align + s.shift

/-- Answers whether there is another copy by the next answer. -/
def switch (_ : Int) (s : Script) : (Bool × List Log.Event) × Script :=
  match s.switches with
  | [] => ((false, []), s)
  | found :: rest => ((found, []), { s with switches := rest })

/-- The source that answers from scripts. -/
def source : Source Script := ⟨read, start, switch⟩

theorem bounded_source : source.Bounded := by
  intro request before data sums after h
  simp only [source, read] at h
  split at h
  · cases h
  · split at h <;> cases h
    exact ⟨List.length_take_le _ _, List.length_take_le _ _⟩

end Script

end ChunkGuard
