import ChunkGuard.Error
import ChunkGuard.Log

/-!
# Sources of chunks

A source hands out data from a position on, together with the stored checksums of its chunks when
they are asked for. It knows where the chunk of a position starts, and may be told that the data
it gave is damaged, upon which it looks for another copy.

A source is a record of three functions over a state of its own, so that statements can be made
about every source. `Source.Bounded` and `Source.Aligning` are what a source promises.
-/

namespace ChunkGuard

/-- What is asked of a source: data from a position on, at most `size` bytes of it, and, if there
is room for them, at most `capacity` bytes of checksums. -/
structure Request where
  position : Int
  size : Nat
  capacity : Option Nat
  deriving DecidableEq, Repr

/-- What a source answers. -/
inductive Reply where
  /-- Bytes of data and of checksums. No bytes of data at all mean that the data has ended. -/
  | chunk (data sums : Bytes)
  /-- The data has ended, told by zero or a negative number, which is so many below zero. -/
  | ended (below : Nat)
  deriving DecidableEq, Repr

/-- The answer as a number: the bytes of data given, or that of the end. -/
def Reply.count : Reply → Int
  | chunk data _ => data.length
  | ended below => -below

/-- A source of chunks with states in `σ`. Only its reads can fail: telling where a chunk starts leaves
the source as it is, and looking for another copy has an answer in any case. So statements about every
source are about those whose chunks and copies are told without errors. -/
structure Source (σ : Type) where
  /-- Answers a request. -/
  read : Request → EStateM StreamError σ Reply
  /-- The start of the chunk that holds a position. -/
  start : σ → Int → Int
  /-- Looks for another copy of the data at a position, and says if there was one. -/
  switch : Int → σ → (Bool × List Log.Event) × σ

namespace Source

variable {σ : Type}

/-- The source never gives more data or more checksums than was asked for. -/
def Bounded (source : Source σ) : Prop :=
  ∀ request before data sums after, source.read request before = .ok (.chunk data sums) after →
    data.length ≤ request.size ∧ sums.length ≤ request.capacity.getD 0

/-- The chunk of a position starts at or before it and is its own chunk's start. -/
def Aligning (source : Source σ) : Prop :=
  ∀ state position, 0 ≤ position → 0 ≤ source.start state position ∧
    source.start state position ≤ position ∧
    source.start state (source.start state position) = source.start state position

end Source

end ChunkGuard
