import ChunkGuard.Source

/-!
# Recorded sources

A recorded source does what its source does and keeps a history of the calls, each with the state
that the source was in before it.
-/

namespace ChunkGuard

/-- A call to a source. -/
inductive Call (σ : Type) where
  /-- A request and what came of it. -/
  | read (before : σ) (request : Request) (outcome : Except StreamError Reply)
  /-- A look for another copy, and if there was one. -/
  | switch (before : σ) (position : Int) (found : Bool)

/-- A state together with the calls made so far, the first one first. -/
structure Recorded (σ : Type) where
  state : σ
  calls : List (Call σ) := []

namespace Recorded

variable {σ : Type}

/-- Adds a call and goes on from a state. -/
def push (r : Recorded σ) (call : Call σ) (state : σ) : Recorded σ := ⟨state, r.calls ++ [call]⟩

end Recorded

namespace Source

variable {σ : Type}

/-- The source with a history of its calls. -/
def recorded (source : Source σ) : Source (Recorded σ) where
  read request r :=
    match source.read request r.state with
    | .ok reply state => .ok reply (r.push (.read r.state request (.ok reply)) state)
    | .error e state => .error e (r.push (.read r.state request (.error e)) state)
  start r := source.start r.state
  switch position r :=
    let (answer, state) := source.switch position r.state
    (answer, r.push (.switch r.state position answer.1) state)

end Source

end ChunkGuard
