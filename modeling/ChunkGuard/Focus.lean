/-!
# Steps on a part of a state

A computation that changes one part of a larger state, such as one storage among the replicas of a
source. What it changed stays changed when it fails.
-/

namespace ChunkGuard

/-- Runs a computation on the part of the state that `part` shows and `update` replaces. -/
def focus {ε σ τ α : Type} (part : σ → τ) (update : τ → σ → σ) (m : EStateM ε τ α) :
    EStateM ε σ α := fun s =>
  match m (part s) with
  | .ok a t => .ok a (update t s)
  | .error e t => .error e (update t s)

end ChunkGuard
