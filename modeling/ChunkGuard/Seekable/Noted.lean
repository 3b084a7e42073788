import ChunkGuard.Seekable

/-!
# Noted streams

A noted stream does what its stream does and keeps a history of the seeks and reads that were asked of
it, each with what came of it.
-/

namespace ChunkGuard.Seekable

variable {τ : Type}

/-- A seek or a read, and what came of it. -/
inductive Exchange where
  | seek (position : Int) (outcome : Except StreamError Unit)
  | read (offset size : Nat) (outcome : Except StreamError Int)

/-- Whether the exchange is a read. -/
def Exchange.isRead : Exchange → Bool
  | seek .. => false
  | read .. => true

/-- A state together with the exchanges so far, the first one first. -/
structure Noted (τ : Type) where
  state : τ
  exchanges : List Exchange := []

/-- The reads among the exchanges. -/
def Noted.reads (t : Noted τ) : List Exchange := t.exchanges.filter Exchange.isRead

/-- The stream with a history of its exchanges. -/
def noted (s : Seekable τ) : Seekable (Noted τ) where
  seek position t :=
    match s.seek position t.state with
    | .ok () u => .ok () ⟨u, t.exchanges ++ [.seek position (.ok ())]⟩
    | .error e u => .error e ⟨u, t.exchanges ++ [.seek position (.error e)]⟩
  position t := s.position t.state
  read offset size t :=
    match s.read offset size t.state with
    | .ok count u => .ok count ⟨u, t.exchanges ++ [.read offset size (.ok count)]⟩
    | .error e u => .error e ⟨u, t.exchanges ++ [.read offset size (.error e)]⟩
  buffer t := s.buffer t.state

end ChunkGuard.Seekable
