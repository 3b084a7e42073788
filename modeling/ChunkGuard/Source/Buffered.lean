import ChunkGuard.Focus
import ChunkGuard.Source

/-!
# Reading into buffers

A caller that reads from a source lends it a buffer for data and, where checksums are wanted, one for
these. What comes lies over the starts of the buffers. An answer without data and an error leave the
buffers alone.
-/

namespace ChunkGuard

/-- A source's state with the buffers that a caller lends. Without a buffer for checksums none are
asked for. -/
structure Lending (σ : Type) where
  source : σ
  data : Bytes
  sums : Option Bytes
  deriving DecidableEq, Repr

variable {σ : Type}

/-- What is asked of the source. -/
def Lending.request (l : Lending σ) (position : Int) (size capacity : Nat) : Request :=
  ⟨position, size, l.sums.map fun _ => capacity⟩

/-- The buffers with an answer over their starts. -/
def Lending.filled (l : Lending σ) : Reply → Lending σ
  | .chunk data sums =>
    { l with data := Bytes.write 0 data l.data, sums := l.sums.map (Bytes.write 0 sums) }
  | .ended _ => l

/-- Reads from a position on into the buffers, at most `size` bytes of data and `capacity` bytes of
checksums, and gives the answer as a number. -/
def Source.readInto (source : Source σ) (position : Int) (size capacity : Nat) :
    EStateM StreamError (Lending σ) Int := do
  let l ← get
  let reply ← focus Lending.source (fun state l => { l with source := state })
    (source.read (l.request position size capacity))
  modify (·.filled reply)
  return reply.count

namespace Source

variable {source : Source σ} {position : Int} {size capacity : Nat} {l : Lending σ} {state : σ}

theorem readInto_eq_ok {reply : Reply}
    (h : source.read (l.request position size capacity) l.source = .ok reply state) :
    source.readInto position size capacity l =
      .ok reply.count (Lending.filled { l with source := state } reply) := by
  show EStateM.bind (focus _ _ _) _ l = _
  simp only [EStateM.bind, focus, h]
  rfl

theorem readInto_eq_error {e : StreamError}
    (h : source.read (l.request position size capacity) l.source = .error e state) :
    source.readInto position size capacity l = .error e { l with source := state } := by
  show EStateM.bind (focus _ _ _) _ l = _
  simp only [EStateM.bind, focus, h]

end Source

end ChunkGuard
