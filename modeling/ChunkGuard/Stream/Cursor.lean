import ChunkGuard.Stream.Operation

/-!
# Cursors

A cursor is what a stream comes to when nothing is damaged: bytes and a position among them. It
has no window, no chunks of its own and no checksums. `Cursor.perform` says what each operation
gives and where it leaves the cursor, as long as verification isn't turned on or off in between
and positioned reads are at positions that aren't negative.
-/

namespace ChunkGuard

/-- Bytes and a position among them or after them. -/
structure Cursor where
  data : Bytes
  /-- The size of the chunks that the source of the bytes aligns positions to. -/
  chunk : Nat
  position : Nat := 0
  /-- How many other copies of the bytes are left to switch to. -/
  copies : Nat := 0
  /-- Whether there is a checksum, so that verification can be turned on. -/
  verifiable : Bool := false
  /-- The buffer that the caller of a read lent. -/
  lent : Bytes := []
  deriving DecidableEq, Repr

namespace Cursor

/-- Goes to a position. Past the end of the bytes it goes to the start of the position's chunk, if
that is past the end as well, and otherwise to the end. -/
def goTo (position : Nat) (c : Cursor) : Cursor :=
  if position ≤ c.data.length then { c with position }
  else { c with position := max c.data.length (position - position % c.chunk) }

/-- Lends a buffer. -/
def lend (lent : Bytes) : EStateM StreamError Cursor Unit := modify fun c => { c with lent }

/-- Copies the bytes from a position on to a range of the lent buffer, as far as there are bytes,
and gives their number. -/
def copy (position offset size : Nat) : EStateM StreamError Cursor Nat := do
  let c ← get
  if c.lent.length < offset ∨ c.lent.length - offset < size then throw .outsideBuffer
  let bytes := Bytes.slice position size c.data
  set { c with lent := Bytes.write offset bytes c.lent }
  return bytes.length

/-- What a read of `size` bytes answers that got `count` of them. -/
def answer (size count : Nat) : Outcome :=
  .count (if count = 0 ∧ size ≠ 0 then -1 else count)

/-- The answer to a read of `size` bytes that has to be complete and got `count` of them. -/
def complete (size count : Nat) : EStateM StreamError Cursor Outcome :=
  if count < size then throw .prematureEnd else return .nothing

/-- Where a positioned read begins. A negative position stands for the cursor's own. -/
def target (c : Cursor) (position : Int) : Nat :=
  if position < 0 then c.position else position.toNat

/-- Carries out an operation. -/
def perform : Operation → EStateM StreamError Cursor Outcome
  | .readByte => do
    let c ← get
    let byte := c.data[c.position]?
    if byte.isSome then set { c with position := c.position + 1 }
    return .byte byte
  | .read buffer offset size => do
    lend buffer
    let count ← copy (← get).position offset size
    modify fun c => { c with position := c.position + count }
    return answer size count
  | .readFully buffer offset size => do
    lend buffer
    if size = 0 then return .nothing
    let count ← copy (← get).position offset size
    modify fun c => { c with position := c.position + count }
    complete size count
  | .readAt position buffer offset size => do
    lend buffer
    return answer size (← copy ((← get).target position) offset size)
  | .readFullyAt position buffer offset size => do
    lend buffer
    if size = 0 then return .nothing
    complete size (← copy ((← get).target position) offset size)
  | .seek position => do
    if 0 ≤ position then modify (goTo position.toNat)
    return .nothing
  | .skip count => do
    if count ≤ 0 then return .count 0
    modify fun c => c.goTo (min (c.position + count) Word.maxSigned).toNat
    return .count count
  | .switch _ => do
    let c ← get
    set { c with copies := c.copies - 1 }
    return .flag (c.copies ≠ 0)
  | .setVerify verify => return .flag (verify && (← get).verifiable)
  | .mark _ => throw .markUnsupported
  | .reset => throw .markUnsupported

end Cursor

end ChunkGuard
