import ChunkGuard.Error

/-!
# Slots for errors

A slot holds an error report. A report can be copied to another slot, or moved to it, which leaves
its own slot without one until another is put there.
-/

namespace ChunkGuard

/-- A place for a report. -/
inductive ErrorSlot where
  /-- Nothing was ever put here. -/
  | unused
  /-- What was here was moved away. -/
  | moved
  | holds (report : ErrorReport)
  deriving DecidableEq, Repr

/-- A row of slots. -/
abbrev ErrorSlots := List ErrorSlot

namespace ErrorSlots

/-- A row of slots never used. -/
def unused (n : Nat) : ErrorSlots := List.replicate n .unused

/-- The slot at an index. -/
def slotAt (slots : ErrorSlots) (index : Nat) : ErrorSlot := slots.getD index .unused

/-- Puts a report into a slot. -/
def put (index : Nat) (report : ErrorReport) (slots : ErrorSlots) : ErrorSlots :=
  slots.set index (.holds report)

/-- Copies what is in the slot `src` to the slot `dst`. -/
def copy (dst src : Nat) (slots : ErrorSlots) : ErrorSlots := slots.set dst (slots.slotAt src)

/-- Moves what is in the slot `src` to the slot `dst`. A move to the same slot loses it. -/
def move (dst src : Nat) (slots : ErrorSlots) : ErrorSlots :=
  (slots.set dst (slots.slotAt src)).set src .moved

end ErrorSlots

end ChunkGuard
