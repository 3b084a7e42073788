import ChunkGuard.Access

/-!
# Permission bits and changes to them

The permissions of a file are the rights of its user, of its group and of others, and the sticky
bit. A mode says for each of them how it changes: rights are added, removed or assigned.
-/

namespace ChunkGuard

/-- The permissions of a file. -/
structure Permissions where
  sticky : Bool
  user : Access
  group : Access
  others : Access
  deriving DecidableEq, Repr

namespace Permissions

/-- The permissions in the ten low bits of a number. -/
def ofNat (n : Nat) : Permissions :=
  ⟨n.testBit 9, Access.ofNat (n >>> 6), Access.ofNat (n >>> 3), Access.ofNat n⟩

/-- The permissions as a number of ten bits. -/
def toNat (p : Permissions) : Nat :=
  512 * p.sticky.toNat + 64 * p.user.toNat + 8 * p.group.toNat + p.others.toNat

/-- Whether anybody may execute the file. -/
def anyExecute (p : Permissions) : Bool :=
  p.user.execute || p.group.execute || p.others.execute

/-- The symbols of the three classes in a row. -/
def symbols (p : Permissions) : String := p.user.symbol ++ p.group.symbol ++ p.others.symbol

end Permissions

/-- How rights change. -/
inductive Change where
  | add
  | remove
  | assign
  deriving DecidableEq, Repr

namespace Change

/-- Changes a set of rights by another one. -/
def onAccess : Change → (named existing : Access) → Access
  | add, named, existing => named.union existing
  | remove, named, existing => named.compl.inter existing
  | assign, named, _ => named

/-- Changes a bit by another one. -/
def onBit : Change → (named existing : Bool) → Bool
  | add, named, existing => named || existing
  | remove, named, existing => !named && existing
  | assign, named, _ => named

end Change

/-- How the rights of one class change. -/
structure ClassChange where
  change : Change
  named : Access
  /-- Whether the right to execute is named on condition that the file may be executed. -/
  conditional : Bool
  deriving DecidableEq, Repr

namespace ClassChange

/-- Nothing changes. -/
def keep : ClassChange := ⟨.add, ⟨false, false, false⟩, false⟩

/-- The rights after the change. Where the right to execute is named on condition and the
condition fails, the change doesn't give it. -/
def apply (c : ClassChange) (existing : Access) (executable : Bool) : Access :=
  let named := { c.named with execute := c.named.execute || c.conditional }
  let changed := c.change.onAccess named existing
  if c.conditional && !executable && !existing.execute then { changed with execute := false }
  else changed

end ClassChange

/-- A change of permissions. -/
structure Mode where
  user : ClassChange := .keep
  group : ClassChange := .keep
  others : ClassChange := .keep
  /-- How the sticky bit changes, and by which bit. -/
  sticky : Change × Bool := (.add, false)
  /-- Whether the mode was written with letters. -/
  symbolic : Bool
  deriving DecidableEq, Repr

namespace Mode

/-- The permissions after the change, where `executable` is the condition on executing. -/
def combine (m : Mode) (existing : Permissions) (executable : Bool) : Permissions where
  sticky := m.sticky.1.onBit m.sticky.2 existing.sticky
  user := m.user.apply existing.user executable
  group := m.group.apply existing.group executable
  others := m.others.apply existing.others executable

/-- The permissions after the change. Directories and files that anybody may execute meet the
condition on executing. -/
def apply (m : Mode) (existing : Permissions) (isDirectory : Bool) : Permissions :=
  m.combine existing (isDirectory || existing.anyExecute)

end Mode

end ChunkGuard
