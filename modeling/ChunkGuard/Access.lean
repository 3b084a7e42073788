/-!
# Access rights

What a class of users may do with a file: a set of the rights to read, to write and to execute,
with the set operations and the three-character symbol of the set.
-/

namespace ChunkGuard

/-- The rights to read, to write and to execute. -/
structure Access where
  read : Bool
  write : Bool
  execute : Bool
  deriving DecidableEq, Repr

namespace Access

/-- The rights held by both. -/
def inter (a b : Access) : Access :=
  ⟨a.read && b.read, a.write && b.write, a.execute && b.execute⟩

/-- The rights held by either. -/
def union (a b : Access) : Access :=
  ⟨a.read || b.read, a.write || b.write, a.execute || b.execute⟩

/-- The rights not held. -/
def compl (a : Access) : Access := ⟨!a.read, !a.write, !a.execute⟩

/-- Whether all rights of `b` are held by `a`. -/
def implies (a b : Access) : Bool := a.inter b == b

/-- The set as an octal digit: 4 for reading, 2 for writing, 1 for executing. -/
def toNat (a : Access) : Nat := 4 * a.read.toNat + 2 * a.write.toNat + a.execute.toNat

/-- The set that an octal digit stands for; higher bits are ignored. -/
def ofNat (n : Nat) : Access := ⟨n.testBit 2, n.testBit 1, n.testBit 0⟩

/-- One character for each right, a dash where it isn't held. -/
def symbol (a : Access) : String :=
  String.ofList
    [if a.read then 'r' else '-', if a.write then 'w' else '-', if a.execute then 'x' else '-']

/-- All sets, in the order of their octal digits. -/
def all : List Access := (List.range 8).map ofNat

/-- The set with a given symbol, if there is one. -/
def ofSymbol? (symbol : String) : Option Access := all.find? fun a => a.symbol == symbol

theorem ofNat_toNat (a : Access) : ofNat a.toNat = a := by
  obtain ⟨r, w, x⟩ := a
  cases r <;> cases w <;> cases x <;> rfl

end Access

end ChunkGuard
