import ChunkGuard.Mode.Parse

/-!
# The grammar of modes

The texts that are modes, said by how they are put together and not by how they are read. An octal
mode is `IsOctal`, a symbolic one `IsSymbolic`.
-/

namespace ChunkGuard.Mode

/-- Every character of a text is of a kind. -/
def Only (kind : Char → Bool) (text : List Char) : Prop := ∀ c ∈ text, kind c = true

/-- Octal modes: between blanks, a plus sign or none, a sticky digit or none, and the digits of
user, group and others. -/
def IsOctal (text : List Char) : Prop :=
  ∃ before plus sticky digits after, text = before ++ plus ++ sticky ++ digits ++ after ∧
    Only Text.isBlank before ∧ plus ∈ [[], ['+']] ∧ sticky ∈ [[], ['0'], ['1']] ∧
    digits.length = 3 ∧ Only Text.isOctalDigit digits ∧ Only Text.isBlank after

/-- One clause: class letters, operators, rights and separators, of which operators and rights may
not be missing. -/
def IsClause (text : List Char) : Prop :=
  ∃ classes operators rights separators, text = classes ++ operators ++ rights ++ separators ∧
    Only Clause.isClass classes ∧
    operators ≠ [] ∧ Only Clause.isOperator operators ∧
    rights ≠ [] ∧ Only Clause.isRight rights ∧
    Only Clause.isSeparator separators

/-- Symbolic modes: one clause or more, after blanks. -/
def IsSymbolic (text : List Char) : Prop :=
  ∃ before clauses, text = before ++ clauses.flatten ∧ Only Text.isBlank before ∧
    clauses ≠ [] ∧ ∀ clause ∈ clauses, IsClause clause

end ChunkGuard.Mode
