import ChunkGuard.Error.Argument
import ChunkGuard.Mode.Basic
import ChunkGuard.Text

/-!
# Written modes

A mode is written in octal digits or as clauses of letters. Octal: a plus sign if wanted, then three
digits for user, group and others, and before them 0 or 1 for the sticky bit if wanted, with blanks
around. Symbolic: clauses that name classes (any of `ugoa`, none meaning all), then operators (any
of `+-=`, of which the last one counts), then rights (any of `rwxXt`), with commas and blanks after
each clause and blanks before the first. A clause takes the place of earlier ones for the classes
that it names, and the sticky bit belongs to others.
-/

namespace ChunkGuard

/-- One clause of a symbolic mode. -/
structure Clause where
  user : Bool
  group : Bool
  others : Bool
  change : ClassChange
  sticky : Bool
  deriving DecidableEq, Repr

namespace Clause

/-- The letters for classes. -/
def isClass (c : Char) : Bool := c = 'u' || c = 'g' || c = 'o' || c = 'a'

/-- The change that an operator stands for. -/
def change? : Char → Option Change
  | '+' => some .add
  | '-' => some .remove
  | '=' => some .assign
  | _ => none

/-- The operators. -/
def isOperator (c : Char) : Bool := (change? c).isSome

/-- The letters for rights. -/
def isRight (c : Char) : Bool := c = 'r' || c = 'w' || c = 'x' || c = 'X' || c = 't'

/-- What may follow a clause. -/
def isSeparator (c : Char) : Bool := c = ',' || Text.isBlank c

/-- The clause made of class letters, operators and rights. All classes are meant where none of the
three is named. -/
def ofLetters (classes : List Char) (change : Change) (rights : List Char) : Clause :=
  let all := !('u' ∈ classes || 'g' ∈ classes || 'o' ∈ classes)
  { user := all || 'u' ∈ classes
    group := all || 'g' ∈ classes
    others := all || 'o' ∈ classes
    change := ⟨change, ⟨'r' ∈ rights, 'w' ∈ rights, 'x' ∈ rights⟩, 'X' ∈ rights⟩
    sticky := 't' ∈ rights }

/-- Reads one clause and what follows it, up to the next clause. -/
def scan? (text : List Char) : Option (Clause × List Char) := do
  let classes := text.takeWhile isClass
  let text := text.dropWhile isClass
  let operators := text.takeWhile isOperator
  let text := text.dropWhile isOperator
  let change ← operators.getLast?.bind change?
  let rights := text.takeWhile isRight
  let text := text.dropWhile isRight
  if rights.isEmpty then none
  else some (ofLetters classes change rights, text.dropWhile isSeparator)

/-- Reads clauses to the end of the text. `fuel` bounds their number; the length of the text is
enough, as every clause has characters. -/
def scanAll? : (fuel : Nat) → List Char → Option (List Clause)
  | _, [] => some []
  | 0, _ :: _ => none
  | fuel + 1, text => do
    let (clause, rest) ← scan? text
    return clause :: (← scanAll? fuel rest)

/-- Puts the clause in place of earlier ones for the classes that it names. -/
def amend (m : Mode) (c : Clause) : Mode :=
  { m with
    user := if c.user then c.change else m.user
    group := if c.group then c.change else m.group
    others := if c.others then c.change else m.others
    sticky := if c.others then (c.change.change, c.sticky) else m.sticky }

end Clause

namespace Mode

/-- The text without blanks at its ends. -/
def trim (text : List Char) : List Char :=
  ((text.dropWhile Text.isBlank).reverse.dropWhile Text.isBlank).reverse

/-- The change that an octal digit stands for. -/
def ofDigit (c : Char) : ClassChange := ⟨.assign, Access.ofNat (Text.digitValue c), false⟩

/-- Reads an octal mode. -/
def octal? (text : List Char) : Option Mode :=
  let text := trim text
  let digits := if text.head? = some '+' then text.tail else text
  if digits.all Text.isOctalDigit then
    match digits with
    | [user, group, others] =>
      some
        { user := ofDigit user, group := ofDigit group, others := ofDigit others
          symbolic := false }
    | [sticky, user, group, others] =>
      if sticky = '0' ∨ sticky = '1' then
        some
          { user := ofDigit user, group := ofDigit group, others := ofDigit others
            sticky := (.assign, sticky = '1'), symbolic := false }
      else none
    | _ => none
  else none

/-- Reads a symbolic mode, which has at least one clause. -/
def symbolic? (text : List Char) : Option Mode := do
  let text := text.dropWhile Text.isBlank
  let clauses ← Clause.scanAll? text.length text
  if clauses.isEmpty then none
  else some (clauses.foldl Clause.amend { symbolic := true })

/-- Reads a mode of either kind. -/
def parse? (text : List Char) : Option Mode := octal? text <|> symbolic? text

/-- Reads a mode, or says what is wrong with it. -/
def ofString (text : String) : Except ArgumentError Mode :=
  (parse? text.toList).elim (.error (.invalidMode text)) .ok

end Mode

end ChunkGuard
