/-!
# Text of messages

Numbers in messages are decimal, with a minus sign in front of a negative one. A message that
passes through a text of the system ends before its first NUL character, which is what
`untilNul` keeps.
-/

namespace ChunkGuard.Text

/-- A number in decimal digits. -/
def decimal (n : Int) : String :=
  if n < 0 then "-" ++ Nat.repr n.natAbs else Nat.repr n.natAbs

/-- The part of a text before its first NUL character. -/
def untilNul (text : String) : String := String.ofList (text.toList.takeWhile (· ≠ '\x00'))

/-- The six characters that count as blank: space, tab, line feed, vertical tab, form feed and
carriage return. -/
def isBlank (c : Char) : Bool :=
  c = ' ' || (9 ≤ c.toNat && c.toNat ≤ 13)

/-- The digits from 0 to 7. -/
def isOctalDigit (c : Char) : Bool := '0' ≤ c && c ≤ '7'

/-- The value of a decimal digit. -/
def digitValue (c : Char) : Nat := c.toNat - 48

end ChunkGuard.Text
