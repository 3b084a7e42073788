import ChunkGuard.Text

/-!
# Errors in arguments

What can be wrong with the words that a user gives: modes, options, parameters and numbers.
-/

namespace ChunkGuard

/-- The causes of errors in arguments. -/
inductive ArgumentError where
  /-- A text that is no mode. -/
  | invalidMode (text : String)
  /-- An option that a command doesn't have. -/
  | illegalOption (argument : String)
  /-- More or fewer parameters than a command takes. -/
  | parameterCount (command : String)
  /-- A question for an option that a command doesn't have. -/
  | unknownOption (option command : String)
  /-- A text that doesn't start with a number. -/
  | noNumber
  deriving DecidableEq, Repr

/-- What a user is told of an error. It ends before the first NUL. -/
def ArgumentError.message : ArgumentError → String
  | invalidMode text => Text.untilNul ("Invalid permission mode: " ++ text)
  | illegalOption argument => Text.untilNul ("Illegal option " ++ argument)
  | parameterCount command => Text.untilNul ("Illegal number of arguments for " ++ command)
  | unknownOption option command =>
    Text.untilNul ("Unknown option " ++ option ++ " for " ++ command)
  | noNumber => "stoul"

end ChunkGuard
