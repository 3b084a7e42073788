import ChunkGuard.Error.Argument

/-!
# Formats of commands

A command takes parameters, of which there may be a least and a greatest number, and options, which
are words that start with a dash. Its format remembers the options given so far.
-/

namespace ChunkGuard.Command

/-- What a command takes, and which of its options were given. -/
structure Format where
  name : String
  least : Nat
  most : Nat
  options : List String
  given : List String := []
  deriving DecidableEq, Repr

/-- The option that an argument is, if it is one: the argument starts with a dash and has more. -/
def option? (argument : String) : Option String :=
  match argument.toList with
  | '-' :: c :: rest => some (String.ofList (c :: rest))
  | _ => none

namespace Format

/-- Sorts arguments into options, which are noted as given, and parameters. -/
def scan : List String → EStateM ArgumentError Format (List String)
  | [] => return []
  | argument :: rest => do
    match option? argument with
    | none => return argument :: (← scan rest)
    | some option =>
      let f ← get
      unless option ∈ f.options do throw (.illegalOption argument)
      set { f with given := option :: f.given }
      scan rest

/-- Reads the arguments from an index on, and gives the parameters among them. -/
def parse (arguments : List String) (start : Nat) :
    EStateM ArgumentError Format (List String) := do
  let parameters ← scan (arguments.drop start)
  let f ← get
  if parameters.length < f.least ∨ f.most < parameters.length then throw (.parameterCount f.name)
  return parameters

/-- Whether an option was given so far. -/
def isGiven (f : Format) (option : String) : Except ArgumentError Bool :=
  if option ∈ f.options then .ok (option ∈ f.given)
  else .error (.unknownOption option f.name)

end Format

end ChunkGuard.Command
