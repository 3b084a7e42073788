import ChunkGuard.Text

/-!
# Errors of streams and storages

`StreamError` lists what can go wrong, one constructor for each cause. What a caller sees of an
error is its `ErrorReport`: a code, a message and, where the damaged bytes are known, their
position. `StreamError.report` is the one place that says which report a cause has.
-/

namespace ChunkGuard

/-- The kind of an error. -/
inductive ErrorCode where
  | invalidArgument
  | endOfStream
  | checksumMismatch
  | unsupportedOperation
  | invalidConfiguration
  | invalidStorageFormat
  | internalExpectationFail
  deriving DecidableEq, Repr

/-- An error as it is told to a caller. -/
structure ErrorReport where
  code : ErrorCode
  message : String
  position : Option Int
  deriving DecidableEq, Repr

/-- The report of an error without a position. Its message ends before the first NUL. -/
def ErrorReport.ofText (code : ErrorCode) (text : String) : ErrorReport :=
  ⟨code, Text.untilNul text, none⟩

/-- The report of an error at a position. Its message ends before the first NUL. -/
def ErrorReport.ofTextAt (code : ErrorCode) (text : String) (position : Int) : ErrorReport :=
  ⟨code, Text.untilNul text, some position⟩

/-- What holds the bytes of a storage. -/
inductive Medium where
  | memory
  | file (path : String)
  deriving DecidableEq, Repr

/-- How a medium is named in messages. -/
def Medium.label : Medium → String
  | .memory => "memory storage"
  | .file path => path

/-- A chunk whose checksum isn't the stored one. -/
structure Mismatch where
  position : Int
  expected : UInt32
  calculated : UInt32
  deriving DecidableEq, Repr

/-- The causes of errors. -/
inductive StreamError where
  /-- A read asks for bytes outside of the buffer it was lent. -/
  | outsideBuffer
  /-- The data ended before a read that has to be complete was. -/
  | prematureEnd
  /-- A chunk of the named source failed its checksum, and no other copy was left to try. -/
  | corrupted (source : String) (mismatch : Mismatch)
  /-- Marks aren't supported. -/
  | markUnsupported
  /-- A stream or a set of replicas was asked for with chunks of no bytes. -/
  | emptyChunks
  /-- A stream was asked for that may never read. -/
  | noAttempts
  /-- Stored checksums of another width than four bytes. -/
  | unsupportedWidth
  /-- A set of replicas without any. -/
  | noReplicas
  /-- A replica without data or without checksums. -/
  | incompleteReplica
  /-- Checksums were asked for of chunks of no bytes. -/
  | emptySidecarChunks
  /-- A verified read that doesn't start at a chunk. -/
  | unaligned
  /-- A verified read of less than a chunk. -/
  | belowChunk
  /-- The checksums of some chunk are missing. -/
  | malformed
  /-- An internal check failed. -/
  | expectation
  /-- A failover interrupted another one too many times. -/
  | nestedTooDeep
  /-- A read past the end of a storage. -/
  | pastEnd (medium : Medium)
  /-- A file that can't be opened. -/
  | unopened (path : String)
  /-- An error that was raised outside and is handed on. -/
  | reported (report : ErrorReport)
  deriving DecidableEq, Repr

namespace StreamError

/-- The message about a chunk that failed its checksum. -/
def mismatchText (source : String) (m : Mismatch) : String :=
  "Checksum error: " ++ source ++ " at " ++ Text.decimal m.position
    ++ " exp: " ++ Nat.repr m.expected.toNat ++ " got: " ++ Nat.repr m.calculated.toNat

/-- What a caller is told of an error. -/
def report : StreamError → ErrorReport
  | outsideBuffer => .ofText .invalidArgument "Read range is out of buffer bounds"
  | prematureEnd => .ofText .endOfStream "End of file reached before reading fully"
  | corrupted source m => .ofTextAt .checksumMismatch (mismatchText source m) m.position
  | markUnsupported => .ofText .unsupportedOperation "mark/reset not supported"
  | emptyChunks => .ofText .invalidConfiguration "Chunk size must be positive"
  | noAttempts => .ofText .invalidConfiguration "At least one read attempt is required"
  | unsupportedWidth => .ofText .invalidConfiguration "Only 32-bit checksums are supported"
  | noReplicas => .ofText .invalidConfiguration "At least one replica is required"
  | incompleteReplica =>
    .ofText .invalidConfiguration "Replica requires data and checksums storages"
  | emptySidecarChunks => .ofText .invalidArgument "Chunk size must be positive"
  | unaligned => .ofText .invalidArgument "Read position isn't aligned to chunk boundary"
  | belowChunk => .ofText .invalidArgument "Read size is less than chunk size"
  | malformed => .ofText .invalidStorageFormat "Invalid storage format"
  | expectation => .ofText .internalExpectationFail "Internal expectation fail"
  | nestedTooDeep => .ofText .internalExpectationFail "Failover is nested too deep"
  | pastEnd medium => .ofText .invalidArgument ("Read past the end of " ++ medium.label)
  | unopened path => .ofText .invalidArgument ("Can't open file " ++ path)
  | reported r => r

end StreamError

end ChunkGuard
