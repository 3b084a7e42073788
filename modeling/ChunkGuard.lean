import ChunkGuard.Access
import ChunkGuard.Checksum.Sidecar
import ChunkGuard.Command.Format
import ChunkGuard.Error.Slot
import ChunkGuard.FileSystem.File
import ChunkGuard.Log.Console
import ChunkGuard.Main
import ChunkGuard.Mode.Classes
import ChunkGuard.Mode.Grammar
import ChunkGuard.Mode.Spelling
import ChunkGuard.Seekable.Script
import ChunkGuard.Source.Buffered
import ChunkGuard.Source.Recorded
import ChunkGuard.Source.Replicas
import ChunkGuard.Source.Script
import ChunkGuard.Stream.Cursor
import ChunkGuard.Tool
import ChunkGuard.Usage.Poller
import ChunkGuard.Proofs.Ends
import ChunkGuard.Proofs.Attempt
import ChunkGuard.Proofs.Frame
import ChunkGuard.Proofs.Chunks
import ChunkGuard.Proofs.Replicas
import ChunkGuard.Proofs.Batch
import ChunkGuard.Proofs.Serving
import ChunkGuard.Proofs.Sidecar
import ChunkGuard.Proofs.Undamaged
import ChunkGuard.Proofs.Showing
import ChunkGuard.Proofs.Reading
import ChunkGuard.Proofs.Initial
import ChunkGuard.Proofs.Refinement
import ChunkGuard.Proofs.History
import ChunkGuard.Proofs.Runs
import ChunkGuard.Proofs.Provenance
import ChunkGuard.Proofs.Backing
import ChunkGuard.Proofs.Integrity
import ChunkGuard.Proofs.Succession
import ChunkGuard.Proofs.Failover
import ChunkGuard.Proofs.Straying
import ChunkGuard.Proofs.Balance
import ChunkGuard.Proofs.Crack
import ChunkGuard.Proofs.Ending
import ChunkGuard.Proofs.Burst
import ChunkGuard.Proofs.Handing
import ChunkGuard.Proofs.Scratches
import ChunkGuard.Proofs.Vetting
import ChunkGuard.Proofs.Enabling
import ChunkGuard.Proofs.Range
import ChunkGuard.Proofs.Safety
import ChunkGuard.Proofs.Truncation
import ChunkGuard.Proofs.Paths
import ChunkGuard.Proofs.FileVector
import ChunkGuard.Proofs.Coupling
import ChunkGuard.Proofs.Erasure
import ChunkGuard.Proofs.Resting
import ChunkGuard.Proofs.Printing
import ChunkGuard.Proofs.Mirroring
import ChunkGuard.Proofs.Commands
import ChunkGuard.Proofs.Measuring
import ChunkGuard.Proofs.Telling
import ChunkGuard.Proofs.Dialogue
import ChunkGuard.Proofs.Resuming
import ChunkGuard.Proofs.Restoring
import ChunkGuard.Proofs.Abreast
import ChunkGuard.Proofs.Supply
import ChunkGuard.Proofs.Assembling
import ChunkGuard.Proofs.Retaining
import ChunkGuard.Proofs.Seeking
import ChunkGuard.Proofs.Clauses
import ChunkGuard.Proofs.Turns
import ChunkGuard.Proofs.Accepting
import ChunkGuard.Proofs.Meaning
import ChunkGuard.Proofs.Options
import ChunkGuard.Proofs.Freshness
