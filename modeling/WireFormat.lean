import WireFormat.Error
import WireFormat.Event
import WireFormat.IntegerCodec
import WireFormat.Binary
import WireFormat.Hex
import WireFormat.Guid
import WireFormat.Order
import WireFormat.Map.Sorted
import WireFormat.Map.Arrival
import WireFormat.Json.Basic
import WireFormat.Json.Reading
import WireFormat.Limits
import WireFormat.WireType
import WireFormat.Timestamp.Calendar
import WireFormat.Timestamp.Basic
import WireFormat.Decoder
import WireFormat.Frame
import WireFormat.Schema.Scalar
import WireFormat.Schema.Basic
import WireFormat.Schema.Decode
import WireFormat.Writer.Basic
import WireFormat.Schema.Encode
import WireFormat.Writer.Program
import WireFormat.Songs
import WireFormat.Program.Basic
import WireFormat.Program.Run
import WireFormat.Proofs.Success
import WireFormat.Proofs.FrameSuccess
import WireFormat.Proofs.Locality
import WireFormat.Proofs.IndexedWalk
import WireFormat.Proofs.Compositional
import WireFormat.Proofs.SchemaLocality
import WireFormat.Proofs.Scalars
import WireFormat.Proofs.Maps
import WireFormat.Proofs.WireForm
import WireFormat.Proofs.RoundTrip
import WireFormat.Proofs.IsolatedBody
import WireFormat.Proofs.Evolution
import WireFormat.Proofs.IndexedBody
import WireFormat.Proofs.StoredFields
import WireFormat.Proofs.IndexedEvolution
import WireFormat.Proofs.Failure
import WireFormat.Proofs.Genuine
import WireFormat.Proofs.ProgramErrors
import WireFormat.Proofs.Truncation
import WireFormat.Proofs.FieldOverrun
import WireFormat.Proofs.CutInput
import WireFormat.Proofs.Cursor
import WireFormat.Proofs.Places
import WireFormat.Proofs.Alignment
import WireFormat.Proofs.Guarded
import WireFormat.Proofs.GuardedReads
import WireFormat.Proofs.RunSafety
import WireFormat.Proofs.Phases
import WireFormat.Proofs.TighterLimits
import WireFormat.Proofs.Layout
import WireFormat.Proofs.WriterPrograms
import WireFormat.Proofs.Placeholders
import WireFormat.Proofs.Instants
import WireFormat.Proofs.KindBits
import WireFormat.Proofs.UnixNanos
import WireFormat.Proofs.Canonical
import WireFormat.Proofs.LastWins
import WireFormat.Proofs.TruthfulErrors
import WireFormat.Proofs.ByteArrays
import WireFormat.Proofs.ShiftedWords
import WireFormat.Proofs.FixedWidth
import WireFormat.Proofs.ForgedCounts
import WireFormat.Proofs.ExactReads
import WireFormat.Proofs.IndexedLoop
import WireFormat.Proofs.GuidLayout
