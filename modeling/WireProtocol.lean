import WireProtocol.Bytes.Range
import WireProtocol.Description.Rendering
import WireProtocol.Main
import WireProtocol.Proofs.Field.Editing
import WireProtocol.Proofs.Frame.Bounded
import WireProtocol.Proofs.Frame.Reencoding
import WireProtocol.Proofs.Stream.Attribution
import WireProtocol.Proofs.Stream.Chunking
import WireProtocol.Proofs.Field.Shortage
import WireProtocol.Proofs.Stream.Resynchronization
import WireProtocol.Proofs.Message.Presence
import WireProtocol.Proofs.Description.LayerOrder
import WireProtocol.Proofs.Field.Strictness
import WireProtocol.Proofs.Checksum
import WireProtocol.Proofs.Field.BitRanges
import WireProtocol.Proofs.Frame.Nesting
import WireProtocol.Proofs.Frame.Corruption
import WireProtocol.Proofs.Frame.Dispatch
import WireProtocol.Proofs.Frame.Behind
import WireProtocol.Proofs.Frame.Altered
import WireProtocol.Proofs.Frame.SharedId
import WireProtocol.Proofs.Message.Rereading
import WireProtocol.Proofs.Description.Recursion
import WireProtocol.Proofs.Description.Names
import WireProtocol.Proofs.Description.Budget
import WireProtocol.Proofs.Description.TypeText
import WireProtocol.Proofs.Field.Tags
import WireProtocol.Proofs.Frame.Positions
import WireProtocol.Proofs.Field.KeptBits
import WireProtocol.Proofs.Field.BitCapacity
import WireProtocol.Proofs.Field.Amplification
import WireProtocol.Proofs.Field.Yield
import WireProtocol.Proofs.Field.LengthBounds
import WireProtocol.Proofs.Field.Assigning
import WireProtocol.Proofs.Field.Restoring
import WireProtocol.Proofs.Field.Rejecting
import WireProtocol.Proofs.Capture.VlanTags
import WireProtocol.Proofs.Capture.Encapsulation
import WireProtocol.Proofs.Capture.Walk
import WireProtocol.Proofs.Description.IntegerText
import WireProtocol.Proofs.Checksum.Burst
import WireProtocol.Proofs.Stream.Garbage
import WireProtocol.Proofs.Message.PresenceRules
import WireProtocol.Proofs.Field.RefreshedEncoding
import WireProtocol.Proofs.Text.Truncation
import WireProtocol.Proofs.Dump.Lines
import WireProtocol.Proofs.Description.Overflow
