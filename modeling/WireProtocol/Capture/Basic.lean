import WireProtocol.Capture.Packet

/-!
# Captures

A capture is read up to its end or to the first thing in the file that is wrong; the packets before
that are kept.
-/

set_option autoImplicit false

namespace WireProtocol

/-- The format of a capture file. -/
inductive CaptureFormat where
  /-- A header and a record for each packet. -/
  | pcap
  /-- Blocks of several types, in sections. -/
  | pcapng
  deriving DecidableEq, Repr

def CaptureFormat.name : CaptureFormat → String
  | .pcap => "pcap"
  | .pcapng => "pcapng"

/-- What is wrong with a capture file. -/
inductive CaptureFault where
  | empty
  /-- The header of the file is cut short; so many bytes of its part that is cut are missing. -/
  | shortHeader (missing : Nat)
  /-- The file does not start as its format does. -/
  | unrecognized
  /-- The header of the file contradicts itself; what follows the contradiction is kept. -/
  | malformedHeader (rest : Bytes)
  /-- The file ends inside a record or block. -/
  | truncated (format : CaptureFormat)
  /-- A record or block asks for more than the window holds. -/
  | oversized (format : CaptureFormat)
  /-- A block contradicts itself; what follows the contradiction is kept. -/
  | malformedBlock (rest : Bytes)
  /-- A section has a header that no byte order fits. -/
  | badSection
  deriving DecidableEq

/-- Bytes as a list of decimal numbers. -/
def byteList (bs : Bytes) : String :=
  "[" ++ String.intercalate ", " (bs.map fun b => toString b.toNat) ++ "]"

def CaptureFault.text : CaptureFault → String
  | .empty => "End of file"
  | .shortHeader missing => s!"Incomplete read: {missing}"
  | .unrecognized => "Header not recognized as PCAP or PCAPNG"
  | .malformedHeader rest => "Internal parser error Verify, input " ++ byteList rest
  | .truncated format => format.name ++ " read error: UnexpectedEof"
  | .oversized format => format.name ++ " read error: BufferTooSmall"
  | .malformedBlock rest => "pcapng read error: NomError(" ++ byteList rest ++ ", Verify)"
  | .badSection => "pcapng read error: HeaderNotRecognized"

/-- What a capture file holds. -/
structure Capture where
  /-- The packets in the order of the file. -/
  packets : List Packet
  /-- What ended the reading before the end of the file. -/
  fault : Option CaptureFault

namespace Capture

/-- The payloads of the packets that have one. -/
def payloads (c : Capture) : List Bytes := c.packets.filterMap Packet.payload?

end Capture

end WireProtocol
