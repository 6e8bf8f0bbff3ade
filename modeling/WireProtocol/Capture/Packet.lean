import WireProtocol.Bytes

/-!
# Captured packets

A captured packet is an IPv4 packet in the envelope of its link. Its payload is what the UDP or TCP
segment in the IPv4 packet carries; a packet of another kind, and one that is cut short inside a
header, has none.
-/

set_option autoImplicit false

namespace WireProtocol

/-- The kind of link that a packet was captured on. -/
inductive LinkType where
  | ethernet
  /-- Packets without an envelope. -/
  | rawIp
  /-- Packets of any device, in an envelope that the capturing host makes up. -/
  | cooked
  | other (code : Int)
  deriving DecidableEq, Repr

/-- The link type of a code in a capture file. -/
def LinkType.ofCode (code : Int) : LinkType :=
  if code = 1 then .ethernet
  else if code = 101 then .rawIp
  else if code = 113 then .cooked
  else .other code

/-- A packet as it was captured. -/
structure Packet where
  link : LinkType
  data : Bytes
  deriving DecidableEq

/-- The number in the two bytes from index `i` on. -/
def Bytes.word (i : Nat) (bs : Bytes) : Nat := toNat .big ((bs.drop i).take 2)

/-! ## Envelopes -/

/-- The type of an IPv4 packet in an envelope. -/
def ipv4Type : Bytes := [0x08, 0x00]

/-- Whether a type marks a VLAN tag in place of the type of the packet. -/
def isTagType (type : Bytes) : Bool := type == [0x81, 0x00] || type == [0x88, 0xa8]

/-- The IPv4 packet behind its type. After a tag's type four bytes are skipped. -/
def typedBody? : Bytes → Option Bytes
  | a :: b :: body =>
    if isTagType [a, b] then typedBody? (body.drop 4)
    else if [a, b] = ipv4Type then some body
    else none
  | _ => none
termination_by bs => bs.length
decreasing_by simp only [List.length_cons, List.length_drop]; omega

theorem typedBody?_type {type : Bytes} (h : type.length = 2) (rest : Bytes) :
    typedBody? (type ++ rest) =
      if isTagType type then typedBody? (rest.drop 4)
      else if type = ipv4Type then some rest
      else none :=
  match type, h with
  | [a, b], _ => typedBody?.eq_1 a b rest

/-- The IPv4 packet in an Ethernet frame: the type stands behind two addresses. -/
def ethernetBody? (frame : Bytes) : Option Bytes := typedBody? (frame.drop 12)

/-- The IPv4 packet in a cooked envelope of sixteen bytes, which ends with the type. -/
def cookedBody? (envelope : Bytes) : Option Bytes :=
  if (envelope.drop 14).take 2 = ipv4Type then some (envelope.drop 16) else none

/-! ## Segments -/

/-- The payload of a UDP segment, whose length stands in it. -/
def udpPayload? (segment : Bytes) : Option Bytes :=
  let length := segment.word 4
  if segment.length < 8 ∨ length < 8 ∨ segment.length < length then none
  else some ((segment.take length).drop 8)

/-- The payload of a TCP segment, which states the length of its header in words. -/
def tcpPayload? (segment : Bytes) : Option Bytes :=
  let header := 4 * ((segment.getD 12 0).toNat / 16)
  if segment.length < 20 ∨ header < 20 ∨ segment.length < header then none
  else some (segment.drop header)

/-- The payload of a segment of a protocol. -/
def segmentPayload? (protocol : UInt8) (segment : Bytes) : Option Bytes :=
  if protocol = 17 then udpPayload? segment
  else if protocol = 6 then tcpPayload? segment
  else none

/-- The payload of the segment in an IPv4 packet. Bytes past the packet's length are ignored. -/
def ipv4Payload? (packet : Bytes) : Option Bytes :=
  let start := (packet.getD 0 0).toNat
  let header := 4 * (start % 16)
  let total := packet.word 2
  if packet.length < 20 ∨ start / 16 ≠ 4 then none
  else if header < 20 ∨ packet.length < header ∨ total < header then none
  else segmentPayload? (packet.getD 9 0) ((packet.take total).drop header)

namespace Packet

/-- The IPv4 packet in a captured packet. -/
def body? (p : Packet) : Option Bytes :=
  match p.link with
  | .ethernet => ethernetBody? p.data
  | .rawIp => some p.data
  | .cooked => cookedBody? p.data
  | .other _ => none

/-- What the segment in a captured packet carries. -/
def payload? (p : Packet) : Option Bytes := p.body?.bind ipv4Payload?

end Packet

end WireProtocol
