import WireProtocol.Bytes.Range
import WireProtocol.Capture.Packet

/-!
# Encapsulation

How a payload comes to be in a captured packet: it stands behind a UDP or TCP header, the segment
behind an IPv4 header, and the packet in the envelope of its link, with padding behind it. A header
is what the walk along a packet looks at, and arbitrary bytes around it. Each header is undone by
the reader of its level, whatever follows (`udpPayload?_header`, `tcpPayload?_header`,
`ipv4Payload?_header`, `Envelope.body?_wrap`), and so the payload of the packet is the one that was
put into it (`Envelope.payload?_wrap`).
-/

set_option autoImplicit false

namespace WireProtocol

/-! ## Headers -/

/-- What a UDP header says besides the length of the segment. -/
structure UdpHeader where
  ports : Bytes
  ports_length : ports.length = 4
  checksum : Bytes
  checksum_length : checksum.length = 2

/-- What a TCP header says, which is some words long. -/
structure TcpHeader where
  words : Nat
  words_range : 5 ≤ words ∧ words ≤ 15
  /-- The ports and the two numbers in front of the length. -/
  front : Bytes
  front_length : front.length = 12
  /-- The lower half of the byte that the length stands in. -/
  reserved : Nat
  reserved_lt : reserved < 16
  /-- The flags, the window, the checksum and the options. -/
  behind : Bytes
  behind_length : 13 + behind.length = 4 * words

/-- What an IPv4 header says besides the length of the packet and what the packet carries. -/
structure Ipv4Header where
  words : Nat
  words_range : 5 ≤ words ∧ words ≤ 15
  service : UInt8
  /-- The identification, the place of the fragment and the time to live. -/
  between : Bytes
  between_length : between.length = 5
  /-- The checksum, the addresses and the options. -/
  behind : Bytes
  behind_length : 10 + behind.length = 4 * words

/-- The header of a UDP segment with a payload of `n` bytes. -/
def UdpHeader.bytes (h : UdpHeader) (n : Nat) : Bytes :=
  h.ports ++ (Bytes.ofNat .big 2 (8 + n) ++ h.checksum)

/-- The header of a TCP segment. -/
def TcpHeader.bytes (h : TcpHeader) : Bytes :=
  h.front ++ UInt8.ofNat (16 * h.words + h.reserved) :: h.behind

/-- The header of an IPv4 packet that carries `n` bytes of a protocol. -/
def Ipv4Header.bytes (h : Ipv4Header) (protocol : UInt8) (n : Nat) : Bytes :=
  [UInt8.ofNat (16 * 4 + h.words), h.service] ++
    (Bytes.ofNat .big 2 (4 * h.words + n) ++ (h.between ++ protocol :: h.behind))

/-- The header of a segment of either protocol. -/
inductive SegmentHeader where
  | udp (h : UdpHeader)
  | tcp (h : TcpHeader)

namespace SegmentHeader

/-- The number of the protocol. -/
def protocol : SegmentHeader → UInt8
  | udp _ => 17
  | tcp _ => 6

/-- The segment with a payload. -/
def segment (h : SegmentHeader) (payload : Bytes) : Bytes :=
  match h with
  | udp h => h.bytes payload.length ++ payload
  | tcp h => h.bytes ++ payload

end SegmentHeader

/-- The IPv4 packet with a segment. -/
def Ipv4Header.packet (h : Ipv4Header) (s : SegmentHeader) (payload : Bytes) : Bytes :=
  h.bytes s.protocol (s.segment payload).length ++ s.segment payload

/-- What stands in front of an IPv4 packet on its link. -/
inductive Envelope where
  | ethernet (addresses : Bytes) (length : addresses.length = 12)
  | rawIp
  | cooked (header : Bytes) (length : header.length = 14)

/-- The packet as it is captured, with what follows it. -/
def Envelope.wrap (e : Envelope) (packet : Bytes) : Packet :=
  match e with
  | ethernet addresses _ => ⟨.ethernet, addresses ++ (ipv4Type ++ packet)⟩
  | rawIp => ⟨.rawIp, packet⟩
  | cooked header _ => ⟨.cooked, header ++ (ipv4Type ++ packet)⟩

/-! ## Reading behind a part of known length -/

theorem getD_append_cons {as : Bytes} {i : Nat} (h : as.length = i) (b : UInt8) (bs : Bytes) :
    (as ++ b :: bs).getD i 0 = b := by
  subst h
  simp

/-- The number in two bytes that were written for it. -/
theorem word_append_ofNat {as : Bytes} {i n : Nat} (h : as.length = i) (hn : n < 65536)
    (bs : Bytes) : (as ++ (Bytes.ofNat .big 2 n ++ bs)).word i = n := by
  rw [Bytes.word, List.drop_left' h, List.take_left' (Bytes.length_ofNat .big 2 n),
    Bytes.toNat_ofNat, Nat.mod_eq_of_lt (show n < 256 ^ 2 from hn)]

/-! ## Segments -/

theorem UdpHeader.length_bytes (h : UdpHeader) (n : Nat) : (h.bytes n).length = 8 := by
  simp only [bytes, List.length_append, Bytes.length_ofNat, h.ports_length, h.checksum_length]

theorem TcpHeader.length_bytes (h : TcpHeader) : h.bytes.length = 4 * h.words := by
  have hbehind := h.behind_length
  simp only [bytes, List.length_append, List.length_cons, h.front_length]
  omega

theorem udpPayload?_header (h : UdpHeader) {payload : Bytes} (fits : 8 + payload.length < 65536) :
    udpPayload? (h.bytes payload.length ++ payload) = some payload := by
  have hword : (h.bytes payload.length ++ payload).word 4 = 8 + payload.length := by
    rw [UdpHeader.bytes, List.append_assoc, List.append_assoc]
    exact word_append_ofNat h.ports_length fits _
  have hlength : (h.bytes payload.length ++ payload).length = 8 + payload.length := by
    rw [List.length_append, h.length_bytes]
  simp only [udpPayload?, hword, hlength]
  rw [if_neg (by omega), List.take_of_length_le (Nat.le_of_eq hlength),
    List.drop_left' (h.length_bytes _)]

theorem tcpPayload?_header (h : TcpHeader) (payload : Bytes) :
    tcpPayload? (h.bytes ++ payload) = some payload := by
  have hrange := h.words_range
  have hreserved := h.reserved_lt
  have hbyte : (h.bytes ++ payload).getD 12 0 = UInt8.ofNat (16 * h.words + h.reserved) := by
    rw [TcpHeader.bytes, List.append_assoc]
    exact getD_append_cons h.front_length _ _
  have hheader : 4 * ((UInt8.ofNat (16 * h.words + h.reserved)).toNat / 16) = 4 * h.words := by
    rw [UInt8.toNat_ofNat']
    omega
  have hlength : (h.bytes ++ payload).length = 4 * h.words + payload.length := by
    rw [List.length_append, h.length_bytes]
  simp only [tcpPayload?, hbyte, hheader, hlength]
  rw [if_neg (by omega), List.drop_left' h.length_bytes]

/-- **A segment gives its payload back.** -/
theorem segmentPayload?_segment (s : SegmentHeader) {payload : Bytes}
    (fits : (s.segment payload).length < 65536) :
    segmentPayload? s.protocol (s.segment payload) = some payload := by
  cases s with
  | udp h =>
    rw [SegmentHeader.segment, List.length_append, h.length_bytes] at fits
    exact udpPayload?_header h fits
  | tcp h => exact tcpPayload?_header h payload

/-! ## Packets -/

namespace Ipv4Header

variable (h : Ipv4Header) (protocol : UInt8) (n : Nat) (rest : Bytes)

theorem length_bytes : (h.bytes protocol n).length = 4 * h.words := by
  have hbehind := h.behind_length
  simp only [bytes, List.length_append, List.length_cons, List.length_nil, Bytes.length_ofNat,
    h.between_length]
  omega

/-- The version and the words of the header. -/
theorem getD_zero_bytes : ((h.bytes protocol n ++ rest).getD 0 0).toNat = 16 * 4 + h.words := by
  have hrange := h.words_range
  show (UInt8.ofNat (16 * 4 + h.words)).toNat = 16 * 4 + h.words
  rw [UInt8.toNat_ofNat']
  omega

theorem word_bytes (fits : 4 * h.words + n < 65536) :
    (h.bytes protocol n ++ rest).word 2 = 4 * h.words + n := by
  have hfront : [UInt8.ofNat (16 * 4 + h.words), h.service].length = 2 := rfl
  simp only [bytes, List.append_assoc]
  exact word_append_ofNat hfront fits _

theorem getD_nine_bytes : (h.bytes protocol n ++ rest).getD 9 0 = protocol := by
  have hfront : ([UInt8.ofNat (16 * 4 + h.words), h.service] ++
      (Bytes.ofNat .big 2 (4 * h.words + n) ++ h.between)).length = 9 := by
    simp only [List.length_append, List.length_cons, List.length_nil, Bytes.length_ofNat,
      h.between_length]
  have happend := getD_append_cons hfront protocol (h.behind ++ rest)
  simpa only [bytes, List.append_assoc, List.cons_append] using happend

end Ipv4Header

/-- **A packet gives its segment back**, whatever follows the packet. -/
theorem ipv4Payload?_header (h : Ipv4Header) (protocol : UInt8) {content : Bytes}
    (fits : 4 * h.words + content.length < 65536) (padding : Bytes) :
    ipv4Payload? (h.bytes protocol content.length ++ (content ++ padding)) =
      segmentPayload? protocol content := by
  have hrange := h.words_range
  have hwords : (16 * 4 + h.words) % 16 = h.words := by omega
  have hlength : (h.bytes protocol content.length ++ (content ++ padding)).length =
      4 * h.words + (content.length + padding.length) := by
    rw [List.length_append, List.length_append, h.length_bytes]
  have hsegment : ((h.bytes protocol content.length ++ (content ++ padding)).take
      (4 * h.words + content.length)).drop (4 * h.words) = content := by
    rw [← List.append_assoc, List.take_left' (by rw [List.length_append, h.length_bytes]),
      List.drop_left' (h.length_bytes _ _)]
  simp only [ipv4Payload?, h.getD_zero_bytes, h.word_bytes _ _ _ fits, h.getD_nine_bytes, hwords,
    hlength, hsegment]
  rw [if_neg (by omega), if_neg (by omega)]

/-! ## Envelopes -/

theorem Envelope.body?_wrap (e : Envelope) (packet : Bytes) :
    (e.wrap packet).body? = some packet := by
  cases e with
  | ethernet addresses length =>
    show typedBody? ((addresses ++ (ipv4Type ++ packet)).drop 12) = some packet
    rw [List.drop_left' length, typedBody?_type rfl]
    rfl
  | rawIp => rfl
  | cooked header length =>
    show cookedBody? (header ++ (ipv4Type ++ packet)) = some packet
    have hbehind : (header ++ (ipv4Type ++ packet)).drop 16 = packet := by
      rw [← List.append_assoc]
      exact List.drop_left' (by rw [List.length_append, length]; rfl)
    rw [cookedBody?, List.drop_left' length, hbehind]
    rfl

/-- **The payload of a packet is the one that was put into it.** -/
theorem Envelope.payload?_wrap (e : Envelope) (h : Ipv4Header) (s : SegmentHeader)
    (payload padding : Bytes) (fits : 4 * h.words + (s.segment payload).length ≤ 65535) :
    (e.wrap (h.packet s payload ++ padding)).payload? = some payload := by
  calc (e.wrap (h.packet s payload ++ padding)).payload?
      = ipv4Payload? (h.bytes s.protocol (s.segment payload).length ++
          (s.segment payload ++ padding)) := by
        rw [Packet.payload?, e.body?_wrap, Option.bind_some, Ipv4Header.packet, List.append_assoc]
    _ = segmentPayload? s.protocol (s.segment payload) :=
        ipv4Payload?_header h s.protocol (Nat.lt_succ_of_le fits) padding
    _ = some payload := segmentPayload?_segment s (by omega)

theorem fifteen_words : 5 ≤ 15 ∧ 15 ≤ 15 := by decide

/-- An IPv4 header with as many options as there can be. -/
def optionHeader : Ipv4Header where
  words := 15
  words_range := fifteen_words
  service := 0
  between := [0, 1, 0x40, 0, 64]
  between_length := rfl
  behind := List.replicate 50 1
  behind_length := rfl

/-- A TCP header with as many options as there can be. -/
def optionSegment : SegmentHeader :=
  .tcp {
    words := 15
    words_range := fifteen_words
    front := List.replicate 12 7
    front_length := rfl
    reserved := 1
    reserved_lt := Nat.one_lt_succ_succ 14
    behind := List.replicate 47 1
    behind_length := rfl }

/-- Three bytes behind all options, with two bytes of padding. -/
theorem optionSegment_payload :
    4 * optionHeader.words + (optionSegment.segment [1, 2, 3]).length ≤ 65535 ∧
      ((Envelope.cooked (List.replicate 14 0) rfl).wrap
        (optionHeader.packet optionSegment [1, 2, 3] ++ [0, 0])).payload? = some [1, 2, 3] :=
  ⟨by decide, Envelope.payload?_wrap _ optionHeader optionSegment [1, 2, 3] [0, 0] (by decide)⟩

end WireProtocol
