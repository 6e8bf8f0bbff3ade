import WireProtocol.Capture.Pcap

/-!
# Captures in blocks

A file in the pcapng format is a row of blocks. A block has its type, its size, its content and its
size once more. A section starts with a block that says how the numbers in it are written. Interfaces
are numbered in the order of their descriptions, which go on counting from section to section.
-/

set_option autoImplicit false

namespace WireProtocol.Capture

/-- What a block says about packets. -/
inductive Block where
  /-- A section starts. -/
  | start (order : ByteOrder)
  /-- The next interface is described. -/
  | interface (link : LinkType)
  /-- A packet of a numbered interface. -/
  | packet (interface : Nat) (data : Bytes)
  /-- A packet of the first interface. -/
  | firstPacket (data : Bytes)
  | other

/-- The type of a block. -/
inductive BlockType where
  /-- Starts a section. -/
  | start
  /-- Describes an interface. -/
  | interface
  /-- A packet without a header of its own. -/
  | simplePacket
  /-- Gives names to addresses. -/
  | names
  | statistics
  | packet
  /-- Keys that packets are deciphered with. -/
  | secrets
  /-- Describes a process that sends packets. -/
  | process
  /-- The number of a registered owner, and what the owner likes. -/
  | custom
  | other
  deriving DecidableEq

namespace BlockType

/-- The type with a code. The code of sections reads the same in either byte order. -/
def ofCode (code : Nat) : BlockType :=
  if code = 0x0a0d0d0a then .start
  else if code = 1 then .interface
  else if code = 3 then .simplePacket
  else if code = 4 then .names
  else if code = 5 then .statistics
  else if code = 6 then .packet
  else if code = 10 then .secrets
  else if code = 0x80000001 then .process
  else if code = 0xbad ∨ code = 0x40000bad then .custom
  else .other

/-- The least size that a block may state. -/
def leastSize : BlockType → Nat
  | .start => 28
  | .interface => 20
  | .simplePacket => 16
  | .names => 12
  | .statistics => 24
  | .packet => 32
  | .secrets => 20
  | .process => 4
  | .custom => 16
  | .other => 12

/-- Whether the size at the end of a block has to be the one at its front. -/
def repeatsSize : BlockType → Bool
  | .start | .simplePacket | .other => false
  | _ => true

end BlockType

/-- The size of the content of a block, in 32 bits. A block of less than twelve bytes thereby asks
for content that no window holds. -/
def contentSize (size : Nat) : Nat := (size + UInt32.size - 12) % UInt32.size

/-- The byte order in which a section's mark reads `1a2b3c4d`. -/
def orderOfMark? (mark : Bytes) : Option ByteOrder :=
  if Bytes.toNat .little mark = 0x1a2b3c4d then some .little
  else if Bytes.toNat .big mark = 0x1a2b3c4d then some .big
  else none

/-- A size with the padding that makes it a multiple of four. -/
def padded (n : Nat) : Nat := (n + 3) / 4 * 4

/-- Data of a stated size at the front of a block's part, which is padded. A size at the end of the
32-bit range has no padded form; `content` is then kept as the contradiction's place. -/
def paddedData (size : Nat) (content part : Bytes) : Except ItemFault Bytes :=
  if UInt32.size - 5 ≤ size then .error (.malformed content)
  else if part.length < padded size then .error (.short (padded size - part.length))
  else .ok (part.take size)

/-- Looks for the end mark of a row of names. Each name has a type, a size and padded data. -/
def checkNames (order : ByteOrder) : Bytes → Except ItemFault Unit
  | a :: b :: c :: d :: rest =>
    if [a, b, c, d] = [0, 0, 0, 0] then .ok ()
    else
      let size := padded (Bytes.toNat order [c, d])
      if rest.length < size then .error (.short (size - rest.length))
      else checkNames order (rest.drop size)
  | [a] => .error (.short (if a = 0 then 3 else 1))
  | part => .error (.short (4 - part.length))
termination_by bs => bs.length
decreasing_by simp only [List.length_cons, List.length_drop]; omega

/-- What the content of a block of a type says. -/
def blockOf (order : ByteOrder) (content : Bytes) : BlockType → Except ItemFault Block
  | .start => .ok (.start order)
  | .interface => .ok (.interface (.ofCode (Bytes.toNat order (content.take 2))))
  | .simplePacket => .ok (.firstPacket ((content.drop 4).take (word32 order 0 content)))
  | .names => (checkNames order content).map fun _ => .other
  | .packet =>
    (paddedData (word32 order 12 content) content (content.drop 20)).map
      (.packet (word32 order 0 content))
  | .secrets =>
    (paddedData (word32 order 4 content) (content.drop 8) (content.drop 8)).map fun _ => .other
  | .process => (ask content.length 4).map fun _ => .other
  | .statistics | .custom | .other => .ok .other

/-- The byte order of the block at the front, which is new for a block that starts a section. -/
def blockOrder (order : ByteOrder) (type : BlockType) (window : Nat) (bs : Bytes) :
    Except ItemFault ByteOrder :=
  if type = .start then
    match ask window 12, orderOfMark? ((bs.drop 8).take 4) with
    | .error fault, _ => .error fault
    | .ok (), some order => .ok order
    | .ok (), none => .error .badSection
  else .ok order

/-- The block at the front, and its size. -/
def block (order : ByteOrder) (window : Nat) (bs : Bytes) : Except ItemFault (Block × Nat) := do
  ask window 4
  let type := BlockType.ofCode (word32 order 0 bs)
  let order ← blockOrder order type window bs
  ask window type.leastSize
  ask window 8
  let size := word32 order 4 bs
  if size < type.leastSize then throw (.malformed ((bs.take window).drop 8))
  ask window (8 + contentSize size)
  ask window (12 + contentSize size)
  let content := (bs.drop 8).take (contentSize size)
  let b ← blockOf order content type
  if type.repeatsSize ∧ word32 order (size - 4) bs ≠ size then
    throw (.malformed (if type = .custom then content.drop 4 else []))
  return (b, size)

/-- What is known while blocks are read. -/
structure BlockState where
  order : ByteOrder := .little
  interfaces : Array LinkType := #[]

/-- An interface that is not described is an Ethernet one. -/
def BlockState.link (s : BlockState) (i : Nat) : LinkType := s.interfaces[i]?.getD .ethernet

/-- A block of a size as an item of the file. -/
def BlockState.item (s : BlockState) (size : Nat) : Block → Item BlockState
  | .start order => { size, next := { s with order } }
  | .interface link => { size, next := { s with interfaces := s.interfaces.push link } }
  | .packet i data => { size, next := s, packet := some ⟨s.link i, data⟩ }
  | .firstPacket data => { size, next := s, packet := some ⟨s.link 0, data⟩ }
  | .other => { size, next := s }

/-- The item at the front. -/
def BlockState.take (s : BlockState) (window : Nat) (bs : Bytes) :
    Except ItemFault (Item BlockState) :=
  (block s.order window bs).map fun (found, size) => s.item size found

/-- What a fault of the first block is for the file. -/
def headerFault : ItemFault → CaptureFault
  | .short missing => .shortHeader missing
  | .malformed rest => .malformedHeader rest
  | .badSection => .unrecognized

/-- Reads a file in the pcapng format, which has to begin with a section. -/
def readPcapng (bs : Bytes) : Capture :=
  let window := windowOn bs
  match bs, block .little window bs with
  | [], _ => ⟨[], some .empty⟩
  | _, .error fault => ⟨[], some (headerFault fault)⟩
  | _, .ok (.start _, _) => readItems .pcapng BlockState.take {} [] window bs
  | _, .ok _ => ⟨[], some .unrecognized⟩

/-! ## Files -/

/-- Reads a file in a format. -/
def read : CaptureFormat → Bytes → Capture
  | .pcap => readPcap
  | .pcapng => readPcapng

/-- The format of a file by its first four bytes. -/
def formatOf (start : Bytes) : CaptureFormat :=
  if start = [0x0a, 0x0d, 0x0d, 0x0a] then .pcapng else .pcap

end WireProtocol.Capture
