import WireProtocol.Capture.Window

/-!
# Captures in records

A file in the pcap format starts with a header of twenty-four bytes, whose magic number says how
numbers are written and which of two layouts the records have. Each record is a header and the
bytes of a packet.
-/

set_option autoImplicit false

namespace WireProtocol.Capture

/-- How the records of a file are laid out. -/
structure RecordLayout where
  order : ByteOrder
  /-- The count of bytes in the header of a record. -/
  headerLength : Nat

/-- The layout that a magic number stands for, read with its lowest byte first. Those with `3c4d`
mark a finer clock, the one with `cd34` a longer header of records. -/
def layoutOfMagic? (magic : Nat) : Option RecordLayout :=
  if magic = 0xa1b2c3d4 ∨ magic = 0xa1b23c4d then some ⟨.little, 16⟩
  else if magic = 0xd4c3b2a1 ∨ magic = 0x4d3cb2a1 then some ⟨.big, 16⟩
  else if magic = 0xa1b2cd34 then some ⟨.little, 24⟩
  else none

/-- Where the numbers of the header of a file end. -/
def headerEnds : List Nat := [4, 6, 8, 12, 16, 20, 24]

/-- The number in a byte order in the four bytes from index `i` on. -/
def word32 (order : ByteOrder) (i : Nat) (bs : Bytes) : Nat :=
  Bytes.toNat order ((bs.drop i).take 4)

/-- The layout of the records and the type of the link. -/
def openRecords (bs : Bytes) : Except CaptureFault (RecordLayout × LinkType) :=
  let header := bs.take 24
  let layout? := layoutOfMagic? (word32 .little 0 header)
  match headerEnds.find? (header.length < ·), layout? with
  | some 4, _ => .error (.shortHeader (4 - header.length))
  | _, none => .error .unrecognized
  | some stop, some _ => .error (.shortHeader (stop - header.length))
  | none, some layout =>
    .ok (layout, .ofCode (Int.bmod (word32 layout.order 20 header) UInt32.size))

/-- The record at the front. -/
def record (layout : RecordLayout) (link : LinkType) (_ : Unit) (window : Nat) (bs : Bytes) :
    Except ItemFault (Item Unit) := do
  ask window layout.headerLength
  let size := layout.headerLength + word32 layout.order 8 bs
  ask window size
  return { size, next := (), packet := some ⟨link, (bs.take size).drop layout.headerLength⟩ }

/-- Reads a file in the pcap format. -/
def readPcap (bs : Bytes) : Capture :=
  match openRecords bs with
  | .error fault => ⟨[], some fault⟩
  | .ok (layout, link) =>
    readItems .pcap (record layout link) () [] (windowOn bs - 24) (bs.drop 24)

end WireProtocol.Capture
