import WireProtocol.Bytes

/-!
# Checksums

The checksums of a byte string: its sum, the exclusive or of its bytes, and two cyclic codes. The
cyclic codes are given by the step that shifts their register by one bit.
-/

set_option autoImplicit false

namespace WireProtocol

/-- The algorithms. -/
inductive Checksum where
  | sum
  | xor
  /-- Polynomial `0x1021`, highest bit first, all bits set at the start. -/
  | crc16
  /-- Polynomial `0x04c11db7`, lowest bit first, all bits set at the start and inverted at the
  end. -/
  | crc32
  deriving DecidableEq, Repr

namespace Checksum

def all : List Checksum := [.sum, .xor, .crc16, .crc32]

def name : Checksum → String
  | .sum => "sum"
  | .xor => "xor"
  | .crc16 => "crc16"
  | .crc32 => "crc32"

def ofName? (s : String) : Option Checksum := all.find? (·.name == s)

/-- Shifts the register up by one bit. -/
def crc16Step (r : UInt16) : UInt16 :=
  if r &&& 0x8000 != 0 then (r <<< 1) ^^^ 0x1021 else r <<< 1

/-- Takes a byte into the register. -/
def crc16Byte (r : UInt16) (b : UInt8) : UInt16 :=
  (List.range 8).foldl (fun r _ => crc16Step r) (r ^^^ (b.toUInt16 <<< 8))

def crc16Of (bs : Bytes) : UInt16 := bs.foldl crc16Byte 0xffff

/-- Shifts the register down by one bit. -/
def crc32Step (r : UInt32) : UInt32 :=
  if r &&& 1 != 0 then (r >>> 1) ^^^ 0xedb88320 else r >>> 1

/-- Takes a byte into the register. -/
def crc32Byte (r : UInt32) (b : UInt8) : UInt32 :=
  (List.range 8).foldl (fun r _ => crc32Step r) (r ^^^ b.toUInt32)

def crc32Of (bs : Bytes) : UInt32 := ~~~(bs.foldl crc32Byte 0xffffffff)

/-- The checksum of a byte string. -/
def compute (c : Checksum) (bs : Bytes) : UInt64 :=
  match c with
  | .sum => bs.foldl (fun n b => n + b.toUInt64) 0
  | .xor => bs.foldl (fun n b => n ^^^ b.toUInt64) 0
  | .crc16 => (crc16Of bs).toUInt64
  | .crc32 => (crc32Of bs).toUInt64

end Checksum

end WireProtocol
