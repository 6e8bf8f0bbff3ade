import WireProtocol.Field.Scalar

/-!
# Bitfields

Several integers, enumerations and bitmasks share one storage word. They take consecutive ranges of
its bits in order, the lowest bits first. Widths and positions are 32-bit words.
-/

set_option autoImplicit false

namespace WireProtocol

/-- A field that can be packed into bits. -/
inductive Packable where
  | int (f : IntField)
  | enumeration (f : EnumField)
  | bitmask (f : BitmaskField)

namespace Packable

/-- The `bits` low bits of what the field sends. -/
def toBits (p : Packable) (bits : UInt32) : UInt64 :=
  let raw := match p with
    | .int f => f.wire.toUInt64
    | .enumeration f => f.storage.wire.toUInt64
    | .bitmask f => f.value
  raw &&& lowBits bits.toNat

/-- Takes the number that `bits` bits stand for. -/
def setInt (f : IntField) (raw : UInt64) (bits : UInt32) : IntField :=
  f.setWire (wordOfBits f.format.signed raw.toNat (min bits.toNat 64))

/-- Takes the value that `bits` bits stand for, without any check. -/
def setBits (p : Packable) (raw : UInt64) (bits : UInt32) : Packable :=
  match p with
  | .int f => .int (setInt f raw bits)
  | .enumeration f => .enumeration { f with storage := setInt f.storage raw bits }
  | .bitmask f => .bitmask (f.withValue raw)

def isValid : Packable → Bool
  | .int f => f.isValid
  | .enumeration f => f.isValid
  | .bitmask f => f.isValid

end Packable

/-- A member of a bitfield and how many bits it takes. -/
structure BitMember where
  name : String
  bits : UInt32
  field : Packable

/-- Members packed into a storage word of one to eight bytes. -/
structure Bitfield where
  bytes : Nat
  bounds : 1 ≤ bytes ∧ bytes ≤ 8
  order : ByteOrder
  members : List BitMember

namespace Bitfield

/-- A sum that is a 32-bit word. -/
def addChecked (a b : UInt32) : Option UInt32 :=
  if a.toNat + b.toNat < UInt32.size then some (a + b) else none

/-- The sum of `n` and the widths of members, if it is a 32-bit word. -/
def widthChecked : (n : UInt32) → List BitMember → Option UInt32
  | n, [] => some n
  | n, m :: ms => do widthChecked (← addChecked n m.bits) ms

/-- Gives the members the bits of a word from position `pos` on. -/
def unpack (raw : UInt64) : (pos : UInt32) → List BitMember → List BitMember
  | _, [] => []
  | pos, m :: ms =>
    let slice := (raw >>> pos.toUInt64) &&& lowBits m.bits.toNat
    { m with field := m.field.setBits slice m.bits } :: unpack raw (pos + m.bits) ms

/-- The word that holds the members' bits from position `pos` on. -/
def pack : (pos : UInt32) → List BitMember → UInt64
  | _, [] => 0
  | pos, m :: ms => (m.field.toBits m.bits <<< pos.toUInt64) ||| pack (pos + m.bits) ms

def isValid (f : Bitfield) : Bool := f.members.all (·.field.isValid)

def read (f : Bitfield) (src : Bytes) : Outcome Bitfield :=
  withBytes f.bytes src f fun taken rest =>
    let raw := UInt64.ofNat (taken.toNat f.order)
    .done { f with members := unpack raw 0 f.members } rest

def write (f : Bitfield) : Bytes := Bytes.ofNat f.order f.bytes (pack 0 f.members).toNat

end Bitfield

end WireProtocol
