import WireProtocol.Field.Int

/-!
# Enumerations, bitmasks and floating point numbers

An enumeration is an integer whose values have names. A bitmask is a word whose bits have names and
may include reserved bits of a fixed pattern. A floating point field keeps the bit pattern that
was read, so that it is sent again unchanged even for a NaN.
-/

set_option autoImplicit false

namespace WireProtocol

/-! ## Enumerations -/

/-- An integer with a table of named values, which need not be adjacent. -/
structure EnumField where
  storage : IntField
  names : List (Int64 × String) := []
  /-- Reading a value without a name is an error. -/
  strict : Bool := false

namespace EnumField

def value (f : EnumField) : Int64 := f.storage.value

def withValue (f : EnumField) (v : Int64) : EnumField :=
  { f with storage := f.storage.withValue v }

def withDefault (f : EnumField) (v : Int64) : EnumField :=
  { f with storage := f.storage.withDefault v }

/-- The first name of a value. -/
def nameOf? (f : EnumField) (v : Int64) : Option String :=
  (f.names.find? (·.1 == v)).map (·.2)

/-- The value of the first entry of that name. -/
def valueOf? (f : EnumField) (name : String) : Option Int64 :=
  (f.names.find? (·.2 == name)).map (·.1)

/-- Takes the value of a name, if there is one. -/
def setByName (f : EnumField) (name : String) : EnumField × Bool :=
  match f.valueOf? name with
  | some v => (f.withValue v, true)
  | none => (f, false)

def isValid (f : EnumField) : Bool := (f.nameOf? f.value).isSome

def read (f : EnumField) (src : Bytes) : Outcome EnumField :=
  let o := f.storage.read src
  let f := { f with storage := o.value }
  match o.error with
  | some e => .fail f o.rest e
  | none =>
    if f.strict && !f.isValid then .fail f o.rest (.invalidData (.unknownEnumValue f.value))
    else .done f o.rest

end EnumField

/-! ## Bitmasks -/

/-- The word with the lowest `bits` bits set, all of them from sixty-four on. -/
def lowBits (bits : Nat) : UInt64 :=
  if 64 ≤ bits then UInt64.ofNat (UInt64.size - 1) else UInt64.ofNat (Nat.pow 2 bits - 1)

/-- Whether a bit of a word is set. -/
def testBit (v : UInt64) (i : Nat) : Bool := v.toNat.testBit i

/-- A word of one to eight bytes with named bits. -/
structure BitmaskField where
  bytes : Nat
  bounds : 1 ≤ bytes ∧ bytes ≤ 8
  order : ByteOrder := .big
  value : UInt64 := 0
  /-- The bits that are reserved. -/
  reservedMask : UInt64 := 0
  /-- What the reserved bits have to be. -/
  reservedValue : UInt64 := 0
  bits : List (Nat × String) := []
  /-- Reading other reserved bits is an error. -/
  strict : Bool := false

namespace BitmaskField

/-- An unset bitmask of the nearest possible count of bytes. -/
def ofBytes (n : Nat) : BitmaskField :=
  if h : 1 ≤ n ∧ n ≤ 8 then { bytes := n, bounds := h }
  else { bytes := if n = 0 then 1 else 8, bounds := by split <;> decide }

/-- Takes the bits of a word that the storage holds. -/
def withValue (f : BitmaskField) (v : UInt64) : BitmaskField :=
  { f with value := v &&& lowBits (8 * f.bytes) }

/-- Takes a word as it is. -/
def withDefault (f : BitmaskField) (v : UInt64) : BitmaskField := { f with value := v }

def withReserved (f : BitmaskField) (mask value : UInt64) : BitmaskField :=
  { f with reservedMask := mask, reservedValue := value &&& mask }

def bit (f : BitmaskField) (i : Nat) : Bool := testBit f.value i

/-- Sets or clears a bit of the storage; others do not exist. -/
def setBit (f : BitmaskField) (i : Nat) (on : Bool) : BitmaskField :=
  if 8 * f.bytes ≤ i then f
  else
    let b : UInt64 := UInt64.ofNat (Nat.pow 2 i)
    { f with value := if on then f.value ||| b else f.value &&& ~~~b }

/-- The index of the first bit of that name. -/
def indexOf? (f : BitmaskField) (name : String) : Option Nat :=
  (f.bits.find? (·.2 == name)).map (·.1)

/-- The first name of a bit. -/
def nameOf? (f : BitmaskField) (i : Nat) : Option String :=
  (f.bits.find? (·.1 == i)).map (·.2)

def isValid (f : BitmaskField) : Bool := f.value &&& f.reservedMask == f.reservedValue

def read (f : BitmaskField) (src : Bytes) : Outcome BitmaskField :=
  withBytes f.bytes src f fun taken rest =>
    let f := { f with value := UInt64.ofNat (taken.toNat f.order) }
    if f.strict && !f.isValid then .fail f rest (.invalidData (.reservedBits f.value))
    else .done f rest

def write (f : BitmaskField) : Bytes := Bytes.ofNat f.order f.bytes f.value.toNat

end BitmaskField

/-! ## Floating point numbers -/

/-- The two sizes of floating point numbers. -/
inductive FloatPrecision where
  | single
  | double
  deriving DecidableEq, Repr

namespace FloatPrecision

def bytes : FloatPrecision → Nat
  | .single => 4
  | .double => 8

/-- The pattern that stands for a number, rounded if need be. -/
def toBits (p : FloatPrecision) (x : Binary64) : UInt64 :=
  match p with
  | .single => x.narrow.toUInt64
  | .double => x.bits

/-- The number that a pattern stands for. -/
def ofBits (p : FloatPrecision) (bits : UInt64) : Binary64 :=
  match p with
  | .single => Binary64.widen bits.toUInt32
  | .double => ⟨bits⟩

end FloatPrecision

/-- A floating point number, kept as its bit pattern. -/
structure FloatField where
  precision : FloatPrecision
  order : ByteOrder := .big
  bits : UInt64 := 0
  /-- The decimal places of its text. -/
  decimals : Nat := 6
  ranges : List (Binary64 × Binary64) := []
  /-- Names of bit patterns. -/
  specials : List (String × UInt64) := []
  units : Option String := none

namespace FloatField

def value (f : FloatField) : Binary64 := f.precision.ofBits f.bits

def withValue (f : FloatField) (x : Binary64) : FloatField :=
  { f with bits := f.precision.toBits x }

def withRange (f : FloatField) (a b : Binary64) : FloatField :=
  { f with ranges := f.ranges ++ [(a.minimum b, a.maximum b)] }

def withSpecial (f : FloatField) (name : String) (x : Binary64) : FloatField :=
  { f with specials := f.specials ++ [(name, f.precision.toBits x)] }

/-- The first special name of the pattern. Any NaN has the name of any NaN. -/
def specialName (f : FloatField) : Option String :=
  (f.specials.find? fun s =>
    s.2 == f.bits || f.value.isNaN && (f.precision.ofBits s.2).isNaN).map (·.1)

def isValid (f : FloatField) : Bool :=
  f.ranges.isEmpty || f.specialName.isSome ||
    f.ranges.any (fun r => r.1.le f.value && f.value.le r.2)

def read (f : FloatField) (src : Bytes) : Outcome FloatField :=
  withBytes f.precision.bytes src f fun taken rest =>
    .done { f with bits := UInt64.ofNat (taken.toNat f.order) } rest

def write (f : FloatField) : Bytes := Bytes.ofNat f.order f.precision.bytes f.bits.toNat

end FloatField

end WireProtocol
