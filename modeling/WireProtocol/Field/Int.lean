import WireProtocol.Binary64
import WireProtocol.Field.Outcome

/-!
# Integers

An integer takes a fixed count of bytes, or groups of seven bits of which every one but the last
sent has the high bit set. What is sent is the value plus an offset, both 64-bit words that wrap.
Of the variable-length forms only the one that `IntFormat.encode` gives is accepted, so that
decoded values are sent again as they came.
-/

set_option autoImplicit false

namespace WireProtocol

/-! ## Formats -/

/-- The bytes that an integer takes. -/
inductive IntWidth where
  | fixed (bytes : Nat) (bounds : 1 ≤ bytes ∧ bytes ≤ 8)
  /-- As many groups of seven bits as the number needs, within bounds. -/
  | var (min max : Nat) (bounds : 1 ≤ min ∧ min ≤ max ∧ max ≤ 10)
  deriving DecidableEq, Repr

namespace IntWidth

/-- The fixed width nearest to a count of bytes. -/
def ofBytes (n : Nat) : IntWidth := .fixed (max 1 (min n 8)) (by omega)

/-- The variable width nearest to a pair of bounds. -/
def between (low high : Nat) : IntWidth :=
  .var (max 1 (min low 10)) (max (max 1 (min low 10)) (min high 10)) (by omega)

def isFixed : IntWidth → Bool
  | .fixed .. => true
  | .var .. => false

def minLength : IntWidth → Nat
  | .fixed n _ => n
  | .var min _ _ => min

def maxLength : IntWidth → Nat
  | .fixed n _ => n
  | .var _ max _ => max

end IntWidth

/-- How an integer is sent. -/
structure IntFormat where
  width : IntWidth
  signed : Bool
  order : ByteOrder
  deriving DecidableEq, Repr

/-- The number that `bits` low bits stand for, as a 64-bit word. -/
def wordOfBits (signed : Bool) (raw bits : Nat) : Int64 :=
  if signed then Int64.ofInt (Int.bmod raw (Nat.pow 2 bits)) else Int64.ofNat raw

/-- Whether a number can be sent in that many bits. Sixty-four bits hold any word. -/
def fitsBits (signed : Bool) (wire : Int64) (bits : Nat) : Bool :=
  if 64 ≤ bits then true
  else if signed then -(Nat.pow 2 (bits - 1) : Int) ≤ wire.toInt ∧ wire.toInt < Nat.pow 2 (bits - 1)
  else 0 ≤ wire.toInt ∧ wire.toInt < Nat.pow 2 bits

/-! ## Groups of seven bits -/

namespace Groups

/-- The number of groups whose lowest comes first. -/
def toNatLow : List UInt8 → Nat
  | [] => 0
  | g :: gs => g.toNat + 128 * toNatLow gs

/-- The `count` lowest groups of a number, lowest first. -/
def ofNatLow : Nat → Nat → List UInt8
  | 0, _ => []
  | count + 1, n => UInt8.ofNat (n % 128) :: ofNatLow count (n / 128)

def toNat (order : ByteOrder) (gs : List UInt8) : Nat :=
  match order with
  | .big => toNatLow gs.reverse
  | .little => toNatLow gs

def ofNat (order : ByteOrder) (count n : Nat) : List UInt8 :=
  match order with
  | .big => (ofNatLow count n).reverse
  | .little => ofNatLow count n

/-- Sets the high bit of every group but the last. -/
def chain : List UInt8 → Bytes
  | [] => []
  | [g] => [g]
  | g :: gs => (g + 128) :: chain gs

/-- The result of looking for the end of a chain of groups. -/
inductive Scan where
  /-- The bytes of the chain and those after it. -/
  | ended (chain rest : Bytes)
  /-- All bytes go on. -/
  | short
  /-- No end within the maximum; `rest` follows the bytes looked at. -/
  | tooLong (rest : Bytes)

/-- Puts a byte in front of the chain found. -/
def Scan.cons (b : UInt8) : Scan → Scan
  | .ended chain rest => .ended (b :: chain) rest
  | s => s

/-- Looks for the end of a chain of at most `max` bytes. -/
def scan : (max : Nat) → Bytes → Scan
  | 0, bs => .tooLong bs
  | _ + 1, [] => .short
  | max + 1, b :: bs => if b < 128 then .ended [b] bs else (scan max bs).cons b

end Groups

namespace IntFormat

/-! ## Encoding -/

/-- The least count of groups that a number needs. -/
def groupsNeeded (f : IntFormat) (wire : Int64) : Nat :=
  (((List.range 10).map (· + 1)).find? fun n => fitsBits f.signed wire (7 * n)).getD 10

/-- The bits that are sent in `count` groups; a negative signed number fills them with ones. -/
def wireBits (f : IntFormat) (wire : Int64) (count : Nat) : Nat :=
  if f.signed then (wire.toInt % Nat.pow 2 (7 * count)).toNat else wire.toUInt64.toNat

/-- The bytes of a number. -/
def encode (f : IntFormat) (wire : Int64) : Except CodecError Bytes :=
  match f.width with
  | .fixed n _ =>
    if fitsBits f.signed wire (8 * n) then .ok (Bytes.ofNat f.order n wire.toUInt64.toNat)
    else .error (.overflow (.fixedWidth wire n))
  | .var min max _ =>
    let count := Nat.max (f.groupsNeeded wire) min
    if count ≤ max then
      .ok (Groups.chain (Groups.ofNat f.order count (f.wireBits wire count)))
    else .error (.overflow (.varWidth wire count max))

/-- The count of bytes of a number, within the bounds of the width. -/
def encodedLength (f : IntFormat) (wire : Int64) : Nat :=
  match f.width with
  | .fixed n _ => n
  | .var min max _ => Nat.max min (Nat.min (f.groupsNeeded wire) max)

/-- The number that the bytes of a chain stand for. -/
def ofChain (f : IntFormat) (chain : Bytes) : Int64 :=
  let raw := Groups.toNat f.order (chain.map (· % 128)) % UInt64.size
  wordOfBits f.signed raw (Nat.min (7 * chain.length) 64)

end IntFormat

/-! ## Fields -/

/-- An integer with what is known about its meaning. -/
structure IntField where
  format : IntFormat
  value : Int64 := 0
  default : Int64 := 0
  /-- Added to the value when it is sent. -/
  offset : Int64 := 0
  /-- The value stands for itself times the first term and divided by the second. -/
  scaling : Option (Int64 × Int64) := none
  /-- The values that are valid, from a lowest to a highest; all if there is no range. -/
  ranges : List (Int64 × Int64) := []
  /-- Names of values, which are valid outside the ranges too. -/
  specials : List (String × Int64) := []
  units : Option String := none
  /-- Reading an invalid value is an error. -/
  strict : Bool := false

namespace IntField

/-- A field in a format with the value zero. -/
def ofFormat (format : IntFormat) : IntField := { format }

def withDefault (f : IntField) (v : Int64) : IntField := { f with value := v, default := v }

/-- A scaling with a zero term is none. -/
def withScaling (f : IntField) (num den : Int64) : IntField :=
  if num = 0 ∨ den = 0 then f else { f with scaling := some (num, den) }

def withRange (f : IntField) (a b : Int64) : IntField :=
  { f with ranges := f.ranges ++ [if a ≤ b then (a, b) else (b, a)] }

def withSpecial (f : IntField) (name : String) (v : Int64) : IntField :=
  { f with specials := f.specials ++ [(name, v)] }

/-- The first special name of the value. -/
def specialName (f : IntField) : Option String :=
  (f.specials.find? (·.2 == f.value)).map (·.1)

def isValid (f : IntField) : Bool :=
  f.ranges.isEmpty || f.ranges.any (fun r => r.1 ≤ f.value && f.value ≤ r.2) ||
    f.specials.any (·.2 == f.value)

/-- The quantity that the value stands for. -/
def scaled (f : IntField) : Binary64 :=
  let v := Binary64.ofInt f.value.toInt
  match f.scaling with
  | some (num, den) => (v.mul (.ofInt num.toInt)).div (.ofInt den.toInt)
  | none => v

/-- Takes the value nearest to a quantity. -/
def setScaled (f : IntField) (x : Binary64) : IntField :=
  let v := match f.scaling with
    | some (num, den) => (x.mul (.ofInt den.toInt)).div (.ofInt num.toInt)
    | none => x
  { f with value := v.roundToInt64 }

/-- The number that is sent. -/
def wire (f : IntField) : Int64 := f.value + f.offset

/-- Takes the value whose sent number is `w`. -/
def setWire (f : IntField) (w : Int64) : IntField := { f with value := w - f.offset }

/-- The field with another value. -/
def withValue (f : IntField) (v : Int64) : IntField := { f with value := v }

/-- The field as a count of `n`. -/
def withCount (f : IntField) (n : Nat) : IntField := { f with value := Int64.ofNat n }

/-- The outcome of having read a value, which a strict field checks. -/
def checked (f : IntField) (rest : Bytes) : Outcome IntField :=
  if f.strict && !f.isValid then .fail f rest (.invalidData (.outsideRanges f.value))
  else .done f rest

def write (f : IntField) : Except CodecError Bytes := f.format.encode f.wire

def read (f : IntField) (src : Bytes) : Outcome IntField :=
  match f.format.width with
  | .fixed n _ =>
    withBytes n src f fun taken rest =>
      let raw := taken.toNat f.format.order
      (f.setWire (wordOfBits f.format.signed raw (8 * n))).checked rest
  | .var _ max _ =>
    match Groups.scan max src with
    | .short => .fail f [] (.notEnoughData 1)
    | .tooLong rest => .fail f rest (.invalidData (.varintTooLong max))
    | .ended chain rest =>
      let f := f.setWire (f.format.ofChain chain)
      match f.write with
      | .ok bytes =>
        if bytes = chain then f.checked rest
        else .fail f rest (.invalidData (.varintNotCanonical chain))
      | .error _ => .fail f rest (.invalidData (.varintNotCanonical chain))

def length (f : IntField) : Nat := f.format.encodedLength f.wire

def minLength (f : IntField) : Nat := f.format.width.minLength

def maxLength (f : IntField) : Nat := f.format.width.maxLength

end IntField

end WireProtocol
