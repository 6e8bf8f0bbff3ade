/-!
# IEEE 754 bit patterns

A floating point number is its bit pattern, so that no operation loses a NaN's payload by accident.
`nearestBits` is the one place where a number is rounded: it gives the pattern nearest to a
fraction, a tie going to the even pattern, for any binary format. Reading integers and decimals and
narrowing to single precision are calls of it.
-/

set_option autoImplicit false

namespace WireProtocol

/-! ## Binary formats -/

/-- A binary interchange format: the bits of the fraction and the bits of the exponent. -/
structure BinaryFormat where
  fraction : Nat
  exponent : Nat

namespace BinaryFormat

/-- Single precision. -/
def single : BinaryFormat := ⟨23, 8⟩

/-- Double precision. -/
def double : BinaryFormat := ⟨52, 11⟩

/-- The power of two that one unit of the smallest numbers stands for, as a positive number
`k` meaning `2 ^ (-k)`. -/
def tiny (f : BinaryFormat) : Nat := Nat.pow 2 (f.exponent - 1) - 2 + f.fraction

/-- The pattern of infinity, without its sign. -/
def infinity (f : BinaryFormat) : Nat := (Nat.pow 2 f.exponent - 1) * Nat.pow 2 f.fraction

/-- The sign bit's weight. -/
def signBit (f : BinaryFormat) : Nat := Nat.pow 2 (f.exponent + f.fraction)

/-- The bit that marks a NaN as quiet. -/
def quietBit (f : BinaryFormat) : Nat := Nat.pow 2 (f.fraction - 1)

end BinaryFormat

/-- The quotient of two numbers rounded to the nearest, a tie going to the even one. -/
def divNearestEven (num den : Nat) : Nat :=
  let q := num / den
  let r := num % den
  if 2 * r > den ∨ (2 * r = den ∧ q % 2 = 1) then q + 1 else q

/-- The exponent of the highest power of two that is at most the fraction. -/
def floorLog2 (num den : Nat) : Int :=
  let e : Int := Int.ofNat num.log2 - Int.ofNat den.log2
  let below : Bool :=
    match e with
    | .ofNat k => num < den * Nat.pow 2 k
    | .negSucc k => num * Nat.pow 2 (k + 1) < den
  if below then e - 1 else e

/-- The unsigned pattern nearest to `num / den`; too large a fraction gives infinity. -/
def nearestBits (f : BinaryFormat) (num den : Nat) : Nat :=
  if num = 0 then 0
  else
    let unit : Int := floorLog2 num den - Int.ofNat f.fraction
    let lowest : Int := -Int.ofNat f.tiny
    let q := if unit < lowest then lowest else unit
    let m :=
      match q with
      | .ofNat k => divNearestEven num (den * Nat.pow 2 k)
      | .negSucc k => divNearestEven (num * Nat.pow 2 (k + 1)) den
    let bits := (q - lowest).toNat * Nat.pow 2 f.fraction + m
    if f.infinity ≤ bits then f.infinity else bits

/-! ## Double precision numbers -/

/-- A double precision number, given by its bit pattern. -/
structure Binary64 where
  bits : UInt64
  deriving DecidableEq, Repr, Inhabited

namespace Binary64

def isNegative (x : Binary64) : Bool := BinaryFormat.double.signBit ≤ x.bits.toNat

/-- The pattern without its sign. -/
def magnitude (x : Binary64) : Nat := x.bits.toNat % BinaryFormat.double.signBit

def isNaN (x : Binary64) : Bool := BinaryFormat.double.infinity < x.magnitude

def isInfinite (x : Binary64) : Bool := x.magnitude = BinaryFormat.double.infinity

/-- A finite number's magnitude is `mantissa * 2 ^ unit`. -/
def mantissa (x : Binary64) : Nat :=
  let e := x.magnitude / Nat.pow 2 52
  let m := x.magnitude % Nat.pow 2 52
  if e = 0 then m else m + Nat.pow 2 52

/-- See `mantissa`. -/
def unit (x : Binary64) : Int :=
  let e := x.magnitude / Nat.pow 2 52
  (if e = 0 then 1 else Int.ofNat e) - 1075

/-- A pattern from a sign and a magnitude. -/
def ofMagnitude (negative : Bool) (magnitude : Nat) : Binary64 :=
  ⟨UInt64.ofNat (if negative then BinaryFormat.double.signBit + magnitude else magnitude)⟩

/-- The number nearest to a signed fraction. -/
def ofFraction (negative : Bool) (num den : Nat) : Binary64 :=
  ofMagnitude negative (nearestBits .double num den)

/-- The number nearest to an integer. -/
def ofInt (v : Int) : Binary64 := ofFraction (v < 0) v.natAbs 1

/-- The quiet NaN without a payload. -/
def nan : Binary64 := ⟨0x7ff8000000000000⟩

/-- An infinity. -/
def infinity (negative : Bool) : Binary64 := ofMagnitude negative BinaryFormat.double.infinity

def mul (x y : Binary64) : Binary64 := ⟨(Float.ofBits x.bits * Float.ofBits y.bits).toBits⟩

def div (x y : Binary64) : Binary64 := ⟨(Float.ofBits x.bits / Float.ofBits y.bits).toBits⟩

/-! ### Order -/

/-- A number that orders the patterns other than NaN as the numbers they stand for. -/
def key (x : Binary64) : Int :=
  if x.isNegative then -Int.ofNat x.magnitude else Int.ofNat x.magnitude

/-- `x ≤ y`; a NaN is not comparable. -/
def le (x y : Binary64) : Bool := !x.isNaN && !y.isNaN && x.key ≤ y.key

/-- The smaller number; a NaN gives way to the other. -/
def minimum (x y : Binary64) : Binary64 :=
  if x.isNaN then y else if y.isNaN then x else if y.key < x.key then y else x

/-- The larger number; a NaN gives way to the other. -/
def maximum (x y : Binary64) : Binary64 :=
  if x.isNaN then y else if y.isNaN then x else if x.key < y.key then y else x

/-! ### Rounding to an integer -/

/-- The 64-bit integer nearest to an integer. -/
def clampInt64 (v : Int) : Int64 :=
  if v < Int64.minValue.toInt then Int64.minValue
  else if Int64.maxValue.toInt < v then Int64.maxValue
  else Int64.ofInt v

/-- The nearest 64-bit integer, a half going away from zero; a NaN gives zero. -/
def roundToInt64 (x : Binary64) : Int64 :=
  if x.isNaN then 0
  else if x.isInfinite then (if x.isNegative then Int64.minValue else Int64.maxValue)
  else
    let size :=
      match x.unit with
      | .ofNat k => x.mantissa * Nat.pow 2 k
      | .negSucc k => (2 * x.mantissa + Nat.pow 2 (k + 1)) / Nat.pow 2 (k + 2)
    clampInt64 (if x.isNegative then -Int.ofNat size else Int.ofNat size)

/-! ### Single precision -/

/-- The single precision pattern nearest to a number; a NaN keeps its sign and the high bits of its
payload and becomes quiet. -/
def narrow (x : Binary64) : UInt32 :=
  let s := BinaryFormat.single
  let size :=
    if x.isNaN then
      let payload := x.magnitude % Nat.pow 2 52 / Nat.pow 2 29
      s.infinity + (if payload / s.quietBit % 2 = 1 then payload else payload + s.quietBit)
    else if x.isInfinite then s.infinity
    else
      match x.unit with
      | .ofNat k => nearestBits s (x.mantissa * Nat.pow 2 k) 1
      | .negSucc k => nearestBits s x.mantissa (Nat.pow 2 (k + 1))
  UInt32.ofNat (if x.isNegative then s.signBit + size else size)

/-- The double precision number of a single precision pattern; a NaN becomes quiet. -/
def widen (bits : UInt32) : Binary64 :=
  let s := BinaryFormat.single
  let d := BinaryFormat.double
  let magnitude := bits.toNat % s.signBit
  let size :=
    if s.infinity ≤ magnitude then
      let payload := magnitude - s.infinity
      if payload = 0 then d.infinity
      else
        let high := if payload / s.quietBit % 2 = 1 then payload else payload + s.quietBit
        d.infinity + high * Nat.pow 2 29
    else
      let e := magnitude / Nat.pow 2 23
      let m := magnitude % Nat.pow 2 23
      if e = 0 then nearestBits d m (Nat.pow 2 149)
      else nearestBits d ((m + Nat.pow 2 23) * Nat.pow 2 (e - 1)) (Nat.pow 2 149)
  ofMagnitude (s.signBit ≤ bits.toNat) size

end Binary64

end WireProtocol
