import WireProtocol.Binary64

/-!
# Decimal text of floating point numbers

A finite number is written either with a fixed count of decimal places, the exact value rounded to
the nearest and a tie to the even digit, or with the fewest digits that read back as the same
number, the nearest such digits and of two equally near the larger. `ofDecimal` reads a decimal
back, rounded once.
-/

set_option autoImplicit false

namespace WireProtocol

/-- The digits of a number in base ten. -/
def decimalDigits (n : Nat) : List Char := Nat.toDigits 10 n

namespace Binary64

/-- The exact magnitude of a finite number as a fraction. -/
def fraction (x : Binary64) : Nat × Nat :=
  match x.unit with
  | .ofNat k => (x.mantissa * Nat.pow 2 k, 1)
  | .negSucc k => (x.mantissa, Nat.pow 2 (k + 1))

/-- The text of a number that is not finite, if it is one. -/
def specialText (x : Binary64) : Option String :=
  if x.isNaN then some "NaN"
  else if x.isInfinite then some (if x.isNegative then "-inf" else "inf")
  else none

/-- Puts a point before the last `places` of the digits, which are padded with zeros to have at
least one digit in front of it. -/
def pointBefore (places : Nat) (digits : List Char) : String :=
  if places = 0 then String.ofList digits
  else
    let padded := List.replicate (places + 1 - digits.length) '0' ++ digits
    let whole := padded.length - places
    String.ofList (padded.take whole ++ '.' :: padded.drop whole)

/-- The text of a number with exactly `places` decimal places. -/
def fixedText (places : Nat) (x : Binary64) : String :=
  match x.specialText with
  | some s => s
  | none =>
    let (num, den) := x.fraction
    let scaled := divNearestEven (num * Nat.pow 10 places) den
    (if x.isNegative then "-" else "") ++ pointBefore places (decimalDigits scaled)

/-! ## Fewest digits -/

/-- The numbers that round to `x`, as a fraction of a common denominator: the lower end, `x` itself
and the upper end. The ends belong to the interval if the mantissa is even. -/
def interval (x : Binary64) : Nat × Nat × Nat × Nat :=
  let low := if x.mantissa = Nat.pow 2 52 ∧ x.unit ≠ -1074 then 1 else 2
  let m := 4 * x.mantissa
  match x.unit - 2 with
  | .ofNat k => ((m - low) * Nat.pow 2 k, m * Nat.pow 2 k, (m + 2) * Nat.pow 2 k, 1)
  | .negSucc k => (m - low, m, m + 2, Nat.pow 2 (k + 1))

/-- The multiple of `num / den` nearest to `x` that rounds to `x`, if one does. -/
def onGrid (x : Binary64) (num den : Nat) : Option Nat :=
  let (low, value, high, scale) := x.interval
  -- all four as multiples of `1 / (scale * den)`
  let step := num * scale
  let inside (c : Nat) : Bool :=
    let p := c * step
    if x.mantissa % 2 = 0 then low * den ≤ p ∧ p ≤ high * den else low * den < p ∧ p < high * den
  let below := value * den / step
  match inside below, inside (below + 1) with
  | true, false => some below
  | false, true => some (below + 1)
  | false, false => none
  | true, true =>
    if 2 * (value * den - below * step) < step then some below else some (below + 1)

/-- Tries the grids of the powers of ten from `10 ^ (n - 344)` down. -/
def shortestFrom (x : Binary64) : Nat → Nat × Int
  | 0 => (0, 0)
  | n + 1 =>
    let e : Int := Int.ofNat n - 344
    let hit :=
      match e with
      | .ofNat k => x.onGrid (Nat.pow 10 k) 1
      | .negSucc k => x.onGrid 1 (Nat.pow 10 (k + 1))
    match hit with
    | some c => (c, e)
    | none => shortestFrom x n

/-- The fewest digits of a positive finite number, and the power of ten of the last of them. -/
def shortest (x : Binary64) : Nat × Int := x.shortestFrom 654

/-- The positional text of `digits * 10 ^ e`. -/
def positional (digits : List Char) (e : Int) : String :=
  match e with
  | .ofNat k => String.ofList (digits ++ List.replicate k '0')
  | .negSucc k => pointBefore (k + 1) digits

/-- The shortest positional text of a number. -/
def shortestText (x : Binary64) : String :=
  match x.specialText with
  | some s => s
  | none =>
    let sign := if x.isNegative then "-" else ""
    if x.magnitude = 0 then sign ++ "0"
    else
      let (c, e) := x.shortest
      sign ++ positional (decimalDigits c) e

/-- The shortest text that shows the number to be no integer type: positional with at least one
place from `1e-4` up to below `1e16`, with an exponent outside. -/
def literalText (x : Binary64) : String :=
  match x.specialText with
  | some s => s
  | none =>
    let sign := if x.isNegative then "-" else ""
    if x.magnitude = 0 then sign ++ "0.0"
    else
      let (c, e) := x.shortest
      let digits := decimalDigits c
      let leading := e + Int.ofNat digits.length - 1
      if -5 < leading ∧ leading < 16 then
        match e with
        | .ofNat _ => sign ++ positional digits e ++ ".0"
        | .negSucc _ => sign ++ positional digits e
      else
        let fraction := match digits with
          | _ :: [] => ""
          | d => "." ++ String.ofList (d.drop 1)
        sign ++ String.ofList (digits.take 1) ++ fraction ++ "e" ++ toString leading

/-! ## Reading -/

/-- The number nearest to `mantissa * 10 ^ e`. Exponents far outside the range of the format are
decided by the count of digits alone. -/
def ofDecimal (negative : Bool) (mantissa : Nat) (e : Int) : Binary64 :=
  if mantissa = 0 then ofMagnitude negative 0
  else
    let top := e + Int.ofNat (decimalDigits mantissa).length
    if 400 < top then ofMagnitude negative BinaryFormat.double.infinity
    else if top < -400 then ofMagnitude negative 0
    else
      match e with
      | .ofNat k => ofFraction negative (mantissa * Nat.pow 10 k) 1
      | .negSucc k => ofFraction negative mantissa (Nat.pow 10 (k + 1))

end Binary64

end WireProtocol
