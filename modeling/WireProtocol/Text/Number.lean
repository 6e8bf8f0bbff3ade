/-!
# Numerals

A numeral is one or more digits in some base, with a plus sign in front of it or not.
-/

set_option autoImplicit false

namespace WireProtocol.Text

/-- The value of a digit, in either case, if it is one in the base. -/
def digit? (base : Nat) (c : Char) : Option Nat :=
  let v :=
    if '0' ≤ c ∧ c ≤ '9' then some (c.toNat - '0'.toNat)
    else if 'a' ≤ c ∧ c ≤ 'z' then some (c.toNat - 'a'.toNat + 10)
    else if 'A' ≤ c ∧ c ≤ 'Z' then some (c.toNat - 'A'.toNat + 10)
    else none
  v.filter (· < base)

/-- Goes on with a number by digits; none if a character is no digit. -/
def digitsOnto? (base : Nat) : Nat → List Char → Option Nat
  | n, [] => some n
  | n, c :: cs => (digit? base c).bind fun d => digitsOnto? base (n * base + d) cs

/-- The number of a row of one or more digits. -/
def digits? (base : Nat) : List Char → Option Nat
  | [] => none
  | cs => digitsOnto? base 0 cs

/-- The number of a numeral. -/
def numeral? (base : Nat) : List Char → Option Nat
  | '+' :: cs => digits? base cs
  | cs => digits? base cs

/-- The number of a numeral, if it is below a limit. -/
def numeralBelow? (limit base : Nat) (cs : List Char) : Option Nat :=
  (numeral? base cs).filter (· < limit)

end WireProtocol.Text
