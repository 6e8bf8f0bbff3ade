/-!
# Bytes and the numbers they hold

A byte string is a list of bytes, the first one sent first. A number takes a fixed count of bytes
in one of two orders. `ofNat_toNat` says that writing the number of a byte string gives the bytes
back.
-/

set_option autoImplicit false

namespace WireProtocol

/-- A byte string in the order of transmission. -/
abbrev Bytes := List UInt8

/-- The order of the bytes of a number. -/
inductive ByteOrder where
  /-- Most significant byte first. -/
  | big
  /-- Least significant byte first. -/
  | little
  deriving DecidableEq, Repr, Inhabited

namespace Bytes

/-! ## Numbers -/

/-- The number whose least significant byte comes first. -/
def toNatLow : Bytes → Nat
  | [] => 0
  | b :: bs => b.toNat + 256 * toNatLow bs

/-- The `count` lowest bytes of `n`, least significant first. -/
def ofNatLow : Nat → Nat → Bytes
  | 0, _ => []
  | count + 1, n => UInt8.ofNat n :: ofNatLow count (n / 256)

/-- The number that a byte string holds in the given order. -/
def toNat (order : ByteOrder) (bs : Bytes) : Nat :=
  match order with
  | .big => toNatLow bs.reverse
  | .little => toNatLow bs

/-- The `count` lowest bytes of `n` in the given order. -/
def ofNat (order : ByteOrder) (count n : Nat) : Bytes :=
  match order with
  | .big => (ofNatLow count n).reverse
  | .little => ofNatLow count n

@[simp] theorem length_ofNatLow (count n : Nat) : (ofNatLow count n).length = count := by
  induction count generalizing n with
  | zero => rfl
  | succ k ih => simp [ofNatLow, ih]

@[simp] theorem length_ofNat (order : ByteOrder) (count n : Nat) :
    (ofNat order count n).length = count := by
  cases order <;> simp [ofNat]

theorem ofNatLow_toNatLow (bs : Bytes) : ofNatLow bs.length (toNatLow bs) = bs := by
  induction bs with
  | nil => rfl
  | cons b bs ih =>
    have hb := b.toNat_lt
    simp only [List.length_cons, ofNatLow, toNatLow]
    congr 1
    · apply UInt8.toNat_inj.mp
      rw [UInt8.toNat_ofNat']
      omega
    · rw [show (b.toNat + 256 * toNatLow bs) / 256 = toNatLow bs by omega, ih]

theorem ofNat_toNat (order : ByteOrder) (bs : Bytes) :
    ofNat order bs.length (toNat order bs) = bs := by
  cases order with
  | little => exact ofNatLow_toNatLow bs
  | big =>
    have h := ofNatLow_toNatLow bs.reverse
    simp only [List.length_reverse] at h
    simp [toNat, ofNat, h]

/-! ## Cutting -/

/-- The first `n` bytes and the rest, or how many bytes are missing. Only `n` bytes are looked at
unless some are missing. -/
def take? (n : Nat) (bs : Bytes) : Except Nat (Bytes × Bytes) :=
  match n, bs.drop (n - 1) with
  | 0, _ => .ok ([], bs)
  | n + 1, [] => .error (n + 1 - bs.length)
  | n + 1, _ :: rest => .ok (bs.take (n + 1), rest)

theorem take?_eq (n : Nat) (bs : Bytes) :
    take? n bs = if bs.length < n then .error (n - bs.length) else .ok (bs.take n, bs.drop n) := by
  unfold take?
  split
  · simp
  · rename_i k h
    have hl : bs.length ≤ k := by simpa [List.drop_eq_nil_iff] using h
    rw [if_pos (by omega)]
  · rename_i k b rest h
    have hd : bs.drop k = b :: rest := by simpa using h
    have hl : k < bs.length := by
      have := congrArg List.length hd
      simp at this
      omega
    have ht : bs.drop (k + 1) = rest := by rw [← List.tail_drop, hd, List.tail_cons]
    rw [if_neg (by omega), ← ht]

theorem take?_append (as bs : Bytes) : take? as.length (as ++ bs) = .ok (as, bs) := by
  simp [take?_eq]

/-- Cuts or pads with zero bytes to exactly `n` bytes. -/
def resize (n : Nat) (bs : Bytes) : Bytes :=
  bs.take n ++ List.replicate (n - bs.length) 0

@[simp] theorem length_resize (n : Nat) (bs : Bytes) : (resize n bs).length = n := by
  simp [resize]
  omega

end Bytes

/-! ## Hexadecimal text -/

/-- The character of a digit below sixteen, in lower case. -/
def hexDigit (n : Nat) : Char := Nat.digitChar n

/-- A byte as two hexadecimal digits. -/
def hexByte (b : UInt8) : String :=
  String.ofList [hexDigit (b.toNat / 16), hexDigit (b.toNat % 16)]

/-- A number in hexadecimal without leading zeros. -/
def hexNat (n : Nat) : String := String.ofList (Nat.toDigits 16 n)

/-- Puts `fill` in front until the text has `width` characters. -/
def padLeft (width : Nat) (fill : Char) (s : String) : String :=
  String.ofList (List.replicate (width - s.length) fill) ++ s

end WireProtocol
