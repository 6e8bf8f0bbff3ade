import Mathlib.Algebra.Group.Nat.Defs
import WireProtocol.Bytes

/-!
# The range of a byte count

`count` bytes hold the numbers below `256 ^ count`. `toNat_lt` says that no byte string holds more,
and `toNat_ofNat` that writing a number keeps what is below that bound; the bytes depend on nothing
else (`ofNat_congr`).
-/

set_option autoImplicit false

namespace WireProtocol.Bytes

/-- Reading the written bytes leaves the remainder by the bound. -/
theorem toNatLow_ofNatLow (count n : Nat) : toNatLow (ofNatLow count n) = n % 256 ^ count := by
  induction count generalizing n with
  | zero => exact (Nat.mod_one n).symm
  | succ k ih =>
    calc toNatLow (ofNatLow (k + 1) n)
        = n % 256 + 256 * (n / 256 % 256 ^ k) := by simp [ofNatLow, toNatLow, ih]
      _ = n % (256 * 256 ^ k) := Nat.mod_mul.symm
      _ = n % 256 ^ (k + 1) := by rw [Nat.pow_succ']

theorem toNatLow_lt (bs : Bytes) : toNatLow bs < 256 ^ bs.length := by
  induction bs with
  | nil => simp [toNatLow]
  | cons b bs ih =>
    have hb := b.toNat_lt
    simp only [toNatLow, List.length_cons, Nat.pow_succ]
    omega

theorem toNat_ofNat (order : ByteOrder) (count n : Nat) :
    toNat order (ofNat order count n) = n % 256 ^ count := by
  cases order <;> simp [toNat, ofNat, toNatLow_ofNatLow]

theorem toNat_lt (order : ByteOrder) (bs : Bytes) : toNat order bs < 256 ^ bs.length := by
  cases order with
  | little => exact toNatLow_lt bs
  | big =>
    have h := toNatLow_lt bs.reverse
    rwa [List.length_reverse] at h

theorem ofNat_mod (order : ByteOrder) (count n : Nat) :
    ofNat order count (n % 256 ^ count) = ofNat order count n := by
  have h := ofNat_toNat order (ofNat order count n)
  rwa [toNat_ofNat, length_ofNat] at h

theorem ofNat_congr (order : ByteOrder) {count n k : Nat} (h : n % 256 ^ count = k % 256 ^ count) :
    ofNat order count n = ofNat order count k := by
  rw [← ofNat_mod order count n, h, ofNat_mod]

theorem pow_256 (count : Nat) : 256 ^ count = 2 ^ (8 * count) := (Nat.pow_mul 2 8 count).symm

/-- The number of at most eight bytes is a word. -/
theorem toNat_word (order : ByteOrder) {bs : Bytes} (h : bs.length ≤ 8) :
    (UInt64.ofNat (toNat order bs)).toNat = toNat order bs := by
  rw [UInt64.toNat_ofNat', Nat.mod_eq_of_lt]
  calc toNat order bs < 256 ^ bs.length := toNat_lt order bs
    _ ≤ 256 ^ 8 := Nat.pow_le_pow_right (by decide) h

end WireProtocol.Bytes
