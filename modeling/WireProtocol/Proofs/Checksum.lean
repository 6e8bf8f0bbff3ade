import Mathlib.Data.Nat.Bitwise
import Mathlib.Data.Nat.ModEq
import WireProtocol.Checksum
import WireProtocol.Proofs.Field.Packing

/-!
# Checksums show the change of one byte

Taking a byte into a checksum keeps different registers different and takes different bytes to
different registers; for the cyclic codes this is so because a bit that is shifted out of the
register shows in it again (`crc16Step_eq`, `crc32Step_eq`). So byte strings that differ in one byte
have checksums that differ in the bytes of a digest (`compute_ne_of_byte`): one byte for a sum or an
exclusive or, the bytes of the register for a cyclic code.
-/

set_option autoImplicit false

namespace WireProtocol

/-! ## Low bits -/

/-- Words agree in their lowest bits if they have the same remainder. -/
theorem and_lowBits_inj {a b : UInt64} {bits : Nat} :
    a &&& lowBits bits = b &&& lowBits bits ↔
      a.toNat % 2 ^ min bits 64 = b.toNat % 2 ^ min bits 64 := by
  rw [← UInt64.toNat_inj, toNat_and_lowBits, toNat_and_lowBits]

/-- Words below a bound are told apart by the bits that the bound leaves. -/
theorem eq_of_and_lowBits {a b : UInt64} {bits : Nat} (ha : a.toNat < 2 ^ min bits 64)
    (hb : b.toNat < 2 ^ min bits 64) (h : a &&& lowBits bits = b &&& lowBits bits) : a = b := by
  rw [and_lowBits_inj, Nat.mod_eq_of_lt ha, Nat.mod_eq_of_lt hb] at h
  exact UInt64.toNat_inj.1 h

namespace Checksum

/-! ## Cyclic codes -/

/-- The highest bit, which is shifted out, decides whether the polynomial is added. -/
theorem crc16Step_eq (r : UInt16) :
    crc16Step r = (r <<< 1) ^^^ (if r.toNat.testBit 15 then 0x1021 else 0) := by
  have hand : (r &&& 0x8000).toNat = (r.toNat.testBit 15).toNat * 2 ^ 15 := by
    rw [UInt16.toNat_and]
    exact Nat.and_two_pow r.toNat 15
  unfold crc16Step
  cases hb : r.toNat.testBit 15 with
  | false =>
    rw [hb] at hand
    have h0 : r &&& 0x8000 = 0 := UInt16.toNat_inj.1 hand
    simp [h0]
  | true =>
    rw [hb] at hand
    have h0 : r &&& 0x8000 ≠ 0 := by
      intro h
      rw [h] at hand
      cases hand
    simp [h0]

theorem crc16Step_injective : Function.Injective crc16Step := by
  intro r s h
  -- the polynomial has the lowest bit, and shifting leaves it free
  have hlow (r : UInt16) : (crc16Step r).toNat.testBit 0 = r.toNat.testBit 15 := by
    rw [crc16Step_eq, UInt16.toNat_xor, Nat.testBit_xor, UInt16.toNat_shiftLeft]
    cases r.toNat.testBit 15 <;> simp
  have hhigh : r.toNat.testBit 15 = s.toNat.testBit 15 := by
    rw [← hlow, h, hlow]
  rw [crc16Step_eq, crc16Step_eq, hhigh, UInt16.xor_left_inj] at h
  have hshift : r.toNat * 2 % 65536 = s.toNat * 2 % 65536 := by
    simpa [UInt16.toNat_shiftLeft, Nat.shiftLeft_eq] using congrArg UInt16.toNat h
  have hr := r.toNat_lt
  have hs := s.toNat_lt
  simp only [Nat.testBit_eq_decide_div_mod_eq, decide_eq_decide] at hhigh
  exact UInt16.toNat_inj.1 (by omega)

/-- The lowest bit, which is shifted out, decides whether the polynomial is added. -/
theorem crc32Step_eq (r : UInt32) :
    crc32Step r = (r >>> 1) ^^^ (if r.toNat.testBit 0 then 0xedb88320 else 0) := by
  have hand : (r &&& 1).toNat = (r.toNat.testBit 0).toNat := by
    rw [UInt32.toNat_and]
    exact (Nat.and_two_pow r.toNat 0).trans (Nat.mul_one _)
  unfold crc32Step
  cases hb : r.toNat.testBit 0 with
  | false =>
    rw [hb] at hand
    have h0 : r &&& 1 = 0 := UInt32.toNat_inj.1 hand
    simp [h0]
  | true =>
    rw [hb] at hand
    have h0 : r &&& 1 ≠ 0 := by
      intro h
      rw [h] at hand
      cases hand
    simp [h0]

theorem crc32Step_injective : Function.Injective crc32Step := by
  intro r s h
  -- the polynomial has the highest bit, and shifting leaves it free
  have hhigh (r : UInt32) : (crc32Step r).toNat.testBit 31 = r.toNat.testBit 0 := by
    have hr := r.toNat_lt
    have hshift : (r >>> 1).toNat.testBit 31 = false := by
      refine Nat.testBit_lt_two_pow ?_
      rw [UInt32.toNat_shiftRight, Nat.shiftRight_eq_div_pow]
      show r.toNat / 2 ^ 1 < 2 ^ 31
      omega
    rw [crc32Step_eq, UInt32.toNat_xor, Nat.testBit_xor, hshift]
    cases r.toNat.testBit 0 <;> decide
  have hlow : r.toNat.testBit 0 = s.toNat.testBit 0 := by
    rw [← hhigh, h, hhigh]
  rw [crc32Step_eq, crc32Step_eq, hlow, UInt32.xor_left_inj] at h
  have hdiv : r.toNat / 2 = s.toNat / 2 := by
    simpa [UInt32.toNat_shiftRight, Nat.shiftRight_eq_div_pow] using congrArg UInt32.toNat h
  simp only [Nat.testBit_eq_decide_div_mod_eq, decide_eq_decide] at hlow
  exact UInt32.toNat_inj.1 (by omega)

/-! ## Folds over bytes -/

section
variable {σ β : Type} (same : σ → σ → Prop) (step : σ → β → σ)

/-- A fold keeps registers apart if each of its steps does. -/
theorem same_of_foldl (h : ∀ r s b, same (step r b) (step s b) → same r s) (bs : List β) {r s : σ}
    (hf : same (bs.foldl step r) (bs.foldl step s)) : same r s := by
  induction bs generalizing r s with
  | nil => exact hf
  | cons b bs ih => exact h r s b (ih hf)

/-- A fold shows a change of one byte if its steps tell bytes apart and keep registers apart. -/
theorem not_same_foldl (h : ∀ r s b, same (step r b) (step s b) → same r s)
    (hbyte : ∀ r x y, same (step r x) (step r y) → x = y) (r : σ) (a z : List β) {x y : β}
    (hxy : x ≠ y) : ¬ same ((a ++ x :: z).foldl step r) ((a ++ y :: z).foldl step r) := by
  intro hf
  simp only [List.foldl_append, List.foldl_cons] at hf
  exact hxy (hbyte _ x y (same_of_foldl same step h z hf))

end

/-- Eight steps keep registers apart. -/
theorem steps_injective {σ : Type} {step : σ → σ} (h : Function.Injective step) {r s : σ}
    (hs : (List.range 8).foldl (fun r _ => step r) r = (List.range 8).foldl (fun r _ => step r) s) :
    r = s :=
  same_of_foldl Eq (fun r _ => step r) (fun _ _ _ he => h he) _ hs

theorem crc16Of_ne (a z : Bytes) {x y : UInt8} (h : x ≠ y) :
    crc16Of (a ++ x :: z) ≠ crc16Of (a ++ y :: z) := by
  refine not_same_foldl Eq crc16Byte (fun r s b hs => ?_) (fun r x y hs => ?_) _ a z h
  · exact UInt16.xor_left_inj _ |>.1 (steps_injective crc16Step_injective hs)
  · have hx := UInt16.xor_right_inj _ |>.1 (steps_injective crc16Step_injective hs)
    have hlt := x.toNat_lt
    have hlt' := y.toNat_lt
    have hshift : x.toNat * 256 % 65536 = y.toNat * 256 % 65536 := by
      simpa [UInt16.toNat_shiftLeft, Nat.shiftLeft_eq] using congrArg UInt16.toNat hx
    exact UInt8.toNat_inj.1 (by omega)

theorem crc32Of_ne (a z : Bytes) {x y : UInt8} (h : x ≠ y) :
    crc32Of (a ++ x :: z) ≠ crc32Of (a ++ y :: z) := by
  intro hc
  refine not_same_foldl Eq crc32Byte (fun r s b hs => ?_) (fun r x y hs => ?_) _ a z h
    (UInt32.not_inj.1 hc)
  · exact UInt32.xor_left_inj _ |>.1 (steps_injective crc32Step_injective hs)
  · have hx := UInt32.xor_right_inj _ |>.1 (steps_injective crc32Step_injective hs)
    exact UInt8.toNat_inj.1 (by simpa using congrArg UInt32.toNat hx)

/-! ## Digests -/

/-- The count of bytes in which the change of a byte shows. -/
def digestLength : Checksum → Nat
  | .sum | .xor => 1
  | .crc16 => 2
  | .crc32 => 4

/-- A byte is known by its lowest bits, as many as a byte has. -/
theorem byte_of_and_lowBits {x y : UInt8} {bits : Nat} (hb : 8 ≤ bits)
    (h : x.toUInt64 &&& lowBits bits = y.toUInt64 &&& lowBits bits) : x = y := by
  have hp : 2 ^ 8 ≤ 2 ^ min bits 64 := Nat.pow_le_pow_right (by decide) (by omega)
  have hlt (x : UInt8) : x.toUInt64.toNat < 2 ^ min bits 64 := by
    have := x.toNat_lt
    rw [UInt8.toNat_toUInt64]
    omega
  have heq := congrArg UInt64.toNat (eq_of_and_lowBits (hlt x) (hlt y) h)
  exact UInt8.toNat_inj.1 (by simpa using heq)

/-- Adding one number to two words keeps them apart in their lowest bits. -/
theorem and_lowBits_of_add {a b c : UInt64} {bits : Nat}
    (h : (a + c) &&& lowBits bits = (b + c) &&& lowBits bits) :
    a &&& lowBits bits = b &&& lowBits bits := by
  have hd : 2 ^ min bits 64 ∣ 2 ^ 64 := Nat.pow_dvd_pow 2 (Nat.min_le_right _ _)
  rw [and_lowBits_inj] at h ⊢
  rw [UInt64.toNat_add, UInt64.toNat_add, Nat.mod_mod_of_dvd _ hd, Nat.mod_mod_of_dvd _ hd] at h
  exact Nat.ModEq.add_right_cancel' c.toNat h

theorem and_lowBits_of_xor {a b c : UInt64} {bits : Nat}
    (h : (a ^^^ c) &&& lowBits bits = (b ^^^ c) &&& lowBits bits) :
    a &&& lowBits bits = b &&& lowBits bits := by
  rw [and_lowBits_inj] at h ⊢
  rw [UInt64.toNat_xor, UInt64.toNat_xor, Nat.xor_mod_two_pow, Nat.xor_mod_two_pow] at h
  exact Nat.xor_left_inj.1 h

/-- The low bits of two words are the same. -/
def SameLow (bits : Nat) (a b : UInt64) : Prop := a &&& lowBits bits = b &&& lowBits bits

/-- Takes a byte into a sum. -/
def sumByte (r : UInt64) (b : UInt8) : UInt64 := r + b.toUInt64

/-- Takes a byte into an exclusive or. -/
def xorByte (r : UInt64) (b : UInt8) : UInt64 := r ^^^ b.toUInt64

theorem sum_ne (a z : Bytes) {x y : UInt8} (h : x ≠ y) {bits : Nat} (hb : 8 ≤ bits) :
    ¬ SameLow bits (compute .sum (a ++ x :: z)) (compute .sum (a ++ y :: z)) := by
  refine not_same_foldl (SameLow bits) sumByte (fun r s b hs => ?_) (fun r x y hs => ?_) 0 a z h
  · exact and_lowBits_of_add hs
  · rw [sumByte, sumByte, UInt64.add_comm r, UInt64.add_comm r] at hs
    exact byte_of_and_lowBits hb (and_lowBits_of_add hs)

theorem xor_ne (a z : Bytes) {x y : UInt8} (h : x ≠ y) {bits : Nat} (hb : 8 ≤ bits) :
    ¬ SameLow bits (compute .xor (a ++ x :: z)) (compute .xor (a ++ y :: z)) := by
  refine not_same_foldl (SameLow bits) xorByte (fun r s b hs => ?_) (fun r x y hs => ?_) 0 a z h
  · exact and_lowBits_of_xor hs
  · rw [xorByte, xorByte, UInt64.xor_comm r, UInt64.xor_comm r] at hs
    exact byte_of_and_lowBits hb (and_lowBits_of_xor hs)

/-- **The change of one byte shows in a digest**, whatever stands in front of the byte and behind
it. -/
theorem compute_ne_of_byte (c : Checksum) {n : Nat} (hn : c.digestLength ≤ n) (a z : Bytes)
    {x y : UInt8} (h : x ≠ y) :
    c.compute (a ++ x :: z) &&& lowBits (8 * n) ≠ c.compute (a ++ y :: z) &&& lowBits (8 * n) := by
  cases c with
  | sum =>
    have hn : 1 ≤ n := hn
    exact sum_ne a z h (by omega)
  | xor =>
    have hn : 1 ≤ n := hn
    exact xor_ne a z h (by omega)
  | crc16 =>
    have hn : 2 ≤ n := hn
    have hp : 2 ^ 16 ≤ 2 ^ min (8 * n) 64 := Nat.pow_le_pow_right (by decide) (by omega)
    have hlt (r : UInt16) : r.toUInt64.toNat < 2 ^ min (8 * n) 64 :=
      Nat.lt_of_lt_of_le (by simpa using r.toNat_lt) hp
    intro hc
    refine crc16Of_ne a z h (UInt16.toNat_inj.1 ?_)
    simpa using congrArg UInt64.toNat (eq_of_and_lowBits (hlt _) (hlt _) hc)
  | crc32 =>
    have hn : 4 ≤ n := hn
    have hp : 2 ^ 32 ≤ 2 ^ min (8 * n) 64 := Nat.pow_le_pow_right (by decide) (by omega)
    have hlt (r : UInt32) : r.toUInt64.toNat < 2 ^ min (8 * n) 64 :=
      Nat.lt_of_lt_of_le (by simpa using r.toNat_lt) hp
    intro hc
    refine crc32Of_ne a z h (UInt32.toNat_inj.1 ?_)
    simpa using congrArg UInt64.toNat (eq_of_and_lowBits (hlt _) (hlt _) hc)

/-- The same of byte strings that differ at one index. -/
theorem compute_ne_of_getElem? (c : Checksum) {n : Nat} (hn : c.digestLength ≤ n) {bs bs' : Bytes}
    {i : Nat} (hi : i < bs.length) (hl : bs'.length = bs.length) (hne : bs'[i]? ≠ bs[i]?)
    (hsame : ∀ j, j ≠ i → bs'[j]? = bs[j]?) :
    c.compute bs &&& lowBits (8 * n) ≠ c.compute bs' &&& lowBits (8 * n) := by
  have hi' : i < bs'.length := by omega
  rw [List.getElem?_eq_getElem hi, List.getElem?_eq_getElem hi'] at hne
  have hcut {l : Bytes} (hl : i < l.length) : l = l.take i ++ l[i] :: l.drop (i + 1) := by
    rw [← List.drop_eq_getElem_cons hl, List.take_append_drop]
  have htake : bs'.take i = bs.take i := by
    refine List.ext_getElem? fun j => ?_
    rw [List.getElem?_take, List.getElem?_take]
    split
    · exact hsame j (by omega)
    · rfl
  have hdrop : bs'.drop (i + 1) = bs.drop (i + 1) := by
    refine List.ext_getElem? fun j => ?_
    rw [List.getElem?_drop, List.getElem?_drop]
    exact hsame _ (by omega)
  have h := c.compute_ne_of_byte hn (bs.take i) (bs.drop (i + 1))
    fun h => hne (congrArg some h.symm)
  rwa [← hcut hi, ← htake, ← hdrop, ← hcut hi'] at h

end Checksum

end WireProtocol
