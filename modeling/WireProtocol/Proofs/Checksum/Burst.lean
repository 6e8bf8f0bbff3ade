import Mathlib.Logic.Function.Iterate
import WireProtocol.Proofs.Checksum

/-!
# Bursts

A burst is a change of some bits that lie close together, wherever they are. The register of
`crc16` takes a byte in bit by bit, the highest first (`crc16Byte_eq`). A shift of it is linear in
exclusive or (`crc16Step_xor`), so that up to as many bits as it has may be added to it at once in
front of the shifts for them (`foldl_crc16Bit`). Different bits in a window of that size therefore
leave different registers, and the bits behind the window keep them apart
(`crc16_ne_of_burst`).
-/

set_option autoImplicit false

namespace WireProtocol

/-! ## Bits of bytes -/

/-- The bit of a byte string at an index, counted from the highest bit of the first byte. -/
def Bytes.bit? (bs : Bytes) (i : Nat) : Option Bool :=
  bs[i / 8]?.map fun b => b.toNat.testBit (7 - i % 8)

/-- The bits of a byte, the highest first. -/
def byteBits (b : UInt8) : List Bool := (List.range 8).map fun i => b.toNat.testBit (7 - i)

/-- The bits of a byte string in order. -/
def Bytes.bits (bs : Bytes) : List Bool := bs.flatMap byteBits

theorem length_byteBits (b : UInt8) : (byteBits b).length = 8 := by
  rw [byteBits, List.length_map, List.length_range]

theorem Bytes.length_bits (bs : Bytes) : (bits bs).length = 8 * bs.length := by
  induction bs with
  | nil => rfl
  | cons b bs ih =>
    rw [bits, List.flatMap_cons, List.length_append, length_byteBits, ← bits, ih,
      List.length_cons]
    omega

theorem getElem?_byteBits (b : UInt8) {i : Nat} (h : i < 8) :
    (byteBits b)[i]? = some (b.toNat.testBit (7 - i)) := by
  rw [byteBits, List.getElem?_map, List.getElem?_range h]
  rfl

theorem Bytes.getElem?_bits (bs : Bytes) (i : Nat) : (bits bs)[i]? = bit? bs i := by
  induction bs generalizing i with
  | nil => rfl
  | cons b bs ih =>
    rw [bits, List.flatMap_cons, ← bits]
    by_cases h : i < 8
    · rw [List.getElem?_append_left (by rwa [length_byteBits]), getElem?_byteBits b h, bit?,
        Nat.div_eq_of_lt h, Nat.mod_eq_of_lt h]
      rfl
    · obtain ⟨k, rfl⟩ : ∃ k, i = k + 8 := ⟨i - 8, by omega⟩
      rw [List.getElem?_append_right (by rw [length_byteBits]; omega), length_byteBits, ih, bit?,
        bit?, Nat.add_sub_cancel, Nat.add_div_right k (by decide), Nat.add_mod_right]
      rfl

/-- The bits of a number end where its size says. -/
theorem testBit_of_lt_two_pow {n w j : Nat} (hn : n < 2 ^ w) (hj : w ≤ j) :
    n.testBit j = false :=
  Nat.testBit_lt_two_pow (Nat.lt_of_lt_of_le hn (Nat.pow_le_pow_right (by decide) hj))

theorem byteBits_injective : Function.Injective byteBits := by
  intro x y h
  refine UInt8.toNat_inj.1 (Nat.eq_of_testBit_eq fun j => ?_)
  by_cases hj : j < 8
  · have hbit := congrArg (·[7 - j]?) h
    simp only [getElem?_byteBits _ (show 7 - j < 8 by omega), Option.some.injEq] at hbit
    rwa [show 7 - (7 - j) = j by omega] at hbit
  · rw [testBit_of_lt_two_pow x.toNat_lt (by omega), testBit_of_lt_two_pow y.toNat_lt (by omega)]

theorem Bytes.bits_injective : Function.Injective bits := by
  intro a b h
  induction a generalizing b with
  | nil =>
    have hl := congrArg List.length h
    rw [length_bits, length_bits] at hl
    exact (List.length_eq_zero_iff.1 (by simpa using hl.symm)).symm
  | cons x a ih =>
    cases b with
    | nil =>
      have hl := congrArg List.length h
      rw [length_bits, length_bits] at hl
      cases hl
    | cons y b =>
      obtain ⟨hbyte, hrest⟩ := List.append_inj h (by rw [length_byteBits, length_byteBits])
      rw [byteBits_injective hbyte, ih hrest]

namespace Checksum

/-! ## Shifts of the register -/

/-- **Shifting is linear** in exclusive or. -/
theorem crc16Step_xor (r s : UInt16) :
    crc16Step (r ^^^ s) = crc16Step r ^^^ crc16Step s := by
  have hpoly : ∀ a b : Bool, (if (a ^^ b) = true then 0x1021 else 0 : UInt16) =
      (if a = true then 0x1021 else 0) ^^^ (if b = true then 0x1021 else 0) := by decide
  rw [crc16Step_eq, crc16Step_eq, crc16Step_eq, UInt16.shiftLeft_xor, UInt16.toNat_xor,
    Nat.testBit_xor, hpoly]
  ac_rfl

/-- A word whose lowest bit is clear comes back when it is moved down and shifted up. -/
theorem crc16Step_shiftRight {r : UInt16} (h : r.toNat.testBit 0 = false) :
    crc16Step (r >>> 1) = r := by
  have hr := r.toNat_lt
  have hdown : (r >>> 1).toNat = r.toNat / 2 := by
    rw [UInt16.toNat_shiftRight, Nat.shiftRight_eq_div_pow]
    rfl
  have hhigh : (r >>> 1).toNat.testBit 15 = false := by
    refine Nat.testBit_lt_two_pow ?_
    rw [hdown]
    omega
  rw [crc16Step_eq, hhigh, if_neg Bool.false_ne_true, UInt16.xor_zero]
  refine UInt16.toNat_inj.1 ?_
  have heven : r.toNat % 2 = 0 := by simpa [Nat.testBit_zero] using h
  rw [UInt16.toNat_shiftLeft, hdown, Nat.shiftLeft_eq]
  show r.toNat / 2 * 2 ^ 1 % 2 ^ 16 = r.toNat
  omega

/-! ## Bits taken in -/

/-- The highest bit of a word, or no bit. -/
def highBit (d : Bool) : UInt16 := if d then 0x8000 else 0

theorem testBit_highBit (d : Bool) (j : Nat) :
    (highBit d).toNat.testBit j = (decide (j = 15) && d) := by
  cases d with
  | false => simp [highBit]
  | true =>
    have h : (highBit true).toNat = 2 ^ 15 := rfl
    rw [h, Nat.testBit_two_pow, Bool.and_true, decide_eq_decide]
    exact eq_comm

/-- Takes a bit into the register. -/
def crc16Bit (r : UInt16) (d : Bool) : UInt16 := crc16Step (r ^^^ highBit d)

/-- Bits as the highest ones of a word, in order. -/
def highBits : List Bool → UInt16
  | [] => 0
  | d :: ds => highBit d ^^^ highBits ds >>> 1

theorem testBit_highBits (ds : List Bool) {j : Nat} (h : j < 16) :
    (highBits ds).toNat.testBit j = (ds[15 - j]?).getD false := by
  induction ds generalizing j with
  | nil => simp [highBits]
  | cons d ds ih =>
    have hdown : (highBits ds >>> 1).toNat.testBit j = (highBits ds).toNat.testBit (j + 1) := by
      rw [UInt16.toNat_shiftRight, Nat.testBit_shiftRight, Nat.add_comm]
      rfl
    rw [highBits, UInt16.toNat_xor, Nat.testBit_xor, testBit_highBit, hdown]
    by_cases hj : j = 15
    · subst hj
      simp [Nat.testBit_lt_two_pow (highBits ds).toNat_lt]
    · obtain ⟨k, hk⟩ : ∃ k, 15 - j = k + 1 := ⟨14 - j, by omega⟩
      rw [ih (by omega), hk, List.getElem?_cons_succ, show 15 - (j + 1) = k by omega]
      simp [hj]

/-- Bits of a number that a word has room for are known from the word. -/
theorem highBits_inj {ds es : List Bool} (hl : ds.length = es.length) (h : ds.length ≤ 16)
    (heq : highBits ds = highBits es) : ds = es := by
  refine List.ext_getElem? fun i => ?_
  by_cases hi : i < ds.length
  · have hd := testBit_highBits ds (j := 15 - i) (by omega)
    rw [heq, testBit_highBits es (by omega), show 15 - (15 - i) = i by omega] at hd
    rw [List.getElem?_eq_getElem hi, List.getElem?_eq_getElem (hl ▸ hi)] at hd ⊢
    exact congrArg some hd.symm
  · rw [List.getElem?_eq_none (by omega), List.getElem?_eq_none (by omega)]

/-- **Bits are taken in at once**: as many as the register has may be added to it in front of all
the shifts for them. -/
theorem foldl_crc16Bit {ds : List Bool} (h : ds.length ≤ 16) (r : UInt16) :
    ds.foldl crc16Bit r = crc16Step^[ds.length] (r ^^^ highBits ds) := by
  induction ds generalizing r with
  | nil => simp [highBits]
  | cons d ds ih =>
    rw [List.length_cons] at h
    -- the last bit has not come as far as the lowest place yet
    have hlow : (highBits ds).toNat.testBit 0 = false := by
      rw [testBit_highBits ds (by decide), List.getElem?_eq_none (by omega)]
      rfl
    have hstep : crc16Step (r ^^^ highBits (d :: ds)) = crc16Bit r d ^^^ highBits ds := by
      rw [highBits, ← UInt16.xor_assoc, crc16Step_xor, crc16Step_shiftRight hlow]
      rfl
    rw [List.foldl_cons, ih (by omega), List.length_cons, Function.iterate_succ_apply, hstep]

/-- Different bits, no more than the register has, leave different registers. -/
theorem foldl_crc16Bit_inj {ds es : List Bool} (hl : ds.length = es.length) (h : ds.length ≤ 16)
    {r : UInt16} (heq : ds.foldl crc16Bit r = es.foldl crc16Bit r) : ds = es := by
  rw [foldl_crc16Bit h, foldl_crc16Bit (hl ▸ h), ← hl] at heq
  have hword := crc16Step_injective.iterate _ heq
  exact highBits_inj hl h ((UInt16.xor_right_inj r).1 hword)

theorem crc16Bit_injective (d : Bool) : Function.Injective (crc16Bit · d) := fun _ _ h =>
  (UInt16.xor_left_inj _).1 (crc16Step_injective h)

/-! ## Bytes taken in -/

theorem highBits_byteBits (b : UInt8) : highBits (byteBits b) = b.toUInt16 <<< 8 := by
  have hb := b.toNat_lt
  have hword : (b.toUInt16 <<< 8).toNat = b.toNat <<< 8 := by
    rw [UInt16.toNat_shiftLeft, UInt8.toNat_toUInt16, Nat.shiftLeft_eq, Nat.shiftLeft_eq]
    show b.toNat * 2 ^ 8 % 2 ^ 16 = b.toNat * 2 ^ 8
    omega
  refine UInt16.toNat_inj.1 (Nat.eq_of_testBit_eq fun j => ?_)
  rw [hword, Nat.testBit_shiftLeft]
  by_cases hj : j < 16
  · rw [testBit_highBits _ hj]
    by_cases hbyte : 8 ≤ j
    · rw [getElem?_byteBits b (by omega), show 7 - (15 - j) = j - 8 by omega]
      simp [hbyte]
    · rw [List.getElem?_eq_none (by rw [length_byteBits]; omega)]
      simp [hbyte]
  · rw [testBit_of_lt_two_pow (highBits _).toNat_lt (by omega),
      testBit_of_lt_two_pow hb (by omega), Bool.and_false]

/-- A byte is taken in bit by bit. -/
theorem crc16Byte_eq (r : UInt16) (b : UInt8) : crc16Byte r b = (byteBits b).foldl crc16Bit r := by
  rw [foldl_crc16Bit (by rw [length_byteBits]; decide), highBits_byteBits, length_byteBits]
  rfl

theorem crc16Of_eq (bs : Bytes) : crc16Of bs = bs.bits.foldl crc16Bit 0xffff := by
  have hbyte : crc16Byte = fun r b => (byteBits b).foldl crc16Bit r :=
    funext fun r => funext fun b => crc16Byte_eq r b
  rw [crc16Of, Bytes.bits, List.foldl_flatMap, hbyte]

/-! ## Bursts -/

/-- Lists that differ in a window alone are the same in front of it and behind it. -/
theorem eq_outside {α : Type} {xs ys : List α} {start n : Nat}
    (h : ∀ i, xs[i]? ≠ ys[i]? → start ≤ i ∧ i < start + n) :
    xs.take start = ys.take start ∧ xs.drop (start + n) = ys.drop (start + n) := by
  have hsame (i : Nat) (hi : i < start ∨ start + n ≤ i) : xs[i]? = ys[i]? := by
    by_contra hne
    have := h i hne
    omega
  constructor
  · refine List.ext_getElem? fun i => ?_
    rw [List.getElem?_take, List.getElem?_take]
    split
    · exact hsame i (.inl ‹_›)
    · rfl
  · refine List.ext_getElem? fun i => ?_
    rw [List.getElem?_drop, List.getElem?_drop]
    exact hsame _ (.inr (Nat.le_add_right _ _))

/-- A list in three parts. -/
theorem take_append_window {α : Type} (xs : List α) (start n : Nat) :
    xs = xs.take start ++ ((xs.drop start).take n ++ xs.drop (start + n)) := by
  rw [← List.drop_drop, List.take_append_drop, List.take_append_drop]

/-- **The code shows every burst**: byte strings of one length that differ have different checksums
if all bits in which they differ lie in a window of as many bits as the register has. The window may
begin anywhere and the strings may be of any length. -/
theorem crc16_ne_of_burst {a b : Bytes} (hl : a.length = b.length) (hne : a ≠ b) {start : Nat}
    (h : ∀ i, a.bit? i ≠ b.bit? i → start ≤ i ∧ i < start + 16) :
    compute .crc16 a ≠ compute .crc16 b := by
  have hbits : ∀ i, a.bits[i]? ≠ b.bits[i]? → start ≤ i ∧ i < start + 16 := fun i hi =>
    h i (by rwa [Bytes.getElem?_bits, Bytes.getElem?_bits] at hi)
  obtain ⟨hfront, hback⟩ := eq_outside hbits
  intro hc
  have hregister : a.bits.foldl crc16Bit 0xffff = b.bits.foldl crc16Bit 0xffff := by
    rw [← crc16Of_eq, ← crc16Of_eq]
    exact UInt16.toNat_inj.1 (by simpa [compute] using congrArg UInt64.toNat hc)
  -- the bits behind the window keep apart what the window has left
  rw [take_append_window a.bits start 16, take_append_window b.bits start 16, hfront, hback,
    List.foldl_append, List.foldl_append, List.foldl_append, List.foldl_append] at hregister
  have hwindow := foldl_crc16Bit_inj (by simp [Bytes.length_bits, hl]) (by simp) <|
    same_of_foldl Eq crc16Bit (fun _ _ d he => crc16Bit_injective d he) _ hregister
  refine hne (Bytes.bits_injective ?_)
  rw [take_append_window a.bits start 16, take_append_window b.bits start 16, hfront, hwindow,
    hback]

/-- The first bit that differs and the last one are sixteen apart, in the first byte and in the
third one. -/
theorem crc16_ne_of_burst_across :
    let a : Bytes := [0x31, 0x32, 0x33, 0x34]
    let b : Bytes := [0x35, 0x32, 0x3b, 0x34]
    (∀ i, a.bit? i ≠ b.bit? i → 5 ≤ i ∧ i < 5 + 16) ∧ a.bit? 5 ≠ b.bit? 5 ∧
      a.bit? 20 ≠ b.bit? 20 ∧ compute .crc16 a ≠ compute .crc16 b := by
  intro a b
  have h : ∀ i, a.bit? i ≠ b.bit? i → 5 ≤ i ∧ i < 5 + 16 := by
    intro i hi
    have hlt : i < 32 := by
      by_contra hle
      have hend : 4 ≤ i / 8 := by omega
      have hout (c : Bytes) (hc : c.length = 4) : c.bit? i = none := by
        rw [Bytes.bit?, List.getElem?_eq_none (hc ▸ hend)]
        rfl
      exact hi ((hout a rfl).trans (hout b rfl).symm)
    have hall : ∀ i < 32, a.bit? i ≠ b.bit? i → 5 ≤ i ∧ i < 5 + 16 := by decide
    exact hall i hlt hi
  exact ⟨h, by decide, by decide, crc16_ne_of_burst rfl (by decide) h⟩

/-- One bit more is too much: the bits of the polynomial go unseen. -/
example : compute .crc16 [0x00, 0x00, 0x00] = compute .crc16 [0x01, 0x10, 0x21] := by
  decide +kernel

end Checksum

end WireProtocol
