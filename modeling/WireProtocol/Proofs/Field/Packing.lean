import WireProtocol.Field.Build
import WireProtocol.Proofs.Field.Reencoding

/-!
# Packing what was unpacked

The members of a bitfield that were given the bits of a word hold them (`toBits_setBits`), so
packing them gives no bit that the word does not have (`testBit_of_pack`), and every bit up to the
end of the members (`testBit_pack`). In a sound bitfield that is the end of the storage, so it
writes the bytes that it read (`Bitfield.read_reencodes`).
-/

set_option autoImplicit false

namespace WireProtocol

/-! ## Low bits -/

theorem testBit_lowBits (bits i : Nat) :
    (lowBits bits).toNat.testBit i = (decide (i < bits) && decide (i < 64)) := by
  have h : (lowBits bits).toNat = 2 ^ min bits 64 - 1 := by
    unfold lowBits
    split
    · rename_i hb
      rw [Nat.min_eq_right hb]
      rfl
    · rename_i hb
      rw [Nat.min_eq_left (by omega), UInt64.toNat_ofNat', Nat.pow_eq, Nat.mod_eq_of_lt]
      have : 2 ^ bits < 2 ^ 64 := Nat.pow_lt_pow_right (by decide) (by omega)
      omega
  rw [h, Nat.testBit_two_pow_sub_one, ← Bool.decide_and]
  congr 1
  exact propext (by omega)

/-- The low bits of a word are its remainder. -/
theorem toNat_and_lowBits (a : UInt64) (bits : Nat) :
    (a &&& lowBits bits).toNat = a.toNat % 2 ^ min bits 64 := by
  refine Nat.eq_of_testBit_eq fun i => ?_
  simp only [UInt64.toNat_and, Nat.testBit_and, testBit_lowBits, Nat.testBit_mod_two_pow]
  rw [Bool.and_comm, ← Bool.decide_and]
  exact congrArg (· && _) (decide_eq_decide.2 (by omega))

/-- Words with the same bits are the same. -/
theorem eq_of_testBit {a b : UInt64} (h : ∀ i < 64, a.toNat.testBit i = b.toNat.testBit i) :
    a = b := by
  refine UInt64.toNat_inj.1 (Nat.eq_of_testBit_eq fun i => ?_)
  by_cases hi : i < 64
  · exact h i hi
  · have hp : 2 ^ 64 ≤ 2 ^ i := Nat.pow_le_pow_right (by decide) (by omega)
    rw [Nat.testBit_lt_two_pow (Nat.lt_of_lt_of_le a.toNat_lt hp),
      Nat.testBit_lt_two_pow (Nat.lt_of_lt_of_le b.toNat_lt hp)]

/-! ## Members -/

namespace Packable

/-- The bits of a member are bits of its own storage. -/
def Fits (p : Packable) (bits : UInt32) : Prop :=
  match p with
  | .bitmask f => bits.toNat ≤ 8 * f.bytes
  | _ => True

theorem toBits_setInt (f : IntField) (raw : UInt64) (bits : UInt32) :
    (setInt f raw bits).wire.toUInt64 &&& lowBits bits.toNat = raw &&& lowBits bits.toNat := by
  unfold setInt
  rw [IntField.wire_setWire]
  refine eq_of_testBit fun i hi => ?_
  simp only [UInt64.toNat_and, Nat.testBit_and, testBit_lowBits]
  by_cases hb : i < bits.toNat
  · -- the bit is among those that the word is made of
    have hm := wordOfBits_mod f.format.signed raw.toNat (Nat.min_le_right bits.toNat 64)
    have ht := congrArg (·.testBit i) hm
    simp only [Nat.testBit_mod_two_pow, show i < min bits.toNat 64 by omega, decide_true,
      Bool.true_and] at ht
    rw [ht]
  · simp only [hb, decide_false, Bool.false_and, Bool.and_false]

/-- A member that was given bits holds them. -/
theorem toBits_setBits {p : Packable} {bits : UInt32} (h : p.Fits bits) (raw : UInt64) :
    (p.setBits raw bits).toBits bits = raw &&& lowBits bits.toNat := by
  cases p with
  | int f => exact toBits_setInt f raw bits
  | enumeration f => exact toBits_setInt f.storage raw bits
  | bitmask f =>
    refine eq_of_testBit fun i hi => ?_
    have hf : bits.toNat ≤ 8 * f.bytes := h
    simp only [setBits, toBits, BitmaskField.withValue, UInt64.toNat_and, Nat.testBit_and,
      testBit_lowBits]
    by_cases hb : i < bits.toNat
    · simp only [show i < 8 * f.bytes by omega, hi, decide_true, Bool.and_true]
    · simp only [hb, decide_false, Bool.false_and, Bool.and_false]

end Packable

/-! ## Words -/

namespace Bitfield

/-- The bits that members take together. -/
def totalBits : List BitMember → Nat
  | [] => 0
  | m :: ms => m.bits.toNat + totalBits ms

@[simp] theorem totalBits_nil : totalBits [] = 0 := rfl

@[simp] theorem totalBits_cons (m : BitMember) (ms : List BitMember) :
    totalBits (m :: ms) = m.bits.toNat + totalBits ms := rfl

/-- The bits of a member, cut out of a word and put back. -/
theorem testBit_slice (raw : UInt64) (pos bits : UInt32) (i : Nat) (hi : i < 64) :
    ((((raw >>> pos.toUInt64) &&& lowBits bits.toNat) <<< pos.toUInt64).toNat.testBit i) =
      (raw.toNat.testBit i && decide (pos.toNat % 64 ≤ i) &&
        decide (i < pos.toNat % 64 + bits.toNat)) := by
  simp only [UInt64.toNat_shiftLeft, UInt64.toNat_and, UInt64.toNat_shiftRight,
    UInt32.toNat_toUInt64, Nat.testBit_mod_two_pow, Nat.testBit_shiftLeft, Nat.testBit_and,
    Nat.testBit_shiftRight, testBit_lowBits]
  by_cases hp : pos.toNat % 64 ≤ i
  · rw [Nat.add_sub_cancel' hp]
    simp only [hi, hp, decide_true, Bool.true_and, Bool.and_true,
      show i - pos.toNat % 64 < 64 by omega,
      show i - pos.toNat % 64 < bits.toNat ↔ i < pos.toNat % 64 + bits.toNat by omega]
  · simp only [hp, decide_false, Bool.false_and, Bool.and_false]

/-- Packing the parts of a word is putting together its slices. -/
theorem testBit_pack_cons {m : BitMember} (hm : m.field.Fits m.bits) (ms : List BitMember)
    (raw : UInt64) (pos : UInt32) {i : Nat} (hi : i < 64) :
    (pack pos (unpack raw pos (m :: ms))).toNat.testBit i =
      (raw.toNat.testBit i && decide (pos.toNat % 64 ≤ i) &&
          decide (i < pos.toNat % 64 + m.bits.toNat) ||
        (pack (pos + m.bits) (unpack raw (pos + m.bits) ms)).toNat.testBit i) := by
  rw [unpack, pack, UInt64.toNat_or, Nat.testBit_or, Packable.toBits_setBits hm, UInt64.and_assoc,
    UInt64.and_self, testBit_slice raw pos m.bits i hi]

/-- Packing gives no bit that the word does not have. -/
theorem testBit_of_pack {ms : List BitMember} (hfit : ∀ m ∈ ms, m.field.Fits m.bits)
    (raw : UInt64) (pos : UInt32) {i : Nat} (hi : i < 64)
    (h : (pack pos (unpack raw pos ms)).toNat.testBit i = true) : raw.toNat.testBit i = true := by
  induction ms generalizing pos with
  | nil =>
    rw [unpack, pack, UInt64.toNat_zero, Nat.zero_testBit] at h
    cases h
  | cons m ms ih =>
    rw [testBit_pack_cons (hfit m (.head _)) ms raw pos hi, Bool.or_eq_true] at h
    rcases h with h | h
    · simp only [Bool.and_eq_true] at h
      exact h.1.1
    · exact ih (fun m hm => hfit m (.tail _ hm)) _ h

/-- Packing gives every bit of the word between the position and the end of the members. -/
theorem testBit_pack {ms : List BitMember} (hfit : ∀ m ∈ ms, m.field.Fits m.bits)
    (raw : UInt64) (pos : UInt32) {i : Nat} (hi : i < 64) (hpos : pos.toNat ≤ i)
    (hend : i < pos.toNat + totalBits ms)
    (h : raw.toNat.testBit i = true) :
    (pack pos (unpack raw pos ms)).toNat.testBit i = true := by
  induction ms generalizing pos with
  | nil =>
    rw [totalBits_nil] at hend
    omega
  | cons m ms ih =>
    rw [testBit_pack_cons (hfit m (.head _)) ms raw pos hi, Bool.or_eq_true]
    have hmod : pos.toNat % 64 = pos.toNat := Nat.mod_eq_of_lt (by omega)
    by_cases hb : i < pos.toNat + m.bits.toNat
    · refine .inl ?_
      simp only [h, hmod, hpos, hb, decide_true, Bool.and_self]
    · -- the member ends before the bit, so the next position has not wrapped
      have hnext : (pos + m.bits).toNat = pos.toNat + m.bits.toNat := by
        rw [UInt32.toNat_add, Nat.mod_eq_of_lt (by omega)]
      rw [totalBits_cons] at hend
      exact .inr (ih (fun m hm => hfit m (.tail _ hm)) _ (by omega) (by omega))

/-! ## Bitfields -/

/-- The members take all bits of the storage, and the bits of a bitmask are bits of its own
storage. -/
structure Sound (b : Bitfield) : Prop where
  width : 8 * b.bytes ≤ totalBits b.members
  fits : ∀ m ∈ b.members, m.field.Fits m.bits

/-- **A bitfield packs the word that it was unpacked from**, as far as its storage goes. -/
theorem pack_unpack_mod {b : Bitfield} (h : b.Sound) (raw : UInt64) :
    (pack 0 (unpack raw 0 b.members)).toNat % 256 ^ b.bytes = raw.toNat % 256 ^ b.bytes := by
  have hb := b.bounds
  rw [Bytes.pow_256]
  refine Nat.eq_of_testBit_eq fun i => ?_
  rw [Nat.testBit_mod_two_pow, Nat.testBit_mod_two_pow]
  by_cases hi : i < 8 * b.bytes
  · have hend : i < (0 : UInt32).toNat + totalBits b.members := by
      have := h.width
      rw [UInt32.toNat_zero]
      omega
    simp only [hi, decide_true, Bool.true_and]
    rw [Bool.eq_iff_iff]
    exact ⟨testBit_of_pack h.fits raw 0 (by omega),
      testBit_pack h.fits raw 0 (by omega) (Nat.zero_le i) hend⟩
  · simp only [hi, decide_false, Bool.false_and]

/-- **A sound bitfield is written as the bytes that it was read from.** -/
theorem read_reencodes {b : Bitfield} (h : b.Sound) : Reencodes b.read fun b => .ok b.write := by
  intro src hr
  unfold read at hr ⊢
  obtain ⟨taken, rest, hs, hl, heq⟩ := withBytes_ok hr
  rw [heq]
  refine ⟨taken, hs, congrArg Except.ok ?_⟩
  have hb := b.bounds
  unfold write
  dsimp only [Outcome.done]
  calc Bytes.ofNat b.order b.bytes (pack 0 (unpack (UInt64.ofNat (taken.toNat b.order)) 0
        b.members)).toNat
      = Bytes.ofNat b.order b.bytes (UInt64.ofNat (taken.toNat b.order)).toNat :=
        Bytes.ofNat_congr b.order (pack_unpack_mod h _)
    _ = Bytes.ofNat b.order b.bytes (taken.toNat b.order) := by
        rw [Bytes.toNat_word b.order (by omega)]
    _ = taken := by rw [← hl, Bytes.ofNat_toNat]

end Bitfield

end WireProtocol
