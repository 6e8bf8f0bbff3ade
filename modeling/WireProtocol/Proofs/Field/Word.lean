import WireProtocol.Bytes.Range
import WireProtocol.Field.Scalar

/-!
# Words and their low bits

A 64-bit word made of some bits has those bits as its lowest ones (`wordOfBits_mod`) and can be sent
in them again (`fitsBits_wordOfBits`), whether it is signed or not.
-/

set_option autoImplicit false

namespace WireProtocol

theorem toNat_toUInt64_ofInt (x : Int) :
    (Int64.ofInt x).toUInt64.toNat = (x % (2 ^ 64 : Nat)).toNat :=
  BitVec.toNat_ofInt x

/-- **The word of some bits** has them as its lowest bits. -/
theorem wordOfBits_mod (signed : Bool) (raw : Nat) {bits : Nat} (h : bits ≤ 64) :
    (wordOfBits signed raw bits).toUInt64.toNat % 2 ^ bits = raw % 2 ^ bits := by
  have hd : 2 ^ bits ∣ 2 ^ 64 := Nat.pow_dvd_pow 2 h
  unfold wordOfBits
  cases signed with
  | false =>
    rw [if_neg Bool.false_ne_true, Int64.toUInt64_ofNat', UInt64.toNat_ofNat',
      Nat.mod_mod_of_dvd _ hd]
  | true =>
    rw [if_pos rfl, toNat_toUInt64_ofInt]
    have hn : 0 ≤ Int.bmod raw (2 ^ bits) % (2 ^ 64 : Nat) := Int.emod_nonneg _ (by decide)
    -- extending the sign changes only higher bits
    refine Int.ofNat_inj.1 ?_
    calc (((Int.bmod raw (2 ^ bits) % (2 ^ 64 : Nat)).toNat % 2 ^ bits : Nat) : Int)
        = Int.bmod raw (2 ^ bits) % (2 ^ 64 : Nat) % (2 ^ bits : Nat) := by
          rw [Int.natCast_emod, Int.toNat_of_nonneg hn]
      _ = Int.bmod raw (2 ^ bits) % (2 ^ bits : Nat) :=
          Int.emod_emod_of_dvd _ (Int.natCast_dvd_natCast.2 hd)
      _ = ((raw % 2 ^ bits : Nat) : Int) := by rw [Int.bmod_emod, Int.natCast_emod]

/-- The word of some bits can be sent in as many. -/
theorem fitsBits_wordOfBits (signed : Bool) {raw bits : Nat} (h0 : 0 < bits)
    (h : raw < 2 ^ bits) : fitsBits signed (wordOfBits signed raw bits) bits = true := by
  unfold fitsBits wordOfBits
  simp only [Nat.pow_eq]
  by_cases hb : 64 ≤ bits
  · rw [if_pos hb]
  · rw [if_neg hb]
    obtain ⟨k, rfl⟩ : ∃ k, bits = k + 1 := ⟨bits - 1, by omega⟩
    have hk : 2 ^ k ≤ 2 ^ 62 := Nat.pow_le_pow_right (by decide) (by omega)
    have hp : 2 ^ (k + 1) = 2 * 2 ^ k := Nat.pow_succ'
    cases signed with
    | false =>
      rw [if_neg Bool.false_ne_true, if_neg Bool.false_ne_true,
        Int64.toInt_ofNat_of_lt (by omega)]
      simp only [decide_eq_true_eq]
      omega
    | true =>
      have hle := Int.le_bmod (x := raw) (m := 2 ^ (k + 1)) (by omega)
      have hlt := Int.bmod_lt (x := raw) (m := 2 ^ (k + 1)) (by omega)
      rw [if_pos rfl, if_pos rfl, Int64.toInt_ofInt_of_le (by omega) (by omega)]
      simp only [Nat.add_sub_cancel, decide_eq_true_eq]
      omega

/-- A count that was read is written again as the same word. -/
theorem ofNat_toInt_toNat {v : Int64} (h : ¬ v < 0) : Int64.ofNat v.toInt.toNat = v := by
  have hv : 0 ≤ v.toInt := by
    rw [Int64.lt_iff_toInt_lt, Int64.toInt_zero] at h
    omega
  rw [← Int64.ofInt_eq_ofNat, Int.toNat_of_nonneg hv, Int64.ofInt_toInt]

end WireProtocol
