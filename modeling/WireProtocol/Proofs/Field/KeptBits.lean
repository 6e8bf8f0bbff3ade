import WireProtocol.Proofs.Field.BitRanges

/-!
# The bits that a bitfield keeps

An integer or an enumeration keeps all bits that a bitfield gives it, whatever its own format is. A
bitmask keeps those of its own bytes and drops the others. So each bit that a bitfield read is
written again if the member in whose range it lies keeps it, and is written as zero otherwise
(`Bitfield.testBit_repacked`): it is the bitmasks with more bits than their own bytes hold that
stand between a bitfield and the bytes it was read from (`Bitfield.read_write_bytes`).
-/

set_option autoImplicit false

namespace WireProtocol

/-! ## Members -/

namespace Packable

/-- The field keeps a bit that it is given. -/
def keepsBit (p : Packable) (i : Nat) : Bool :=
  match p with
  | .bitmask f => decide (i < 8 * f.bytes)
  | _ => true

theorem testBit_toBits_setBits (p : Packable) (raw : UInt64) (bits : UInt32) {i : Nat}
    (hi : i < 64) :
    ((p.setBits raw bits).toBits bits).toNat.testBit i =
      (raw.toNat.testBit i && decide (i < bits.toNat) && p.keepsBit i) := by
  have hint (f : IntField) :
      ((setInt f raw bits).wire.toUInt64 &&& lowBits bits.toNat).toNat.testBit i =
        (raw.toNat.testBit i && decide (i < bits.toNat) && true) := by
    rw [toBits_setInt, UInt64.toNat_and, Nat.testBit_and, testBit_lowBits, decide_eq_true hi]
    simp only [Bool.and_true]
  cases p with
  | int f => exact hint f
  | enumeration f => exact hint f.storage
  | bitmask f =>
    simp only [setBits, toBits, keepsBit, BitmaskField.withValue, UInt64.toNat_and,
      Nat.testBit_and, testBit_lowBits, decide_eq_true hi, Bool.and_true]
    rw [Bool.and_assoc, Bool.and_assoc, Bool.and_comm (decide (i < 8 * f.bytes))]

/-- A field whose bits are those of its storage keeps all of them. -/
theorem fits_iff_keepsBit {p : Packable} {bits : UInt32} :
    p.Fits bits ↔ ∀ i < bits.toNat, p.keepsBit i = true := by
  cases p with
  | int f | enumeration f => exact ⟨fun _ _ _ => rfl, fun _ => trivial⟩
  | bitmask f =>
    simp only [Fits, keepsBit, decide_eq_true_eq]
    refine ⟨fun h i hi => Nat.lt_of_lt_of_le hi h, fun h => Nat.le_of_not_lt fun hlt => ?_⟩
    exact Nat.lt_irrefl _ (h _ hlt)

end Packable

/-! ## Bitfields -/

namespace Bitfield

/-- The member in whose range a bit lies keeps it. Bits are counted from the first member on. -/
def keepsBit : List BitMember → (i : Nat) → Bool
  | [], _ => false
  | m :: ms, i => if i < m.bits.toNat then m.field.keepsBit i else keepsBit ms (i - m.bits.toNat)

/-- **Members that were unpacked are packed** into the bits of the word that they keep. -/
theorem testBit_repacked {ms : List BitMember} {raw : UInt64} {pos : UInt32}
    (h : pos.toNat + totalBits ms ≤ 64) {i : Nat} (hi : i < 64) :
    (pack pos (unpack raw pos ms)).toNat.testBit i =
      (raw.toNat.testBit i && decide (pos.toNat ≤ i) && keepsBit ms (i - pos.toNat)) := by
  induction ms generalizing pos with
  | nil => rw [unpack, pack, UInt64.toNat_zero, Nat.zero_testBit, keepsBit, Bool.and_false]
  | cons m ms ih =>
    rw [totalBits_cons] at h
    have hnext : (pos + m.bits).toNat = pos.toNat + m.bits.toNat := toNat_next (by omega)
    rw [unpack, testBit_packed (by dsimp only; omega) hi]
    dsimp only
    rw [ih (by omega), hnext, Packable.testBit_toBits_setBits _ _ _ (by omega), UInt64.toNat_and,
      Nat.testBit_and, testBit_lowBits, UInt64.toNat_shiftRight, UInt32.toNat_toUInt64,
      Nat.testBit_shiftRight, keepsBit, ← Nat.sub_sub]
    by_cases hp : pos.toNat ≤ i
    · by_cases hb : i - pos.toNat < m.bits.toNat
      · -- the bit lies in the range of the first member
        rw [Nat.mod_eq_of_lt (by omega), Nat.add_sub_cancel' hp, if_pos hb,
          decide_eq_false (p := pos.toNat + m.bits.toNat ≤ i) (by omega)]
        simp [hp, hb, show i - pos.toNat < 64 by omega]
      · rw [if_neg hb, decide_eq_true (p := pos.toNat + m.bits.toNat ≤ i) (by omega)]
        simp [hp, hb]
    · simp [hp, show ¬ pos.toNat + m.bits.toNat ≤ i by omega]

/-- All bits are kept if those of each member are. -/
theorem keepsBit_iff {ms : List BitMember} :
    (∀ i < totalBits ms, keepsBit ms i = true) ↔ ∀ m ∈ ms, m.field.Fits m.bits := by
  induction ms with
  | nil => simp
  | cons m ms ih =>
    rw [List.forall_mem_cons, ← ih, Packable.fits_iff_keepsBit, totalBits_cons]
    constructor
    · refine fun h => ⟨fun i hi => ?_, fun i hi => ?_⟩
      · have hkeeps := h i (by omega)
        rwa [keepsBit, if_pos hi] at hkeeps
      · have hkeeps := h (m.bits.toNat + i) (by omega)
        rwa [keepsBit, if_neg (by omega), Nat.add_sub_cancel_left] at hkeeps
    · rintro ⟨hm, hms⟩ i hi
      rw [keepsBit]
      split
      · rename_i hlt
        exact hm i hlt
      · exact hms _ (by omega)

/-- Bytes of the size of the storage are written if their number is. -/
theorem write_eq_iff {b : Bitfield} {src : Bytes} (h : src.length = b.bytes) :
    b.write = src ↔
      ∀ i < 8 * b.bytes, b.written.testBit i = (src.toNat b.order).testBit i := by
  refine ⟨fun hw i _ => by rw [written, hw], fun hbits => ?_⟩
  have hsame : b.written = src.toNat b.order := by
    refine Nat.eq_of_testBit_eq fun i => ?_
    by_cases hi : i < 8 * b.bytes
    · exact hbits i hi
    · have hsrc : src.toNat b.order < 2 ^ i :=
        calc src.toNat b.order < 256 ^ src.length := Bytes.toNat_lt b.order src
          _ = 2 ^ (8 * b.bytes) := by rw [h, Bytes.pow_256]
          _ ≤ 2 ^ i := Nat.pow_le_pow_right (by decide) (by omega)
      rw [testBit_written, decide_eq_false hi, Bool.false_and, Nat.testBit_lt_two_pow hsrc]
  have hlen : b.write.length = src.length := (Bytes.length_ofNat _ _ _).trans h.symm
  calc b.write = Bytes.ofNat b.order b.write.length b.written :=
        (Bytes.ofNat_toNat b.order b.write).symm
    _ = Bytes.ofNat b.order src.length (src.toNat b.order) := by rw [hsame, hlen]
    _ = src := Bytes.ofNat_toNat b.order src

/-- Any bytes of the size of the storage are read, and those of their bits that the members keep
are written. -/
theorem read_keeps {b : Bitfield} (hwidth : totalBits b.members = 8 * b.bytes) {src : Bytes}
    (hsrc : src.length = b.bytes) : ∃ b', b.read src = .done b' [] ∧
      (∀ i < 8 * b.bytes, b'.written.testBit i =
        ((src.toNat b.order).testBit i && keepsBit b.members i)) ∧
      (b'.write = src ↔ ∀ i < 8 * b.bytes,
        (src.toNat b.order).testBit i = true → keepsBit b.members i = true) := by
  have hbounds := b.bounds
  have hread := read_front hsrc []
  rw [List.append_nil] at hread
  have hwritten : ∀ i < 8 * b.bytes, ({ b with
      members := unpack (.ofNat (src.toNat b.order)) 0 b.members } : Bitfield).written.testBit i =
        ((src.toNat b.order).testBit i && keepsBit b.members i) := by
    intro i hi
    rw [testBit_written, decide_eq_true (by exact hi), Bool.true_and]
    dsimp only
    rw [testBit_repacked (by rw [hwidth, UInt32.toNat_zero]; omega) (by omega),
      Bytes.toNat_word b.order (by omega), UInt32.toNat_zero, decide_eq_true (Nat.zero_le i),
      Bool.and_true, Nat.sub_zero]
  refine ⟨_, hread, hwritten, (write_eq_iff (by exact hsrc)).trans ?_⟩
  refine forall₂_congr fun i hi => ?_
  rw [hwritten i hi]
  cases (src.toNat b.order).testBit i <;> simp

/-- In the greatest number of so many bytes all bits are set. -/
theorem testBit_all_ones (order : ByteOrder) {bytes i : Nat} (hi : i < 8 * bytes) :
    ((Bytes.ofNat order bytes (2 ^ (8 * bytes) - 1)).toNat order).testBit i = true := by
  rw [Bytes.toNat_ofNat, Bytes.pow_256,
    Nat.mod_eq_of_lt (Nat.sub_lt (Nat.two_pow_pos _) Nat.one_pos), Nat.testBit_two_pow_sub_one,
    decide_eq_true hi]

/-- **What a bitfield writes after it has read.** It reads any bytes of its storage and writes
those of their bits that its members keep. So the bytes come back unless a bit is set that the
member in its place drops, and every input comes back if and only if no bitmask has more bits than
its own bytes hold. -/
theorem read_write_bytes {b : Bitfield} (hwidth : totalBits b.members = 8 * b.bytes) :
    (∀ src, src.length = b.bytes → ∃ b', b.read src = .done b' [] ∧
      (∀ i < 8 * b.bytes, b'.written.testBit i =
        ((src.toNat b.order).testBit i && keepsBit b.members i)) ∧
      (b'.write = src ↔ ∀ i < 8 * b.bytes,
        (src.toNat b.order).testBit i = true → keepsBit b.members i = true)) ∧
    ((∀ src, src.length = b.bytes → (b.read src).value.write = src) ↔
      ∀ m ∈ b.members, m.field.Fits m.bits) := by
  refine ⟨fun src => read_keeps hwidth, ?_⟩
  rw [← keepsBit_iff, hwidth]
  constructor
  · -- the input of which all bits are set tells which are dropped
    intro hall i hi
    have hlen : (Bytes.ofNat b.order b.bytes (2 ^ (8 * b.bytes) - 1)).length = b.bytes :=
      Bytes.length_ofNat _ _ _
    obtain ⟨b', hread, -, hiff⟩ := read_keeps hwidth hlen
    have hwrite := hall _ hlen
    rw [hread] at hwrite
    exact hiff.1 hwrite i hi (testBit_all_ones b.order hi)
  · intro hkeeps src hsrc
    obtain ⟨b', hread, -, hiff⟩ := read_keeps hwidth hsrc
    rw [hread]
    exact hiff.2 fun i hi _ => hkeeps i hi

end Bitfield

/-- A signed integer of one byte that is sent in twelve bits, and four flags. -/
def stretchedInteger : Bitfield where
  bytes := 2
  bounds := Bitfield.two_bytes
  order := .little
  members :=
    [⟨"level", 12, .int { format := ⟨.ofBytes 1, true, .big⟩, offset := 3 }⟩,
      ⟨"flags", 4, .bitmask (.ofBytes 1)⟩]

theorem stretchedInteger_read_write :
    Bitfield.totalBits stretchedInteger.members = 8 * stretchedInteger.bytes ∧
      (stretchedInteger.read [0xfe, 0xca]).value.write = [0xfe, 0xca] := by
  refine ⟨rfl, (Bitfield.read_write_bytes (b := stretchedInteger) rfl).2.2 ?_ [0xfe, 0xca] rfl⟩
  intro m hm
  rcases hm with _ | ⟨_, _ | ⟨_, ⟨⟩⟩⟩
  · trivial
  · show 4 ≤ 8
    decide

/-- Flags in one byte that are sent in two. -/
def stretchedFlags : Bitfield where
  bytes := 2
  bounds := Bitfield.two_bytes
  order := .big
  members := [⟨"flags", 16, .bitmask (.ofBytes 1)⟩]

/-- The bitfield is accepted, and its width is that of its storage, but it drops half of what it
reads. -/
theorem stretchedFlags_drops :
    Bitfield.ofMembers? "b" 2 .big [("flags", 16, .bitmask (.ofBytes 1))] = .ok stretchedFlags ∧
      Bitfield.totalBits stretchedFlags.members = 8 * stretchedFlags.bytes ∧
      (stretchedFlags.read [0xff, 0xff]).error = none ∧
      (stretchedFlags.read [0xff, 0xff]).value.write = [0x00, 0xff] :=
  ⟨rfl, rfl, rfl, by decide⟩

end WireProtocol
