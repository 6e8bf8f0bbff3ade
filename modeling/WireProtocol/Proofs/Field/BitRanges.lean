import WireProtocol.Proofs.Field.Packing
import WireProtocol.Proofs.Field.Rereading

/-!
# Members of a bitfield do not interfere

Members whose widths add up to the storage take ranges of its bits that do not overlap. So each bit
of the word that they are packed into is one of the member in whose range it lies
(`testBit_packed`, `testBit_packed_front`), and unpacking gives every member what is left of its own number in its bits
(`unpack_pack`), whatever the others hold.
-/

set_option autoImplicit false

namespace WireProtocol

/-! ## What is left in some bits -/

/-- The integer that is read if only the lowest `bits` bits of its number are sent. A signed one
takes its sign from the highest of them. -/
def IntField.cut (f : IntField) (bits : Nat) : IntField :=
  if f.format.signed then f.setWire (.ofInt (f.wire.toInt.bmod (2 ^ bits)))
  else f.setWire (.ofInt (f.wire.toInt % (2 ^ bits : Nat)))

namespace Packable

/-- The field that is read if only the lowest `bits` bits are sent. A bitmask has no more bits than
its own bytes. -/
def cut (p : Packable) (bits : Nat) : Packable :=
  match p with
  | .int f => .int (f.cut bits)
  | .enumeration f => .enumeration { f with storage := f.storage.cut bits }
  | .bitmask f =>
    .bitmask { f with value := .ofNat (f.value.toNat % 2 ^ bits % 2 ^ (8 * f.bytes)) }

theorem setInt_low (f : IntField) {bits : UInt32} (h : bits.toNat ≤ 64) :
    setInt f (f.wire.toUInt64 &&& lowBits bits.toNat) bits = f.cut bits.toNat := by
  have hlow := toNat_mod_two_pow f.wire h
  unfold setInt IntField.cut wordOfBits
  rw [toNat_and_lowBits, Nat.min_eq_left h]
  cases f.format.signed with
  | true => rw [if_pos rfl, if_pos rfl, Nat.pow_eq, hlow, Int.emod_bmod]
  | false =>
    rw [if_neg Bool.false_ne_true, if_neg Bool.false_ne_true, ← Int64.ofInt_eq_ofNat, hlow]

/-- A field that takes its own bits has what is left of them. -/
theorem setBits_toBits (p : Packable) {bits : UInt32} (hb : bits.toNat ≤ 64) :
    p.setBits (p.toBits bits) bits = p.cut bits.toNat := by
  cases p with
  | int f => exact congrArg Packable.int (setInt_low f hb)
  | enumeration f =>
    exact congrArg (fun s => Packable.enumeration { f with storage := s }) (setInt_low f.storage hb)
  | bitmask f =>
    have hbytes := f.bounds
    have hlt : f.value.toNat % 2 ^ bits.toNat % 2 ^ (8 * f.bytes) < 2 ^ 64 :=
      calc f.value.toNat % 2 ^ bits.toNat % 2 ^ (8 * f.bytes)
          ≤ f.value.toNat := Nat.le_trans (Nat.mod_le _ _) (Nat.mod_le _ _)
        _ < 2 ^ 64 := f.value.toNat_lt
    refine congrArg (fun w => Packable.bitmask { f with value := w }) (UInt64.toNat_inj.1 ?_)
    show (f.value &&& lowBits bits.toNat &&& lowBits (8 * f.bytes)).toNat = _
    rw [toNat_and_lowBits, toNat_and_lowBits, Nat.min_eq_left hb, Nat.min_eq_left (by omega),
      UInt64.toNat_ofNat']
    exact (Nat.mod_eq_of_lt hlt).symm

/-- A member sends no bit behind its range. -/
theorem testBit_toBits {p : Packable} {bits : UInt32} {i : Nat} (h : bits.toNat ≤ i) :
    (p.toBits bits).toNat.testBit i = false := by
  unfold toBits
  dsimp only
  rw [UInt64.toNat_and, Nat.testBit_and, testBit_lowBits, decide_eq_false (Nat.not_lt_of_le h),
    Bool.false_and, Bool.and_false]

end Packable

namespace Bitfield

/-! ## Ranges -/

/-- Positions in a word do not wrap. -/
theorem toNat_next {pos bits : UInt32} (h : pos.toNat + bits.toNat ≤ 64) :
    (pos + bits).toNat = pos.toNat + bits.toNat := by
  rw [UInt32.toNat_add, Nat.mod_eq_of_lt (by omega)]

/-- The bits of a member in its place. -/
theorem testBit_shifted {m : BitMember} {pos : UInt32} (h : pos.toNat + m.bits.toNat ≤ 64) {i : Nat}
    (hi : i < 64) :
    (m.field.toBits m.bits <<< pos.toUInt64).toNat.testBit i =
      (decide (pos.toNat ≤ i) && (m.field.toBits m.bits).toNat.testBit (i - pos.toNat)) := by
  simp only [UInt64.toNat_shiftLeft, UInt32.toNat_toUInt64, Nat.testBit_mod_two_pow,
    Nat.testBit_shiftLeft, hi, decide_true, Bool.true_and]
  by_cases hp : pos.toNat < 64
  · rw [Nat.mod_eq_of_lt hp]
  · -- at the end of the word a member has no bits
    have hzero : m.bits.toNat = 0 := by omega
    have hbit : ∀ k, (m.field.toBits m.bits).toNat.testBit k = false := fun k =>
      Packable.testBit_toBits (by omega)
    simp only [hbit, Bool.and_false]

/-- A bit of packed members is one of the first member in its place, or one of the others. -/
theorem testBit_packed {m : BitMember} {ms : List BitMember} {pos : UInt32}
    (h : pos.toNat + m.bits.toNat ≤ 64) {i : Nat} (hi : i < 64) :
    (pack pos (m :: ms)).toNat.testBit i =
      (decide (pos.toNat ≤ i) && (m.field.toBits m.bits).toNat.testBit (i - pos.toNat) ||
        (pack (pos + m.bits) ms).toNat.testBit i) := by
  rw [pack, UInt64.toNat_or, Nat.testBit_or, testBit_shifted h hi]

/-- Packed members have no bit in front of their position. -/
theorem testBit_packed_front {ms : List BitMember} {pos : UInt32}
    (h : pos.toNat + totalBits ms ≤ 64) {i : Nat} (hi : i < pos.toNat) :
    (pack pos ms).toNat.testBit i = false := by
  induction ms generalizing pos with
  | nil => exact Nat.zero_testBit i
  | cons m ms ih =>
    rw [totalBits_cons] at h
    have hnext : (pos + m.bits).toNat = pos.toNat + m.bits.toNat := toNat_next (by omega)
    rw [testBit_packed (by omega) (by omega), decide_eq_false (by omega), Bool.false_and,
      Bool.false_or]
    exact ih (by omega) (by omega)

/-- **A bit outside the range of a member** does not depend on what the member holds. -/
theorem testBit_packed_outside {before after : List BitMember} {m : BitMember} {pos : UInt32}
    (h : pos.toNat + totalBits (before ++ m :: after) ≤ 64) {i : Nat} (hi : i < 64)
    (hout : i < pos.toNat + totalBits before ∨
      pos.toNat + totalBits before + m.bits.toNat ≤ i) (p : Packable) :
    (pack pos (before ++ { m with field := p } :: after)).toNat.testBit i =
      (pack pos (before ++ m :: after)).toNat.testBit i := by
  induction before generalizing pos with
  | nil =>
    have hpart : ∀ q : Packable, (decide (pos.toNat ≤ i) &&
        (q.toBits m.bits).toNat.testBit (i - pos.toNat)) = false := by
      intro q
      rcases hout with hlt | hle
      · rw [decide_eq_false (by simpa using hlt), Bool.false_and]
      · rw [Packable.testBit_toBits (by rw [totalBits_nil] at hle; omega), Bool.and_false]
    simp only [List.nil_append, totalBits_cons] at h ⊢
    rw [testBit_packed (by dsimp only; omega) hi, testBit_packed (by omega) hi, hpart, hpart]
  | cons m' before ih =>
    simp only [List.cons_append, totalBits_cons] at h hout ⊢
    have hnext : (pos + m'.bits).toNat = pos.toNat + m'.bits.toNat := toNat_next (by omega)
    rw [testBit_packed (by omega) hi, testBit_packed (by omega) hi, ih (by omega) (by omega)]

/-- The range of the first member holds its bits. -/
theorem slice_packed {m : BitMember} {ms : List BitMember} {raw : UInt64} {pos : UInt32}
    (h : pos.toNat + totalBits (m :: ms) ≤ 64)
    (hraw : ∀ i, pos.toNat ≤ i → i < pos.toNat + totalBits (m :: ms) →
      raw.toNat.testBit i = (pack pos (m :: ms)).toNat.testBit i) :
    (raw >>> pos.toUInt64) &&& lowBits m.bits.toNat = m.field.toBits m.bits := by
  rw [totalBits_cons] at h hraw
  have hnext : (pos + m.bits).toNat = pos.toNat + m.bits.toNat := toNat_next (by omega)
  refine eq_of_testBit fun i hi => ?_
  rw [UInt64.toNat_and, Nat.testBit_and, testBit_lowBits, UInt64.toNat_shiftRight,
    UInt32.toNat_toUInt64, Nat.testBit_shiftRight]
  by_cases hb : i < m.bits.toNat
  · -- the members behind it begin after its range
    have hfront : (pack (pos + m.bits) ms).toNat.testBit (pos.toNat + i) = false :=
      testBit_packed_front (by omega) (by omega)
    rw [Nat.mod_eq_of_lt (by omega), hraw _ (by omega) (by omega),
      testBit_packed (by omega) (by omega), hfront, Nat.add_sub_cancel_left]
    simp [hb, hi]
  · rw [Packable.testBit_toBits (Nat.le_of_not_lt hb), decide_eq_false hb, Bool.false_and,
      Bool.and_false]

/-- **Unpacking gives each member what is left of its own number.** -/
theorem unpack_pack {ms : List BitMember} {raw : UInt64} {pos : UInt32}
    (h : pos.toNat + totalBits ms ≤ 64)
    (hraw : ∀ i, pos.toNat ≤ i → i < pos.toNat + totalBits ms →
      raw.toNat.testBit i = (pack pos ms).toNat.testBit i) :
    unpack raw pos ms = ms.map fun m => { m with field := m.field.cut m.bits.toNat } := by
  induction ms generalizing pos with
  | nil => rfl
  | cons m ms ih =>
    have hslice := slice_packed h hraw
    rw [totalBits_cons] at h hraw
    have hnext : (pos + m.bits).toNat = pos.toNat + m.bits.toNat := toNat_next (by omega)
    rw [unpack, List.map_cons, hslice, m.field.setBits_toBits (by omega)]
    refine congrArg (_ :: ·) (ih (by omega) fun i hi hlt => ?_)
    -- behind its range the first member has no bits
    rw [hraw i (by omega) (by omega), testBit_packed (by omega) (by omega),
      Packable.testBit_toBits (by omega), Bool.and_false, Bool.false_or]

/-! ## Bitfields -/

/-- Two bytes are within the bounds of a storage. -/
theorem two_bytes : 1 ≤ 2 ∧ 2 ≤ 8 := by decide

/-- A bitfield takes any bytes of the size of its storage, whatever comes behind them. -/
theorem read_front {b : Bitfield} {src : Bytes} (h : src.length = b.bytes) (rest : Bytes) :
    b.read (src ++ rest) =
      .done { b with members := unpack (.ofNat (src.toNat b.order)) 0 b.members } rest := by
  have happend := withBytes_append src rest b fun taken rest =>
    .done { b with members := unpack (.ofNat (taken.toNat b.order)) 0 b.members } rest
  rw [h] at happend
  exact happend

/-- The number that a bitfield is written as. -/
def written (b : Bitfield) : Nat := Bytes.toNat b.order b.write

theorem testBit_written (b : Bitfield) (i : Nat) :
    b.written.testBit i = (decide (i < 8 * b.bytes) && (pack 0 b.members).toNat.testBit i) := by
  rw [written, write, Bytes.toNat_ofNat, Bytes.pow_256, Nat.testBit_mod_two_pow]

/-- **The members of a bitfield do not interfere.** If their widths add up to the storage, what is
written is read back, by the same bitfield with any values, as what is left of each member's own
number in its bits, and another field in the place of a member changes no bit outside its range. -/
theorem read_write_members {b : Bitfield} (hwidth : totalBits b.members = 8 * b.bytes) :
    (∀ ms rest, List.Forall₂ BitMember.Twin b.members ms →
      ({ b with members := ms } : Bitfield).read (b.write ++ rest) = .done { b with
        members := b.members.map fun m => { m with field := m.field.cut m.bits.toNat } } rest) ∧
    ∀ before m after p i, b.members = before ++ m :: after →
      (i < totalBits before ∨ totalBits before + m.bits.toNat ≤ i) →
      ({ b with members := before ++ { m with field := p } :: after } : Bitfield).written.testBit i =
        b.written.testBit i := by
  have hbounds := b.bounds
  constructor
  · intro ms rest ha
    have hlen : b.write.length = b.bytes := Bytes.length_ofNat _ _ _
    have htake := withBytes_append b.write rest ({ b with members := ms } : Bitfield)
    rw [hlen] at htake
    rw [read, htake]
    have hmembers : unpack (UInt64.ofNat b.written) 0 ms =
        b.members.map fun m => { m with field := m.field.cut m.bits.toNat } := by
      rw [unpack_twins ha]
      refine unpack_pack (by rw [hwidth, UInt32.toNat_zero]; omega) fun i _ hi => ?_
      rw [hwidth, UInt32.toNat_zero, Nat.zero_add] at hi
      rw [written, Bytes.toNat_word b.order (by omega)]
      rw [← written, testBit_written, decide_eq_true hi, Bool.true_and]
    exact congrArg (fun members => Outcome.done ({ b with members } : Bitfield) rest) hmembers
  · intro before m after p i hb hout
    rw [hb] at hwidth
    rw [testBit_written, testBit_written, hb]
    by_cases hi : i < 8 * b.bytes
    · have hfits : (0 : UInt32).toNat + totalBits (before ++ m :: after) ≤ 64 := by
        rw [hwidth, UInt32.toNat_zero]
        omega
      rw [testBit_packed_outside hfits (by omega) (by simpa using hout) p]
    · dsimp only
      rw [decide_eq_false hi, Bool.false_and, Bool.false_and]

end Bitfield

/-- Ten signed bits that are sent as the value plus three. -/
def highMember (v : Int64) : BitMember :=
  ⟨"high", 10, .int { format := ⟨.ofBytes 2, true, .big⟩, value := v, offset := 3 }⟩

/-- Four unsigned bits, two flags and ten signed bits. -/
def threeMembers (low : Int64) (flags : UInt64) (high : Int64) : Bitfield where
  bytes := 2
  bounds := by decide
  order := .big
  members :=
    [⟨"low", 4, .int { format := ⟨.ofBytes 1, false, .big⟩, value := low }⟩,
      ⟨"flags", 2, .bitmask ((BitmaskField.ofBytes 1).withDefault flags)⟩] ++
      [highMember high]

/-- Values that are too large for their bits are cut; another value of the last member leaves the
bit in front of its range. -/
theorem threeMembers_read_write :
    Bitfield.totalBits (threeMembers 31 5 600).members = 8 * (threeMembers 31 5 600).bytes ∧
      (threeMembers 0 0 0).read ((threeMembers 31 5 600).write ++ [7]) =
        .done (threeMembers 15 1 (-424)) [7] ∧
      (threeMembers 31 5 1000).written.testBit 5 = (threeMembers 31 5 600).written.testBit 5 := by
  obtain ⟨hread, houtside⟩ := Bitfield.read_write_members (b := threeMembers 31 5 600) rfl
  refine ⟨rfl, ?_, ?_⟩
  · refine (hread (threeMembers 0 0 0).members [7] ?_).trans rfl
    exact .cons (.mk _ _ (.int _ 0)) (.cons (.mk _ _ (.bitmask _ 0))
      (.cons (.mk _ _ (.int _ 0)) .nil))
  · exact houtside _ (highMember 600) [] (highMember 1000).field 5 rfl (.inl (by decide))

end WireProtocol
