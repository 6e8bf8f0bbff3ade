import WireProtocol.Field.View
import WireProtocol.Proofs.Field.BitWidths

/-!
# What a bitfield can hold

An integer that does not fit in its bytes is not written. A bitfield is always written: it sends the
low bits of the number of each member, whatever the number is. What a member then has when the bytes
are read is its own value exactly if that value is one of those that its bits stand for
(`Packable.HeldIn`), and so a bitfield keeps its value if and only if all members are held in their
bits (`Bitfield.read_write_values`).
-/

set_option autoImplicit false

namespace WireProtocol

/-! ## Integers -/

/-- The low bits of a word stand for it if and only if it fits in them. -/
theorem wordOfBits_low_iff {signed : Bool} {w : Int64} {bits : Nat} (h0 : 0 < bits)
    (h : bits ≤ 64) :
    wordOfBits signed (w.toUInt64.toNat % 2 ^ bits) bits = w ↔ fitsBits signed w bits = true := by
  refine ⟨fun hw => ?_, wordOfBits_low h0 h⟩
  rw [← hw]
  exact fitsBits_wordOfBits signed h0 (Nat.mod_lt _ (Nat.two_pow_pos bits))

namespace IntField

/-- Two numbers are sent for different values. -/
theorem value_setWire_eq_iff (f : IntField) (w : Int64) :
    (f.setWire w).value = f.value ↔ w = f.wire :=
  Int64.sub_eq_iff_eq_add

/-- What is left of an integer in some bits is the word that they stand for. -/
theorem cut_eq (f : IntField) {bits : UInt32} (h : bits.toNat ≤ 64) :
    f.cut bits.toNat =
      f.setWire (wordOfBits f.format.signed (f.wire.toUInt64.toNat % 2 ^ bits.toNat)
        bits.toNat) := by
  rw [← Packable.setInt_low f h, Packable.setInt, toNat_and_lowBits, Nat.min_eq_left h]

theorem value_cut_eq_iff (f : IntField) {bits : UInt32} (h0 : 0 < bits.toNat)
    (h : bits.toNat ≤ 64) :
    (f.cut bits.toNat).value = f.value ↔
      fitsBits f.format.signed f.wire bits.toNat = true := by
  rw [f.cut_eq h, value_setWire_eq_iff, wordOfBits_low_iff h0 h]

end IntField

/-! ## Members -/

namespace Packable

/-- The value can be told from so many bits: the number that is sent for it is one of those that
the bits stand for, and a bitmask has no bits behind its own bytes. -/
def HeldIn (p : Packable) (bits : Nat) : Prop :=
  match p with
  | .int f => fitsBits f.format.signed f.wire bits = true
  | .enumeration f => fitsBits f.storage.format.signed f.storage.wire bits = true
  | .bitmask f => f.value.toNat < 2 ^ bits ∧ f.value.toNat < 256 ^ f.bytes

instance (p : Packable) (bits : Nat) : Decidable (p.HeldIn bits) := by
  unfold HeldIn
  cases p <;> infer_instance

/-- **What is left of a member in its bits** has its value if and only if they hold it. -/
theorem value_cut_eq_iff {p : Packable} {bits : UInt32} (h0 : 0 < bits.toNat)
    (h : bits.toNat ≤ 64) : (p.cut bits.toNat).value = p.value ↔ p.HeldIn bits.toNat := by
  cases p with
  | int f =>
    refine Iff.trans ?_ (f.value_cut_eq_iff h0 h)
    exact ⟨Value.int.inj, congrArg Value.int⟩
  | enumeration f =>
    refine Iff.trans ?_ (f.storage.value_cut_eq_iff h0 h)
    exact ⟨Value.int.inj, congrArg Value.int⟩
  | bitmask f =>
    have hlt : f.value.toNat % 2 ^ bits.toNat % 2 ^ (8 * f.bytes) < 2 ^ 64 :=
      calc f.value.toNat % 2 ^ bits.toNat % 2 ^ (8 * f.bytes)
          ≤ f.value.toNat := Nat.le_trans (Nat.mod_le _ _) (Nat.mod_le _ _)
        _ < 2 ^ 64 := f.value.toNat_lt
    have hcut : (Packable.cut (.bitmask f) bits.toNat).value = Packable.value (.bitmask f) ↔
        f.value.toNat % 2 ^ bits.toNat % 2 ^ (8 * f.bytes) = f.value.toNat := by
      simp only [cut, value, Value.bits.injEq]
      rw [← UInt64.toNat_inj, UInt64.toNat_ofNat', Nat.mod_eq_of_lt hlt]
    rw [hcut, HeldIn, Bytes.pow_256]
    constructor
    · intro heq
      have hbits := Nat.mod_lt f.value.toNat (Nat.two_pow_pos bits.toNat)
      have hbytes :=
        Nat.mod_lt (f.value.toNat % 2 ^ bits.toNat) (Nat.two_pow_pos (8 * f.bytes))
      have hle := Nat.mod_le (f.value.toNat % 2 ^ bits.toNat) (2 ^ (8 * f.bytes))
      omega
    · rintro ⟨hbits, hbytes⟩
      rw [Nat.mod_eq_of_lt hbits, Nat.mod_eq_of_lt hbytes]

end Packable

/-! ## Bitfields -/

namespace Bitfield

theorem totalBits_ge {ms : List BitMember} {m : BitMember} (h : m ∈ ms) :
    m.bits.toNat ≤ totalBits ms := by
  induction h with
  | head => exact Nat.le_add_right _ _
  | tail _ _ ih => exact Nat.le_trans ih (Nat.le_add_left _ _)

/-- The bits of a member are at most those of a word. -/
theorem Exact.bits_le {b : Bitfield} (h : b.Exact) {m : BitMember} (hm : m ∈ b.members) :
    0 < m.bits.toNat ∧ m.bits.toNat ≤ 64 := by
  have hbounds := b.bounds
  have hle := totalBits_ge hm
  have hpos := h.pos m hm
  rw [UInt32.lt_iff_toNat_lt, UInt32.toNat_zero] at hpos
  rw [h.width] at hle
  exact ⟨hpos, by omega⟩

/-- Any bitfield of those members reads what is written as what is left of each member. -/
theorem Exact.read_write {b : Bitfield} (h : b.Exact) {ms : List BitMember}
    (hms : List.Forall₂ BitMember.Twin b.members ms) (rest : Bytes) :
    ({ b with members := ms } : Bitfield).read (b.write ++ rest) = .done { b with
      members := b.members.map fun m => { m with field := m.field.cut m.bits.toNat } } rest := by
  have hbounds := b.bounds
  have hlen : b.write.length = b.bytes := Bytes.length_ofNat _ _ _
  have hmembers : unpack (.ofNat b.written) 0 ms =
      b.members.map fun m => { m with field := m.field.cut m.bits.toNat } := by
    rw [unpack_twins hms]
    refine unpack_pack (by rw [h.width, UInt32.toNat_zero]; omega) fun i _ hi => ?_
    rw [h.width, UInt32.toNat_zero, Nat.zero_add] at hi
    have hword : (UInt64.ofNat b.written).toNat = b.written :=
      Bytes.toNat_word b.order (by omega)
    rw [hword, testBit_written, decide_eq_true hi, Bool.true_and]
  have hread := read_front (b := { b with members := ms }) hlen rest
  rw [← hmembers]
  exact hread

/-- **A bitfield holds what it writes if its members are held in their bits, and only then.** It
never fails to be written. What it wrote is read, by the same bitfield with any values and with any
bytes behind it, and a member then has the value it had if and only if its bits hold it. -/
theorem read_write_values {b : Bitfield} (h : b.Exact) :
    (Field.bitfield b).write = .ok b.write ∧
    ∀ ms rest, List.Forall₂ BitMember.Twin b.members ms → ∃ b',
      ({ b with members := ms } : Bitfield).read (b.write ++ rest) = .done b' rest ∧
      List.Forall₂ (fun m m' => m'.name = m.name ∧
        (m'.field.value = m.field.value ↔ m.field.HeldIn m.bits.toNat)) b.members b'.members ∧
      ((Field.bitfield b').value = (Field.bitfield b).value ↔
        ∀ m ∈ b.members, m.field.HeldIn m.bits.toNat) := by
  refine ⟨by rw [Field.write], fun ms rest hms => ⟨_, h.read_write hms rest, ?_, ?_⟩⟩
  · rw [List.forall₂_map_right_iff, List.forall₂_same]
    intro m hm
    obtain ⟨h0, hle⟩ := h.bits_le hm
    exact ⟨rfl, Packable.value_cut_eq_iff h0 hle⟩
  · simp only [Field.value, Value.bundle.injEq, List.map_map, List.map_inj_left]
    refine forall₂_congr fun m hm => ?_
    obtain ⟨h0, hle⟩ := h.bits_le hm
    rw [← Packable.value_cut_eq_iff h0 hle]
    simp only [Function.comp_apply, Prod.mk.injEq, true_and]

end Bitfield

/-- A signed level in ten bits that is sent as the value plus three, a mode and four flags. -/
def gauge (level mode : Int64) (flags : UInt64) : Bitfield where
  bytes := 2
  bounds := Bitfield.two_bytes
  order := .little
  members :=
    [⟨"level", 10, .int { format := ⟨.ofBytes 2, true, .big⟩, value := level, offset := 3 }⟩,
      ⟨"mode", 2, .enumeration { storage := { format := ⟨.ofBytes 1, false, .big⟩, value := mode } }⟩,
      ⟨"flags", 4, .bitmask ((BitmaskField.ofBytes 1).withDefault flags)⟩]

theorem gauge_exact (level mode : Int64) (flags : UInt64) : (gauge level mode flags).Exact := by
  refine ⟨fun m hm => ?_, rfl⟩
  simp only [gauge, List.mem_cons, List.not_mem_nil, or_false] at hm
  rcases hm with rfl | rfl | rfl
  · show (0 : UInt32) < 10
    decide
  · show (0 : UInt32) < 2
    decide
  · show (0 : UInt32) < 4
    decide

/-- The least level that ten bits hold is read back, and one below it is not. -/
theorem gauge_read_write :
    (gauge 0 3 9).Exact ∧
    (∃ b, (gauge 0 0 0).read ((gauge (-515) 3 9).write ++ [7]) = .done b [7] ∧
      (Field.bitfield b).value = (Field.bitfield (gauge (-515) 3 9)).value) ∧
    ∃ b, (gauge 0 0 0).read ((gauge (-516) 3 9).write ++ [7]) = .done b [7] ∧
      (Field.bitfield b).value ≠ (Field.bitfield (gauge (-516) 3 9)).value := by
  have htwins (level mode : Int64) (flags : UInt64) :
      List.Forall₂ BitMember.Twin (gauge level mode flags).members (gauge 0 0 0).members :=
    .cons (.mk _ _ (.int _ 0)) (.cons (.mk _ _ (.enumeration _ 0))
      (.cons (.mk _ _ (.bitmask _ 0)) .nil))
  refine ⟨gauge_exact 0 3 9, ?_, ?_⟩
  · obtain ⟨b, hread, -, hvalue⟩ :=
      (Bitfield.read_write_values (gauge_exact (-515) 3 9)).2 _ [7] (htwins _ _ _)
    exact ⟨b, hread, hvalue.2 (by decide)⟩
  · obtain ⟨b, hread, -, hvalue⟩ :=
      (Bitfield.read_write_values (gauge_exact (-516) 3 9)).2 _ [7] (htwins _ _ _)
    exact ⟨b, hread, fun heq => absurd (hvalue.1 heq) (by decide)⟩

/-- An integer of one byte with the value 256. -/
def overfullByte : IntField := { format := ⟨.ofBytes 1, false, .big⟩, value := 256 }

/-- The integer is not written, as it does not fit in its byte. As the only member of a bitfield of
one byte it is written as zero. -/
theorem overfullByte_truncated :
    overfullByte.write = .error (.overflow (.fixedWidth 256 1)) ∧
      ∃ b, Bitfield.ofMembers? "b" 1 .big [("a", 8, .int overfullByte)] = .ok b ∧
        (Field.bitfield b).write = .ok [0] ∧ (b.read [0]).error = none ∧
        b.members.map (·.field.value) = [.int 256] ∧
        (b.read [0]).value.members.map (·.field.value) = [.int 0] :=
  ⟨rfl, _, rfl, rfl, rfl, rfl, rfl⟩

end WireProtocol
