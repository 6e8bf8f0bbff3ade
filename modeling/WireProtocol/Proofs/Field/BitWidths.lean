import Mathlib.Algebra.GroupWithZero.Nat
import WireProtocol.Proofs.Field.BitRanges
import WireProtocol.Proofs.Field.Composed

/-!
# The widths that a bitfield accepts

The constructor of a bitfield adds the widths of the members up in 32 bits and stops the program if
the sum overflows, so what it compares with the storage is their true sum
(`Bitfield.ofMembers?_eq`). `packChecked` and `unpackChecked` pack and unpack, and stop where a
position overflows or a word is shifted by all its bits or more. In a bitfield that was accepted
they never do (`Bitfield.ofMembers?_widths`).
-/

set_option autoImplicit false

namespace WireProtocol

namespace Bitfield

/-! ## Checked arithmetic -/

/-- A shift to the right by less than all bits. -/
def shiftRightChecked (w : UInt64) (n : UInt32) : Option UInt64 :=
  if n.toNat < 64 then some (w >>> n.toUInt64) else none

/-- A shift to the left by less than all bits. -/
def shiftLeftChecked (w : UInt64) (n : UInt32) : Option UInt64 :=
  if n.toNat < 64 then some (w <<< n.toUInt64) else none

/-- `Bitfield.unpack`, as long as no position overflows and no shift is too far. -/
def unpackChecked (raw : UInt64) : (pos : UInt32) → List BitMember → Option (List BitMember)
  | _, [] => some []
  | pos, m :: ms => do
    let slice := (← shiftRightChecked raw pos) &&& lowBits m.bits.toNat
    let others ← unpackChecked raw (← addChecked pos m.bits) ms
    return { m with field := m.field.setBits slice m.bits } :: others

/-- `Bitfield.pack`, as long as no position overflows and no shift is too far. -/
def packChecked : (pos : UInt32) → List BitMember → Option UInt64
  | _, [] => some 0
  | pos, m :: ms => do
    let part ← shiftLeftChecked (m.field.toBits m.bits) pos
    let others ← packChecked (← addChecked pos m.bits) ms
    return part ||| others

theorem addChecked_of_lt {a b : UInt32} (h : a.toNat + b.toNat < 2 ^ 32) :
    addChecked a b = some (a + b) := if_pos h

theorem addChecked_eq_some {a b c : UInt32} (h : addChecked a b = some c) :
    c.toNat = a.toNat + b.toNat := by
  unfold addChecked at h
  split at h
  · rename_i hlt
    cases h
    rw [UInt32.toNat_add, Nat.mod_eq_of_lt hlt]
  · cases h

/-! ## Sums -/

/-- **The sum of the widths** is the true one, if it is a 32-bit word. -/
theorem widthChecked_eq (n : UInt32) (ms : List BitMember) :
    widthChecked n ms =
      if n.toNat + totalBits ms < 2 ^ 32 then some (.ofNat (n.toNat + totalBits ms)) else none := by
  induction ms generalizing n with
  | nil => exact (congrArg some UInt32.ofNat_toNat.symm).trans (if_pos n.toNat_lt).symm
  | cons m ms ih =>
    rw [widthChecked, totalBits_cons, ← Nat.add_assoc]
    cases hadd : addChecked n m.bits with
    | none =>
      have hover : ¬ n.toNat + m.bits.toNat < 2 ^ 32 := fun h => by
        rw [addChecked_of_lt h] at hadd
        cases hadd
      rw [if_neg (by omega)]
      rfl
    | some next => exact (ih next).trans (by rw [addChecked_eq_some hadd])

/-! ## Runs -/

/-- A member with some bits that ends within a word begins in front of its end, and the next one is
within the word too. -/
theorem position_within {pos : UInt32} {m : BitMember} {ms : List BitMember} (hm : 0 < m.bits)
    (h : pos.toNat + totalBits (m :: ms) ≤ 64) :
    pos.toNat < 64 ∧ addChecked pos m.bits = some (pos + m.bits) ∧
      (pos + m.bits).toNat + totalBits ms ≤ 64 := by
  rw [UInt32.lt_iff_toNat_lt, UInt32.toNat_zero] at hm
  rw [totalBits_cons] at h
  have hnext : (pos + m.bits).toNat = pos.toNat + m.bits.toNat := toNat_next (by omega)
  exact ⟨by omega, addChecked_of_lt (by omega), by omega⟩

/-- **Unpacking members that end within a word** wraps no sum and shifts by less than a word. -/
theorem unpackChecked_of_le {pos : UInt32} {ms : List BitMember} (hpos : ∀ m ∈ ms, 0 < m.bits)
    (h : pos.toNat + totalBits ms ≤ 64) (raw : UInt64) :
    unpackChecked raw pos ms = some (unpack raw pos ms) := by
  induction ms generalizing pos with
  | nil => rfl
  | cons m ms ih =>
    obtain ⟨hm, hms⟩ := List.forall_mem_cons.1 hpos
    obtain ⟨hlt, hadd, hend⟩ := position_within hm h
    have hshift : shiftRightChecked raw pos = some (raw >>> pos.toUInt64) := if_pos hlt
    simp only [unpackChecked, hshift, hadd, ih hms hend, unpack, Option.bind_eq_bind,
      Option.bind_some, Option.pure_def]

/-- **Packing members that end within a word** wraps no sum and shifts by less than a word. -/
theorem packChecked_of_le {pos : UInt32} {ms : List BitMember} (hpos : ∀ m ∈ ms, 0 < m.bits)
    (h : pos.toNat + totalBits ms ≤ 64) : packChecked pos ms = some (pack pos ms) := by
  induction ms generalizing pos with
  | nil => rfl
  | cons m ms ih =>
    obtain ⟨hm, hms⟩ := List.forall_mem_cons.1 hpos
    obtain ⟨hlt, hadd, hend⟩ := position_within hm h
    have hshift : shiftLeftChecked (m.field.toBits m.bits) pos =
        some (m.field.toBits m.bits <<< pos.toUInt64) := if_pos hlt
    simp only [packChecked, hshift, hadd, ih hms hend, pack, Option.bind_eq_bind,
      Option.bind_some, Option.pure_def]

/-! ## The constructor -/

/-- The members as they are packed. -/
def packed (members : List PackedMember) : List BitMember :=
  members.filterMap fun m => m.2.2.packable?.map (BitMember.mk m.1 m.2.1)

/-- The bits that members ask for together. -/
def askedBits (members : List PackedMember) : Nat := (members.map fun m => m.2.1.toNat).sum

theorem map_bits_packed {members : List PackedMember}
    (h : ∀ m ∈ members, m.2.2.packable?.isSome = true) :
    (packed members).map (·.bits) = members.map (·.2.1) := by
  induction members with
  | nil => rfl
  | cons m ms ih =>
    obtain ⟨hm, hms⟩ := List.forall_mem_cons.1 h
    obtain ⟨p, hp⟩ := Option.isSome_iff_exists.1 hm
    have hcons : packed (m :: ms) = ⟨m.1, m.2.1, p⟩ :: packed ms := by
      rw [packed, List.filterMap_cons, hp]
      rfl
    rw [hcons, List.map_cons, List.map_cons, ih hms]

/-- Members are packed with some bits each if they ask for some. -/
theorem bits_packed_pos {members : List PackedMember}
    (h : ∀ m ∈ members, m.2.2.packable?.isSome = true) :
    (∀ m ∈ packed members, 0 < m.bits) ↔ ∀ m ∈ members, 0 < m.2.1 := by
  rw [← List.forall_mem_map (f := BitMember.bits) (P := (0 < ·)), map_bits_packed h,
    List.forall_mem_map]

theorem totalBits_eq_sum (ms : List BitMember) :
    totalBits ms = ((ms.map (·.bits)).map (·.toNat)).sum := by
  induction ms with
  | nil => rfl
  | cons m ms ih => rw [totalBits_cons, ih, List.map_cons, List.map_cons, List.sum_cons]

theorem totalBits_packed {members : List PackedMember}
    (h : ∀ m ∈ members, m.2.2.packable?.isSome = true) :
    totalBits (packed members) = askedBits members := by
  rw [totalBits_eq_sum, map_bits_packed h, List.map_map]
  rfl

/-- **What the constructor checks** of members that can be packed: that each has some bits and
then the sum of their widths, which stops the program if it is no 32-bit word. -/
theorem ofMembers?_eq {name : String} {bytes : Nat} {order : ByteOrder}
    {members : List PackedMember} (bounds : 1 ≤ bytes ∧ bytes ≤ 8)
    (hpack : ∀ m ∈ members, m.2.2.packable?.isSome = true) :
    ofMembers? name bytes order members =
      ((packed members).find? (·.bits == 0)).elim
        (if askedBits members < 2 ^ 32 then
          if askedBits members = 8 * bytes then
            .ok { bytes, bounds, order, members := packed members }
          else .error (.reported
            (.bitWidthMismatch name (.ofNat (askedBits members)) (.ofNat (8 * bytes))))
        else .error .overflow)
        fun m => .error (.reported (.invalid (.bitfieldZeroWidth name m.name))) := by
  have hfind : members.find? (·.2.2.packable?.isNone) = none := by
    rw [List.find?_eq_none]
    intro m hm hnone
    rw [Option.isNone_iff_eq_none] at hnone
    simpa [hnone] using hpack m hm
  have hwidth : widthChecked 0 (packed members) =
      if askedBits members < 2 ^ 32 then some (.ofNat (askedBits members)) else none := by
    rw [widthChecked_eq, totalBits_packed hpack, UInt32.toNat_zero, Nat.zero_add]
  unfold ofMembers?
  rw [dif_pos bounds, hfind]
  dsimp only
  rw [← packed]
  cases (packed members).find? (·.bits == 0) with
  | some m => rfl
  | none =>
    rw [hwidth, Option.elim_none]
    by_cases hlt : askedBits members < 2 ^ 32
    · have hsame : UInt32.ofNat (askedBits members) = UInt32.ofNat (8 * bytes) ↔
          askedBits members = 8 * bytes := by
        rw [← UInt32.toNat_inj, UInt32.toNat_ofNat', UInt32.toNat_ofNat', Nat.mod_eq_of_lt hlt,
          Nat.mod_eq_of_lt (by omega)]
      simp only [if_pos hlt, hsame]
    · simp only [if_neg hlt]

section
variable {name : String} {bytes : Nat} {order : ByteOrder} {members : List PackedMember}

/-- No member is found without bits if all ask for some. -/
theorem find?_packed_eq_none (hpack : ∀ m ∈ members, m.2.2.packable?.isSome = true) :
    (packed members).find? (·.bits == 0) = none ↔ ∀ m ∈ members, 0 < m.2.1 := by
  rw [List.find?_eq_none, ← bits_packed_pos hpack]
  simp only [beq_iff_eq, UInt32.pos_iff_ne_zero]

/-- All members have some bits, and their widths add up to those of the storage. -/
theorem ofMembers?_ok_iff (bounds : 1 ≤ bytes ∧ bytes ≤ 8)
    (hpack : ∀ m ∈ members, m.2.2.packable?.isSome = true) (b : Bitfield) :
    ofMembers? name bytes order members = .ok b ↔
      ((∀ m ∈ members, 0 < m.2.1) ∧ askedBits members = 8 * bytes) ∧
        b = { bytes, bounds, order, members := packed members } := by
  rw [ofMembers?_eq bounds hpack, ← find?_packed_eq_none hpack]
  cases (packed members).find? (·.bits == 0) with
  | some m => simp
  | none =>
    by_cases hsum : askedBits members = 8 * bytes
    · rw [Option.elim_none, if_pos (by omega), if_pos hsum]
      simp only [hsum, Except.ok.injEq, true_and, eq_comm]
    · by_cases hlt : askedBits members < 2 ^ 32 <;>
        simp only [Option.elim_none, hlt, hsum, if_true, if_false, and_false, false_and, reduceCtorEq]

/-- The program is stopped if all members have some bits and their widths add up to `2 ^ 32` or
more. -/
theorem ofMembers?_overflow_iff (bounds : 1 ≤ bytes ∧ bytes ≤ 8)
    (hpack : ∀ m ∈ members, m.2.2.packable?.isSome = true) :
    ofMembers? name bytes order members = .error .overflow ↔
      (∀ m ∈ members, 0 < m.2.1) ∧ 2 ^ 32 ≤ askedBits members := by
  rw [ofMembers?_eq bounds hpack, ← find?_packed_eq_none hpack]
  cases (packed members).find? (·.bits == 0) with
  | some m => simp
  | none =>
    by_cases hlt : askedBits members < 2 ^ 32
    · rw [Option.elim_none, if_pos hlt]
      refine iff_of_false ?_ fun h => Nat.not_le_of_lt hlt h.2
      split <;> exact nofun
    · rw [Option.elim_none, if_neg hlt]
      exact iff_of_true rfl ⟨rfl, Nat.le_of_not_lt hlt⟩

/-- Widths that add up to less than `2 ^ 32` do not stop the program. -/
theorem ofMembers?_ne_overflow (h : askedBits members < 2 ^ 32) :
    ofMembers? name bytes order members ≠ .error .overflow := by
  intro he
  have hover := he
  unfold ofMembers? at he
  split at he
  · rename_i bounds
    split at he
    · cases he
    · rename_i hfind
      have hpack : ∀ m ∈ members, m.2.2.packable?.isSome = true := by
        simpa [Option.isSome_iff_ne_none] using List.find?_eq_none.1 hfind
      exact Nat.not_le_of_lt h ((ofMembers?_overflow_iff bounds hpack).1 hover).2
  · cases he

theorem bounds_of_ofMembers? {b : Bitfield} (h : ofMembers? name bytes order members = .ok b) :
    1 ≤ bytes ∧ bytes ≤ 8 := by
  unfold ofMembers? at h
  split at h
  · assumption
  · cases h

/-- The members have some bits each, and together those of the storage. -/
structure Exact (b : Bitfield) : Prop where
  pos : ∀ m ∈ b.members, 0 < m.bits
  width : totalBits b.members = 8 * b.bytes

/-- **A bitfield that is accepted is exact.** -/
theorem exact_of_ofMembers? {b : Bitfield} (h : ofMembers? name bytes order members = .ok b) :
    b.Exact := by
  have hpack := (ofMembers?_ok h).2
  have bounds := bounds_of_ofMembers? h
  obtain ⟨⟨hpos, hsum⟩, rfl⟩ := (ofMembers?_ok_iff bounds hpack b).1 h
  exact ⟨(bits_packed_pos hpack).2 hpos, (totalBits_packed hpack).trans hsum⟩

/-- **Which widths a bitfield accepts.** Of members that can be packed it accepts those with some
bits each whose widths add up to the storage, whatever the widths are. A sum below `2 ^ 32` that is
not that of the storage is reported; from there on adding up the widths overflows and stops the
program, unless a member without bits is found before. A bitfield that was accepted is packed and
unpacked without a position that overflows or a shift by 64 bits or more. -/
theorem ofMembers?_widths (bounds : 1 ≤ bytes ∧ bytes ≤ 8)
    (hpack : ∀ m ∈ members, m.2.2.packable?.isSome = true) :
    ((∃ b, ofMembers? name bytes order members = .ok b) ↔
      (∀ m ∈ members, 0 < m.2.1) ∧ askedBits members = 8 * bytes) ∧
    (ofMembers? name bytes order members = .error .overflow ↔
      (∀ m ∈ members, 0 < m.2.1) ∧ 2 ^ 32 ≤ askedBits members) ∧
    ((∀ m ∈ members, 0 < m.2.1) → askedBits members < 2 ^ 32 → askedBits members ≠ 8 * bytes →
      ofMembers? name bytes order members = .error (.reported
        (.bitWidthMismatch name (.ofNat (askedBits members)) (.ofNat (8 * bytes))))) ∧
    ∀ b, ofMembers? name bytes order members = .ok b →
      packChecked 0 b.members = some (pack 0 b.members) ∧
      ∀ raw, unpackChecked raw 0 b.members = some (unpack raw 0 b.members) := by
  refine ⟨?_, ofMembers?_overflow_iff bounds hpack, fun hpos hlt hne => ?_, fun b hb => ?_⟩
  · simp only [ofMembers?_ok_iff bounds hpack, and_true, exists_and_left, exists_eq]
  · rw [ofMembers?_eq bounds hpack, (find?_packed_eq_none hpack).2 hpos]
    rw [Option.elim_none, if_pos hlt, if_neg hne]
  · have hexact := exact_of_ofMembers? hb
    have hbytes := b.bounds
    have hend : (0 : UInt32).toNat + totalBits b.members ≤ 64 := by
      rw [hexact.width, UInt32.toNat_zero]
      omega
    exact ⟨packChecked_of_le hexact.pos hend, unpackChecked_of_le hexact.pos hend⟩

end

end Bitfield

/-- Unsigned integers of one byte that ask for so many bits. -/
def askingFor (widths : List UInt32) : List PackedMember :=
  widths.map fun bits => ("part", bits, .int { format := ⟨.ofBytes 1, false, .big⟩ })

theorem askingFor_packable (widths : List UInt32) :
    ∀ m ∈ askingFor widths, m.2.2.packable?.isSome = true :=
  List.forall_mem_map.2 fun _ _ => rfl

/-- Three and five bits fill a byte. Three and four do not, and a part has to have some bits. -/
theorem askingFor_widths :
    (∃ b, Bitfield.ofMembers? "b" 1 .big (askingFor [3, 5]) = .ok b) ∧
      Bitfield.ofMembers? "b" 1 .big (askingFor [3, 4]) =
        .error (.reported (.bitWidthMismatch "b" 7 8)) ∧
      ¬ ∃ b, Bitfield.ofMembers? "b" 1 .big (askingFor [8, 0]) = .ok b := by
  have widths (ws : List UInt32) :=
    @Bitfield.ofMembers?_widths "b" 1 .big _ (by decide) (askingFor_packable ws)
  refine ⟨(widths [3, 5]).1.2 (by decide), ?_, fun h => ?_⟩
  · exact (widths [3, 4]).2.2.1 (by decide) (by decide) (by decide)
  · exact absurd ((widths [8, 0]).1.1 h).1 (by decide)

/-- Widths of `2 ^ 32 + 8` bits together are not refused for one byte but stop the program. -/
theorem wideParts_overflow :
    Bitfield.askedBits (askingFor [0x80000000, 0x80000000, 8]) = 2 ^ 32 + 8 ∧
      Bitfield.ofMembers? "b" 1 .big (askingFor [0x80000000, 0x80000000, 8]) =
        .error .overflow :=
  ⟨by decide, rfl⟩

end WireProtocol
