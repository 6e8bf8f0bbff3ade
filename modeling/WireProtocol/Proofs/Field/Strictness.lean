import WireProtocol.Proofs.Field.Origin
import WireProtocol.Proofs.Field.RoundTrip

/-!
# Where strict fields are checked

A strict field refuses what is not valid when it is read, wherever it is nested: in lists, bundles,
optional fields and variants (`Field.read_strict`). The members of a bitfield are not read but given
bits of its storage, without that check, so a bitfield keeps to the strictness of its members only
if no word of its storage breaks it (`Bitfield.Safe`), as when no member is strict. Any other
bitfield reads a value that a strict member of it refuses, as `strictNibble_accepted` does.
-/

set_option autoImplicit false

namespace WireProtocol

/-! ## Strict fields and what is present in a value -/

/-- The field is valid if it is strict: an integer is in its ranges or special, the value of an
enumeration has a name, the reserved bits of a bitmask are as they have to be. -/
def Field.Obeys : Field → Prop
  | .int f => f.strict = true → f.isValid = true
  | .enumeration f =>
    (f.storage.strict = true → f.storage.isValid = true) ∧ (f.strict = true → f.isValid = true)
  | .bitmask f => f.strict = true → f.isValid = true
  | _ => True

/-- The first field is present in what the second one holds: it is sent as a part of it or packed
into a bitfield that is. -/
def Field.Present (g f : Field) : Prop :=
  Field.Sends g f ∨ ∃ b, Field.Sends (.bitfield b) f ∧ ∃ m ∈ b.members, g = m.field.toField

/-! ## What is read is checked -/

/-- An integer that is read is checked at the end, in either width. -/
theorem IntField.read_checked {f : IntField} {src : Bytes} (h : (f.read src).error = none) :
    ∃ (g : IntField) (rest : Bytes), f.read src = g.checked rest := by
  unfold read at h ⊢
  split at h
  · obtain ⟨taken, rest, -, -, heq⟩ := withBytes_ok h
    exact ⟨_, rest, heq⟩
  · split at h
    · cases h
    · cases h
    · rename_i chain rest hscan
      dsimp only at h ⊢
      split at h
      · split at h
        · rename_i hc
          exact ⟨_, rest, if_pos hc⟩
        · cases h
      · cases h

theorem IntField.read_obeys {f : IntField} {src : Bytes} (h : (f.read src).error = none) :
    (Field.int (f.read src).value).Obeys := by
  obtain ⟨g, rest, heq⟩ := read_checked h
  rw [heq] at h ⊢
  rw [checked_ok h]
  unfold checked at h
  split at h
  · cases h
  · rename_i hv
    intro (hs : g.strict = true)
    simpa [hs, Outcome.done] using hv

theorem EnumField.read_obeys {f : EnumField} {src : Bytes} (h : (f.read src).error = none) :
    (Field.enumeration (f.read src).value).Obeys := by
  rw [read_eq] at h ⊢
  obtain ⟨he, heq⟩ := Outcome.andThen_ok h
  rw [heq] at h ⊢
  unfold checked at h ⊢
  dsimp only at h ⊢
  split at h
  · cases h
  · rename_i hv
    rw [if_neg hv]
    refine ⟨IntField.read_obeys he, fun (hs : f.strict = true) => ?_⟩
    simpa [hs, Outcome.done] using hv

theorem BitmaskField.read_obeys {f : BitmaskField} {src : Bytes} (h : (f.read src).error = none) :
    (Field.bitmask (f.read src).value).Obeys := by
  unfold read at h ⊢
  obtain ⟨taken, rest, -, -, heq⟩ := withBytes_ok h
  rw [heq] at h ⊢
  dsimp only at h ⊢
  split at h
  · cases h
  · rename_i hv
    rw [if_neg hv]
    intro (hs : f.strict = true)
    simpa [hs, Outcome.done] using hv

/-- A field that was read is as strict as it says, apart from the fields inside it. -/
theorem Field.read_obeys {f : Field} {src : Bytes} (h : (f.read src).error = none) :
    (f.read src).value.Obeys := by
  cases f with
  | int f => exact IntField.read_obeys h
  | enumeration f => exact EnumField.read_obeys h
  | bitmask f => exact BitmaskField.read_obeys h
  | optional o =>
    rw [read_optional] at h ⊢
    split at h
    · rename_i hmode
      rw [if_pos hmode]
      trivial
    · rename_i hmode
      rw [if_neg hmode, (Outcome.andThen_ok h).2]
      trivial
  | variant v =>
    rw [Field.read]
    split <;> trivial
  | _ => trivial

/-! ## Bitfields -/

/-- Every word of the storage gives the members values that they obey with. -/
def Bitfield.Safe (b : Bitfield) : Prop :=
  ∀ raw : UInt64, raw.toNat < 256 ^ b.bytes → ∀ m ∈ Bitfield.unpack raw 0 b.members,
    m.field.toField.Obeys

/-- Nothing that is packed is strict. -/
def Packable.Lenient : Packable → Prop
  | .int f => f.strict = false
  | .enumeration f => f.storage.strict = false ∧ f.strict = false
  | .bitmask f => f.strict = false

theorem Packable.Lenient.setBits_obeys {p : Packable} (h : p.Lenient) (raw : UInt64)
    (bits : UInt32) : (p.setBits raw bits).toField.Obeys := by
  have hnot : ∀ {strict : Bool}, strict = false → ∀ {P : Prop}, strict = true → P := by
    rintro _ rfl _ ⟨⟩
  cases p with
  | int f | bitmask f => exact hnot h
  | enumeration f => exact ⟨hnot h.1, hnot h.2⟩

namespace Bitfield

/-- Members keep all but their values. -/
theorem mem_unpack {raw : UInt64} {pos : UInt32} {ms : List BitMember} {m : BitMember}
    (h : m ∈ unpack raw pos ms) : ∃ m' ∈ ms, ∃ slice, m.field = m'.field.setBits slice m'.bits := by
  induction ms generalizing pos with
  | nil => cases h
  | cons m' ms ih =>
    rw [unpack] at h
    rcases List.mem_cons.1 h with rfl | h
    · exact ⟨m', .head _, _, rfl⟩
    · obtain ⟨m', hm', hslice⟩ := ih h
      exact ⟨m', .tail _ hm', hslice⟩

/-- A bitfield without strict members has nothing to keep to. -/
theorem safe_of_lenient {b : Bitfield} (h : ∀ m ∈ b.members, m.field.Lenient) : b.Safe := by
  intro raw _ m hm
  obtain ⟨m', hm', slice, heq⟩ := mem_unpack hm
  rw [heq]
  exact (h m' hm').setBits_obeys slice m'.bits

/-- Reading a bitfield gives its members the bits of a word of its storage. -/
theorem read_unpack {b : Bitfield} {src : Bytes} (h : (b.read src).error = none) :
    ∃ raw : UInt64, raw.toNat < 256 ^ b.bytes ∧
      (b.read src).value = { b with members := unpack raw 0 b.members } := by
  unfold read at h ⊢
  obtain ⟨taken, rest, -, hl, heq⟩ := withBytes_ok h
  rw [heq]
  refine ⟨UInt64.ofNat (taken.toNat b.order), ?_, rfl⟩
  have hb := b.bounds
  rw [Bytes.toNat_word b.order (by omega), ← hl]
  exact Bytes.toNat_lt b.order taken

/-- Every word of the storage can be read. -/
theorem read_ofNat (b : Bitfield) {raw : UInt64} (h : raw.toNat < 256 ^ b.bytes) :
    b.read (Bytes.ofNat b.order b.bytes raw.toNat) =
      .done { b with members := unpack raw 0 b.members } [] := by
  have hl : (Bytes.ofNat b.order b.bytes raw.toNat).length = b.bytes := Bytes.length_ofNat _ _ _
  have hword : UInt64.ofNat ((Bytes.ofNat b.order b.bytes raw.toNat).toNat b.order) = raw := by
    rw [Bytes.toNat_ofNat, Nat.mod_eq_of_lt h, UInt64.ofNat_toNat]
  have happend := withBytes_append (Bytes.ofNat b.order b.bytes raw.toNat) [] b fun taken rest =>
    .done { b with members := unpack (UInt64.ofNat (taken.toNat b.order)) 0 b.members } rest
  rw [hl, List.append_nil, hword] at happend
  exact happend

end Bitfield

/-! ## Fields -/

/-- A bitfield that a field sends after it was read was unpacked by a bitfield inside it. -/
theorem Field.read_sends_bitfield {f : Field} {src : Bytes} (h : (f.read src).error = none)
    {b : Bitfield} (hb : Field.Sends (.bitfield b) (f.read src).value) :
    ∃ b', Field.Within (.bitfield b') f ∧ ∃ raw : UInt64, raw.toNat < 256 ^ b'.bytes ∧
      b.members = Bitfield.unpack raw 0 b'.members := by
  obtain ⟨f', hf', src', hread, heq⟩ := Field.read_sends h hb
  have hkind := Field.read_kind f' src'
  rw [← heq] at hkind
  cases f' with
  | bitfield b' =>
    obtain ⟨raw, hraw, hv⟩ := Bitfield.read_unpack (b := b') hread
    refine ⟨b', hf', raw, hraw, ?_⟩
    have heq : Field.bitfield b = .bitfield (b'.read src').value := heq
    rw [hv] at heq
    cases heq
    rfl
  | _ => cases hkind

/-- **Strictness holds wherever a field is nested**, if the bitfields inside it are safe: after a
read that succeeds, every strict integer, enumeration and bitmask that is present is valid. What is
not packed into a bitfield is valid in any case, and a bitfield that is not safe reads a member that
its strictness forbids. -/
theorem Field.read_strict (f : Field) :
    ((∀ b, Field.Within (.bitfield b) f → b.Safe) → ∀ src, (f.read src).error = none →
        ∀ g, Field.Present g (f.read src).value → g.Obeys) ∧
      (∀ src, (f.read src).error = none → ∀ g, Field.Sends g (f.read src).value → g.Obeys) ∧
      ∀ b, f = .bitfield b → (∀ src, (f.read src).error = none →
        ∀ g, Field.Present g (f.read src).value → g.Obeys) → b.Safe := by
  have hsends : ∀ src, (f.read src).error = none →
      ∀ g, Field.Sends g (f.read src).value → g.Obeys := by
    intro src h g hg
    obtain ⟨f', -, src', hread, rfl⟩ := Field.read_sends h hg
    exact Field.read_obeys hread
  refine ⟨fun hsafe src h g hg => ?_, hsends, ?_⟩
  · rcases hg with hg | ⟨b, hb, m, hm, rfl⟩
    · exact hsends src h g hg
    · obtain ⟨b', hb', raw, hraw, hmembers⟩ := Field.read_sends_bitfield h hb
      rw [hmembers] at hm
      exact hsafe b' hb' raw hraw m hm
  · rintro b rfl hall raw hraw m hm
    have hread : (Field.bitfield b).read (Bytes.ofNat b.order b.bytes raw.toNat) =
        .done (.bitfield { b with members := Bitfield.unpack raw 0 b.members }) [] := by
      rw [Field.read, b.read_ofNat hraw]
      rfl
    have hobeys := hall (Bytes.ofNat b.order b.bytes raw.toNat)
    rw [hread] at hobeys
    exact hobeys rfl _ (.inr ⟨_, .self, m, hm, rfl⟩)

theorem Bitfield.bounds_one : 1 ≤ 1 ∧ 1 ≤ 8 := by decide

/-- A bitfield of one byte. -/
def nibbles (low high : BitMember) : Bitfield := ⟨1, Bitfield.bounds_one, .big, [low, high]⟩

/-- Counted levels from 0 to 5, which are strict, and two nibbles, which are not. -/
def levels : Field :=
  .bundle (.plain
    [⟨"levels", .list ⟨.int { octet 0 with ranges := [(0, 5)], strict := true },
      .count (octet 0), none, []⟩⟩,
    ⟨"flags", .bitfield (nibbles ⟨"low", 4, .int (octet 0)⟩ ⟨"high", 4, .int (octet 0)⟩)⟩])

theorem levels_read_strict : (levels.read [2, 3, 5, 255]).error = none ∧
    ∀ g, Field.Present g (levels.read [2, 3, 5, 255]).value → g.Obeys := by
  have hread : (levels.read [2, 3, 5, 255]).error = none := by decide
  refine ⟨hread, (Field.read_strict levels).1 (fun b hb => ?_) _ hread⟩
  rcases hb with _ | ⟨_ | ⟨_, _ | ⟨_, ⟨⟩⟩⟩, _ | ⟨hc, hb⟩⟩
  · rcases hc with _ | ⟨_, ⟨⟩⟩
    rcases hb with _ | ⟨⟨⟩, _⟩
  · refine Bitfield.safe_of_lenient fun m hm => ?_
    rcases hm with _ | ⟨_, _ | ⟨_, ⟨⟩⟩⟩ <;> rfl
  · cases hc

/-- A strict enumeration of the kinds 0 and 1. -/
def kinds : EnumField := { storage := octet 0, names := [(0, "A"), (1, "B")], strict := true }

/-- A kind and four more bits in one byte. -/
def kindNibble : Bitfield :=
  nibbles ⟨"kind", 4, .enumeration kinds⟩ ⟨"rest", 4, .int (octet 0)⟩

/-- The byte 7 is no kind where it is read as one, but a bitfield reads it as its member. -/
theorem strictNibble_accepted :
    (kinds.read [7]).error = some (.invalidData (.unknownEnumValue 7)) ∧
      ((Field.bitfield kindNibble).read [7]).error = none ∧
      ∃ g, Field.Present g ((Field.bitfield kindNibble).read [7]).value ∧ ¬ g.Obeys := by
  let seven : EnumField := { kinds with storage := (octet 0).withValue 7 }
  refine ⟨by decide, by decide, .enumeration seven, ?_, ?_⟩
  · exact .inr ⟨_, .self, _, .head _, rfl⟩
  · intro h
    exact absurd (h.2 rfl) (by decide)

end WireProtocol
