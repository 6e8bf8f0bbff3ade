import WireProtocol.Proofs.Field.Length
import WireProtocol.Proofs.Field.Overflow
import WireProtocol.Proofs.Frame.RoundTrip

/-!
# The predicted length of a frame

`layersLength` is a recursion of its own, which a size layer trusts before anything inside it is
written. A layer in front of its inside is predicted with the value that it will send; a checksum
behind its inside is predicted with the value that its field rests on, because what it covers is not
known yet. So the prediction is exact at every depth just if each such checksum takes as many bytes
as its resting field (`Frame.write_predicted`), as it does in a width that cannot vary
(`checksumsPredicted_of_rigid`). A checksum in groups of seven bits outgrows the prediction
(`looseFrame_mispredicted`).
-/

set_option autoImplicit false

namespace WireProtocol

/-! ## Widths that cannot vary -/

/-- All values of the field take the same count of bytes. -/
def IntField.Rigid (f : IntField) : Prop := f.minLength = f.maxLength

namespace IntField

theorem rigid_of_isFixed {f : IntField} (h : f.format.width.isFixed = true) : f.Rigid := by
  unfold Rigid minLength maxLength
  cases hw : f.format.width with
  | fixed n bounds => rfl
  | var min max bounds =>
    rw [hw] at h
    cases h

theorem Rigid.length_eq {f : IntField} (h : f.Rigid) : f.length = f.minLength := by
  unfold Rigid at h
  unfold length IntFormat.encodedLength
  unfold minLength maxLength at *
  cases hw : f.format.width with
  | fixed n bounds => rfl
  | var min max bounds =>
    rw [hw] at h
    obtain rfl : min = max := h
    exact Nat.max_eq_left (Nat.min_le_right _ _)

/-- A rigid field is as long with another value. -/
theorem Rigid.length_withValue {f : IntField} (h : f.Rigid) (v : Int64) :
    (f.withValue v).length = f.length := by
  have hv : (f.withValue v).Rigid := h
  rw [hv.length_eq, h.length_eq]
  rfl

end IntField

/-! ## Checksums and the predicted length -/

/-- A checksum in front of its inside, for which room is left, has a fixed width. -/
def Layer.FixedInFront (l : Layer) : Prop :=
  ∀ field algorithm, l.kind = .checksum field algorithm .before →
    field.format.width.isFixed = true

/-- Each checksum behind its inside is sent in as many bytes as the field that it rests on. -/
def ChecksumsPredicted (m : Message) (layers : List Layer) : Prop :=
  ∀ ⦃name field algorithm inside⦄,
    ⟨name, .checksum field algorithm .after⟩ :: inside <:+ layers →
    ∀ ⦃covered c⦄, writeLayers m inside = .ok covered →
      (checksumField field algorithm covered).write = .ok c → c.length = field.length

theorem ChecksumsPredicted.inside {m : Message} {l : Layer} {ls : List Layer}
    (h : ChecksumsPredicted m (l :: ls)) : ChecksumsPredicted m ls :=
  fun _ _ _ _ hs => h (hs.trans (List.suffix_cons l ls))

/-- Checksums in a width that cannot vary are predicted, whatever they cover. -/
theorem checksumsPredicted_of_rigid {layers : List Layer}
    (h : ∀ l ∈ layers, ∀ field algorithm, l.kind = .checksum field algorithm .after → field.Rigid)
    (m : Message) : ChecksumsPredicted m layers := by
  intro name field algorithm inside hs covered c _ hc
  have hr : field.Rigid := h _ (hs.subset (.head _)) field algorithm rfl
  rw [IntField.length_write hc]
  exact hr.length_withValue _

section
variable {m : Message} {ls : List Layer}

/-- Layers whose checksums are predicted send as many bytes as they predict. -/
theorem length_writeLayers (hfront : ∀ l ∈ ls, l.FixedInFront)
    (hlast : ls.Pairwise fun l _ => l.isPayload = false) (hp : ChecksumsPredicted m ls) {b : Bytes}
    (h : writeLayers m ls = .ok b) : b.length = layersLength m ls := by
  induction ls generalizing b with
  | nil =>
    cases h
    rfl
  | cons l ls ih =>
    obtain ⟨hpayload, hlast⟩ := List.pairwise_cons.1 hlast
    have hl := hfront l (.head _)
    have ih := fun d => @ih (fun l hl' => hfront l (.tail _ hl')) hlast hp.inside d
    obtain ⟨name, kind⟩ := l
    cases kind with
    | sync field | transport field version =>
      obtain ⟨c, d, hc, hd, rfl⟩ := writeLayers_header_inv rfl h
      rw [List.length_append, Field.length_write hc, Field.length, ih d hd, layersLength]
    | id field =>
      obtain ⟨c, d, hc, hd, rfl⟩ := writeLayers_header_inv rfl h
      rw [List.length_append, Field.length_write hc, ih d hd, layersLength]
    | size field max =>
      obtain ⟨c, d, hc, hd, hlength, -, rfl⟩ := writeLayers_size_inv h
      rw [List.length_append, IntField.length_write hc, hlength, layersLength]
    | payload =>
      obtain rfl := inside_payload hpayload
      simp only [writeLayers] at h
      exact membersLength_write h
    | checksum field algorithm placement =>
      cases placement with
      | before =>
        obtain ⟨c, d, hc, hd, rfl⟩ := writeLayers_before_inv h
        have hfixed : (checksumField field algorithm d).length = field.length :=
          (IntField.rigid_of_isFixed (hl field algorithm rfl)).length_withValue _
        rw [List.length_append, IntField.length_write hc, hfixed, ih d hd, layersLength]
      | after =>
        obtain ⟨c, d, hc, hd, rfl⟩ := writeLayers_after_inv h
        rw [List.length_append, hp List.suffix_rfl hd hc, ih d hd, layersLength, Nat.add_comm]

/-- Layers whose checksums are predicted fail to be written only because a number does not fit or
a frame is longer than allowed. -/
theorem writeLayers_overflows (hfront : ∀ l ∈ ls, l.FixedInFront)
    (hlast : ls.Pairwise fun l _ => l.isPayload = false) (hp : ChecksumsPredicted m ls) :
    OnlyOverflows (writeLayers m ls) := by
  induction ls with
  | nil => exact .ok []
  | cons l ls ih =>
    obtain ⟨-, hlastInside⟩ := List.pairwise_cons.1 hlast
    have hinside : ∀ l ∈ ls, l.FixedInFront := fun l hl' => hfront l (.tail _ hl')
    have ih := ih hinside hlastInside hp.inside
    obtain ⟨name, kind⟩ := l
    cases kind with
    | sync field | transport field version =>
      exact (IntField.write_overflows _).bind fun front _ => ih.map _
    | id field => exact (Field.write_overflows _).bind fun front _ => ih.map _
    | payload => exact m.write_overflows
    | size field max =>
      simp only [writeLayers]
      split
      · exact .overflow _
      refine (IntField.write_overflows _).bind fun front _ => ih.bind fun d hd => ?_
      rw [if_pos (length_writeLayers hinside hlastInside hp.inside hd)]
      exact .ok _
    | checksum field algorithm placement =>
      cases placement with
      | before =>
        refine (IntField.write_overflows _).bind fun room _ => ih.bind fun d _ => ?_
        exact (IntField.write_overflows _).map _
      | after => exact ih.bind fun d _ => (IntField.write_overflows _).map _

/-- A prediction that is exact at every depth predicts each checksum. -/
theorem checksumsPredicted_of_exact
    (h : ∀ inner, inner <:+ ls → ∀ b, writeLayers m inner = .ok b →
      b.length = layersLength m inner) : ChecksumsPredicted m ls := by
  intro name field algorithm inside hs covered c hcovered hc
  have houter := h _ hs _ (writeLayers_after_ok hc hcovered)
  have hinner := h _ ((List.suffix_cons _ _).trans hs) _ hcovered
  rw [List.length_append, hinner, layersLength] at houter
  omega

end

/-! ## Frames -/

/-- **The length of a frame is exact and its size layers send the right size**, in layers of any
widths, as long as each checksum behind its inside takes the bytes of the field that it rests on: a
frame that is written has the predicted length, and writing never fails because a size layer
predicted another one. The condition says no more than that the prediction is exact at every depth
of the layers. -/
theorem Frame.write_predicted (f : Frame) (m : Message) (hfront : ∀ l ∈ f.layers, l.FixedInFront) :
    (ChecksumsPredicted m f.layers →
      (∀ b, f.write m = .ok b → b.length = f.length m) ∧
        ∀ predicted written,
          f.write m ≠ .error (.invalidData (.sizeMispredicted predicted written))) ∧
      (ChecksumsPredicted m f.layers ↔
        ∀ inner, inner <:+ f.layers → ∀ b, writeLayers m inner = .ok b →
          b.length = layersLength m inner) := by
  have hexact : ChecksumsPredicted m f.layers → ∀ inner, inner <:+ f.layers →
      ∀ b, writeLayers m inner = .ok b → b.length = layersLength m inner := by
    intro hp inner hs b h
    refine length_writeLayers (fun l hl => hfront l (hs.subset hl)) ?_ ?_ h
    · exact f.payload_last.sublist hs.sublist
    · exact fun _ _ _ _ hi => hp (hi.trans hs)
  refine ⟨fun hp => ⟨hexact hp f.layers List.suffix_rfl, fun predicted written h => ?_⟩,
    hexact, checksumsPredicted_of_exact⟩
  obtain ⟨cause, hc⟩ := writeLayers_overflows hfront f.payload_last hp _ h
  cases hc

/-- A number in up to ten groups of seven bits. -/
def groups : IntField := .ofFormat ⟨.var 1 10 (by decide), false, .big⟩

/-- A checksum in groups behind an id and a byte. -/
def looseFrame : Frame where
  name := "Loose"
  layers := [⟨"sum", .checksum groups .sum .after⟩, ⟨"id", .id (.int (octet 0))⟩,
    ⟨"payload", .payload⟩]
  registry := { prototypes := [ping 0] }
  wellFormed := rfl

/-- The same inside a size. -/
def sizedLooseFrame : Frame where
  name := "SizedLoose"
  layers := ⟨"size", .size groups (some 100)⟩ :: looseFrame.layers
  registry := { prototypes := [ping 0] }
  wellFormed := rfl

/-- A sum below 128 takes one group, as the zero does that the field rests on. -/
theorem sizedLooseFrame_write_predicted :
    ChecksumsPredicted (ping 8) sizedLooseFrame.layers ∧
      sizedLooseFrame.write (ping 8) = .ok [3, 1, 8, 9] ∧
      4 = sizedLooseFrame.length (ping 8) := by
  have hfront : ∀ l ∈ sizedLooseFrame.layers, l.FixedInFront := by
    intro l hl field algorithm hk
    rcases hl with _ | ⟨_, _ | ⟨_, _ | ⟨_, _ | ⟨_, ⟨⟩⟩⟩⟩⟩ <;> cases hk
  have hp : ChecksumsPredicted (ping 8) sizedLooseFrame.layers := by
    intro name field algorithm inside hs covered c hcovered hc
    -- the only checksum stands behind the id and the payload
    obtain ⟨rfl, rfl, rfl, rfl⟩ : name = "sum" ∧ field = groups ∧ algorithm = .sum ∧
        inside = looseFrame.layers.tail := by
      simpa [List.suffix_cons_iff, sizedLooseFrame, looseFrame, and_assoc] using hs
    obtain rfl : [1, 8] = covered := Except.ok.inj hcovered
    exact congrArg List.length (Except.ok.inj hc).symm
  have hw : sizedLooseFrame.write (ping 8) = .ok [3, 1, 8, 9] := rfl
  exact ⟨hp, hw, ((sizedLooseFrame.write_predicted (ping 8) hfront).1 hp).1 _ hw⟩

/-- A sum of 201 takes two groups: without a size the predicted length is one byte short, with one
the frame cannot be written at all. -/
theorem looseFrame_mispredicted :
    looseFrame.write (ping 200) = .ok [1, 200, 0x81, 0x49] ∧ looseFrame.length (ping 200) = 3 ∧
      sizedLooseFrame.write (ping 200) = .error (.invalidData (.sizeMispredicted 3 4)) :=
  ⟨rfl, rfl, rfl⟩

end WireProtocol
