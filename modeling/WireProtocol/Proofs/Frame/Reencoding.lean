import WireProtocol.Proofs.Frame.Prediction
import WireProtocol.Proofs.Frame.Reading
import WireProtocol.Proofs.Frame.Transport

/-!
# Frames are written as they were read

A frame writes the message that it read as the bytes that were consumed, if its layers have one way
to send what they read and no region has bytes that nothing read (`Frame.write_readOne`). The
induction over the layers carries along what the message shows of them: the id and the transport
values (`Sends`).
-/

set_option autoImplicit false

namespace WireProtocol

/-! ## Layers that have one form -/

/-- The layer has one way to send what it reads: a marker is the one that is looked for, and all
bits of a checksum are compared. -/
def Layer.Canonical (l : Layer) : Prop :=
  match l.kind with
  | .sync field => field.value = field.default
  | .id (.int _) => True
  | .id (.enumeration _) => True
  | .id _ => False
  | .checksum field _ _ => ∃ n bounds, field.format.width = .fixed n bounds ∧
      (n = 8 ∨ field.format.signed = false ∧ field.offset = 0)
  | _ => True

/-- An integer that a checksum layer reads has no bits but those compared. -/
theorem checksumMask_canonical {field : IntField} {n : Nat} {bounds : 1 ≤ n ∧ n ≤ 8}
    (hw : field.format.width = .fixed n bounds)
    (hn : n = 8 ∨ field.format.signed = false ∧ field.offset = 0) {v : Int64} {c : Bytes}
    (hc : (field.withValue v).write = .ok c) :
    v.toUInt64 &&& checksumMask field = v.toUInt64 := by
  have hlength : field.length = n := by
    rw [IntField.length, IntFormat.encodedLength, hw]
  have hlt : v.toUInt64.toNat < 2 ^ (8 * n) := by
    rcases hn with rfl | ⟨hsigned, hoffset⟩
    · exact v.toUInt64.toNat_lt
    · have hwire : (field.withValue v).wire = v := by
        show v + field.offset = v
        rw [hoffset, Int64.add_zero]
      have hf := (IntFormat.encode_fixed hw hc).1
      rw [hwire, hsigned] at hf
      exact toNat_lt_of_fitsBits hf
  refine eq_of_testBit fun i hi => ?_
  rw [checksumMask, hlength, UInt64.toNat_and, Nat.testBit_and, testBit_lowBits]
  by_cases hin : i < 8 * n
  · simp [hin, hi]
  · have hp : 2 ^ (8 * n) ≤ 2 ^ i := Nat.pow_le_pow_right (by decide) (by omega)
    rw [Nat.testBit_lt_two_pow (Nat.lt_of_lt_of_le hlt hp), Bool.false_and]

/-- Such an integer has room for a zero. -/
theorem write_zero_canonical {field : IntField} {n : Nat} {bounds : 1 ≤ n ∧ n ≤ 8}
    (hw : field.format.width = .fixed n bounds)
    (hn : n = 8 ∨ field.format.signed = false ∧ field.offset = 0) :
    ∃ b, (field.withValue 0).write = .ok b := by
  have hfits : fitsBits field.format.signed (field.withValue 0).wire (8 * n) = true := by
    rcases hn with rfl | ⟨hsigned, hoffset⟩
    · exact if_pos (by decide)
    · have hwire : (field.withValue 0).wire = 0 := by
        show 0 + field.offset = 0
        rw [hoffset, Int64.add_zero]
      rw [hsigned, hwire]
      unfold fitsBits
      split
      · rfl
      · rw [if_neg Bool.false_ne_true]
        exact decide_eq_true ⟨Int.le_refl 0, Int.natCast_pos.2 (Nat.pow_pos (by decide))⟩
  have hwidth : (field.withValue 0).format.width = .fixed n bounds := hw
  unfold IntField.write IntFormat.encode
  simp only [hwidth]
  exact ⟨_, if_pos hfits⟩

theorem checksumField_read {field : IntField} {algorithm : Checksum} {covered : Bytes}
    {v : Int64}
    (hmask : v.toUInt64 &&& checksumMask field = v.toUInt64)
    (heq : algorithm.compute covered &&& checksumMask field =
      v.toUInt64 &&& checksumMask field) :
    checksumField field algorithm covered = field.withValue v := by
  rw [checksumField, ← checksumMask, heq, hmask, Int64.toInt64_toUInt64]

theorem EnumField.read_value (f : EnumField) (src : Bytes) :
    (f.read src).value = { f with storage := (f.storage.read src).value } := by
  unfold read
  dsimp only
  split
  · rfl
  · split <;> rfl

/-- The id field that a frame sends for an id that it read is the one that it read. -/
theorem idFieldFor_read {name : String} {field f : Field} (hl : Layer.Canonical ⟨name, .id field⟩)
    {src rest : Bytes} (hr : field.read src = .done f rest) {m : Message}
    (hid : m.id = f.value.bits?.getD 0) : idFieldFor field m = f := by
  have hf : f = (field.read src).value := by rw [hr]; rfl
  have he : (field.read src).error = none := by rw [hr]; rfl
  cases field with
  | int g =>
    rw [Field.read] at hf he
    obtain ⟨v, -, hv, -⟩ := IntField.read_ok he
    rw [Outcome.value_map, hv] at hf
    subst hf
    have hm : m.id.toInt64 = v := by
      rw [hid]
      exact Int64.toInt64_toUInt64 v
    rw [← hm]
    rfl
  | enumeration g =>
    rw [Field.read] at hf he
    rw [Outcome.error_map, EnumField.read_eq] at he
    obtain ⟨v, -, hv, -⟩ := IntField.read_ok (Outcome.andThen_ok he).1
    rw [Outcome.value_map, EnumField.read_value, hv] at hf
    subst hf
    have hm : m.id.toInt64 = v := by
      rw [hid]
      exact Int64.toInt64_toUInt64 v
    rw [← hm]
    rfl
  | _ => exact hl.elim

theorem Layer.Canonical.id_sound {name : String} {field : Field}
    (hl : Layer.Canonical ⟨name, .id field⟩) : field.Sound := by
  cases field with
  | int g => exact Field.sound_of_children nofun nofun
  | enumeration g => exact Field.sound_of_children nofun nofun
  | _ => exact hl.elim

/-! ## Regions that are used up -/

/-- The layers inside each size layer, if they are read, leave no byte of its region. -/
def FillsRegions (registry : Registry) (sized : Bool) :
    List Layer → List Supplied → Option Message → Bytes → Prop
  | [], _, _, _ => True
  | ⟨name, kind⟩ :: ls, supplied, message, src =>
    match kind with
    | .payload => True
    | .sync field => FillsRegions registry sized ls supplied message (field.read src).rest
    | .size field _ =>
      let o := field.read src
      let region := o.rest.take o.value.value.toInt.toNat
      (∀ x n, readLayers registry sized ls supplied message region = .done x n →
          n = region.length) ∧
        FillsRegions registry sized ls supplied message region
    | .id field =>
      let o := field.read src
      let attempt := fun m => readLayers registry sized ls supplied (some m) o.rest
      ∀ m ∈ registry.typeRead? sized (o.value.value.bits?.getD 0) attempt,
        FillsRegions registry sized ls supplied (some m) o.rest
    | .transport field version =>
      let o := field.read src
      FillsRegions registry sized ls (Supplied.put ⟨name, o.value, version⟩ supplied) message o.rest
    | .checksum _ _ .after => FillsRegions registry sized ls supplied message src
    | .checksum field _ .before =>
      FillsRegions registry sized ls supplied message (field.read src).rest

/-! ## Layers -/

/-- The fields of the message are sound. -/
def Message.Sound (m : Message) : Prop := ∀ x ∈ m.fields, x.field.Sound

theorem Registry.sound_typeRead? {registry : Registry} {sized : Bool} {id : UInt64}
    {attempt : Message → LayerRead} {m : Message} (hreg : ∀ m ∈ registry.prototypes, m.Sound)
    (h : registry.typeRead? sized id attempt = some m) : m.Sound := by
  rcases typeRead?_cases h with hm | ⟨-, -, rfl⟩
  · exact hreg m (List.mem_filter.1 hm).1
  · intro x hx
    cases List.mem_singleton.1 hx
    exact Field.sound_of_children nofun nofun

theorem Layer.Canonical.isFixed {l : Layer} (h : l.Canonical) {field : IntField}
    {algorithm : Checksum} {placement : Placement}
    (hk : l.kind = .checksum field algorithm placement) : field.format.width.isFixed = true := by
  rw [Canonical, hk] at h
  obtain ⟨n, bounds, hw, -⟩ := h
  rw [hw]
  rfl

/-- What layers of one form send is as long as they predict. -/
theorem length_writeLayers_canonical {ls : List Layer} (hl : ∀ l ∈ ls, l.Canonical)
    (hlast : ls.Pairwise fun l _ => l.isPayload = false) {m : Message} {b : Bytes}
    (h : writeLayers m ls = .ok b) : b.length = layersLength m ls := by
  have hrigid : ChecksumsPredicted m ls := checksumsPredicted_of_rigid
    (fun l hl' _ _ hk => IntField.rigid_of_isFixed ((hl l hl').isFixed hk)) m
  exact length_writeLayers (fun l hl' _ _ hk => (hl l hl').isFixed hk) hlast hrigid h

/-- The layers send the bytes around the message, which shows the transport values and the id of
the type that it was read with. -/
structure Sends (x : Message) (ls : List Layer) (supplied : List Supplied)
    (message : Option Message) (b : Bytes) : Prop where
  written : writeLayers x ls = .ok b
  shown : ∀ s ∈ supplied, s.Shown x
  id : ls.any Layer.isId = false → ∀ m ∈ message, x.id = m.id

section
variable (registry : Registry) (sized : Bool)

/-- The layers send what they were read from. -/
def SendAgain (ls : List Layer) : Prop :=
  ∀ ⦃supplied message⦄, (supplied.map Supplied.key ++ ls.filterMap Layer.supplies?).Pairwise Apart →
    (∀ m ∈ message, m.Sound) →
    ∀ ⦃src x n⦄, readLayers registry sized ls supplied message src = .done (some x) n →
    FillsRegions registry sized ls supplied message src →
    Sends x ls supplied message (src.take n)

variable {registry sized} {name : String} {ls : List Layer}

theorem sendAgain_payload : SendAgain registry sized [⟨name, .payload⟩] := by
  intro supplied message ha hm src x n h _
  obtain ⟨m, y, rest, rfl, hread, hy, rfl⟩ := readLayers_payload_inv h
  cases hy
  have hsound : (supplied.foldl Supplied.giveTo m).Sound := by
    intro z hz
    rw [Supplied.giveAll_fields] at hz
    exact hm m rfl z hz
  obtain ⟨c, hc, hw⟩ := Message.write_read _ src hsound (by rw [hread]; rfl)
  rw [hread] at hc hw
  have hsrc : src = c ++ rest := hc
  have hwritten : x.write = .ok c := hw
  refine ⟨?_, fun s hs => ?_, ?_⟩
  · rw [hsrc, taken, List.length_append, Nat.add_sub_cancel, List.take_left]
    simpa only [writeLayers] using hwritten
  · exact (Supplied.giveAll_shown (List.pairwise_append.1 ha).1 hs m).read hread
  · rintro - _ ⟨⟩
    exact (Message.read_id hread).trans (Supplied.giveAll_id supplied m)

theorem SendAgain.sync (h : SendAgain registry sized ls) {field : IntField}
    (hl : Layer.Canonical ⟨name, .sync field⟩) :
    SendAgain registry sized (⟨name, .sync field⟩ :: ls) := by
  intro supplied message ha hm src x n hr hfill
  obtain ⟨c, rest, k, ht, hk, rfl⟩ := readLayers_sync_inv hr
  simp only [FillsRegions, ht.read] at hfill
  obtain ⟨hw, hs, hid⟩ := h ha hm hk hfill
  refine ⟨?_, hs, hid⟩
  have hfield : field.withValue field.default = field := by
    have hv : field.value = field.default := hl
    rw [← hv]
    rfl
  have hc : (Field.int field).write = .ok c := by
    rw [Field.write, ← hfield]
    exact ht.write
  rw [ht.split, List.take_length_add_append]
  exact writeLayers_header_ok rfl hc hw

theorem SendAgain.size (h : SendAgain registry sized ls) (hl : ∀ l ∈ ls, l.Canonical)
    (hlast : ls.Pairwise fun l _ => l.isPayload = false)
    {field : IntField} {max : Option Nat} :
    SendAgain registry sized (⟨name, .size field max⟩ :: ls) := by
  intro supplied message ha hm src x n hr hfill
  obtain ⟨v, c, region, rest, k, ht, hneg, hlen, hmax, hk, rfl⟩ := readLayers_size_inv hr
  have hregion : (region ++ rest).take v.toInt.toNat = region := by
    rw [← hlen, List.take_left]
  have hvalue : (field.withValue v).value = v := rfl
  simp only [FillsRegions, ht.read, Outcome.done, hvalue, hregion] at hfill
  obtain rfl : k = region.length := hfill.1 _ _ hk
  obtain ⟨hw, hs, hid⟩ := h ha hm hk hfill.2
  refine ⟨?_, hs, hid⟩
  rw [List.take_length] at hw
  rw [ht.split, List.take_length_add_append, List.take_left]
  have hcount : field.withCount region.length = field.withValue v := by
    rw [hlen]
    exact (IntField.write_withCount (f := field) (p := field.withValue v) rfl hneg).2
  refine writeLayers_size_ok ?_ hw (length_writeLayers_canonical hl hlast hw) hmax
  rw [hcount]
  exact ht.write

theorem SendAgain.id (hreg : ∀ m ∈ registry.prototypes, m.Sound)
    (h : SendAgain registry sized ls) (hnone : ls.any Layer.isId = false) {field : Field}
    (hl : Layer.Canonical ⟨name, .id field⟩) :
    SendAgain registry sized (⟨name, .id field⟩ :: ls) := by
  intro supplied message ha hm src x n hr hfill
  obtain ⟨f, c, rest, m, k, hread, hsrc, htype, hk, rfl⟩ := readLayers_id_inv hr
  simp only [FillsRegions, hread, Outcome.done] at hfill
  have hsound : ∀ m' ∈ some m, m'.Sound := by
    rintro _ ⟨⟩
    exact Registry.sound_typeRead? hreg htype
  obtain ⟨hw, hs, hid⟩ := h ha hsound hk (hfill m htype)
  refine ⟨?_, hs, fun h => by cases h⟩
  have hxid : x.id = f.value.bits?.getD 0 :=
    (hid hnone m rfl).trans (Registry.typeRead?_id htype)
  obtain ⟨d, hd, hwf⟩ := Field.read_reencodes hl.id_sound src (by rw [hread]; rfl)
  rw [hread] at hd hwf
  obtain rfl : c = d := List.append_cancel_right (hsrc.symm.trans hd)
  rw [hsrc, List.take_length_add_append]
  refine writeLayers_header_ok rfl ?_ hw
  rw [idFieldFor_read hl hread hxid]
  exact hwf

theorem SendAgain.transport (h : SendAgain registry sized ls) {field : IntField} {version : Bool} :
    SendAgain registry sized (⟨name, .transport field version⟩ :: ls) := by
  intro supplied message ha hm src x n hr hfill
  obtain ⟨v, c, rest, k, ht, hk, rfl⟩ := readLayers_transport_inv hr
  simp only [FillsRegions, ht.read, Outcome.done] at hfill
  have hnew : ∀ t ∈ supplied, t.name ≠ name := fun t ht =>
    ((List.pairwise_append.1 ha).2.2 _ (List.mem_map_of_mem ht) _ (.head _)).1
  rw [Supplied.put_of_new hnew] at hk hfill
  have ha' : ((supplied ++ [(⟨name, field.withValue v, version⟩ : Supplied)]).map Supplied.key ++
      ls.filterMap Layer.supplies?).Pairwise Apart := by
    rw [List.map_append, List.append_assoc]
    exact ha
  obtain ⟨hw, hs, hid⟩ := h ha' hm hk hfill
  refine ⟨?_, fun s hs' => hs s (List.mem_append_left _ hs'), hid⟩
  have hshown := hs _ (List.mem_append_right _ (.head _))
  rw [ht.split, List.take_length_add_append]
  refine writeLayers_header_ok rfl ?_ hw
  rw [Field.write, hshown.fieldFor]
  exact ht.write

theorem SendAgain.after (h : SendAgain registry sized ls) {field : IntField} {algorithm : Checksum}
    (hl : Layer.Canonical ⟨name, .checksum field algorithm .after⟩) :
    SendAgain registry sized (⟨name, .checksum field algorithm .after⟩ :: ls) := by
  intro supplied message ha hm src x n hr hfill
  obtain ⟨v, c, rest, k, ht, heq, hk, rfl⟩ := readLayers_after_inv hr
  obtain ⟨width, bounds, hwidth, hform⟩ := hl
  obtain ⟨hw, hs, hid⟩ := h ha hm hk hfill
  refine ⟨?_, hs, hid⟩
  rw [List.take_add, ht.split, List.take_left]
  refine writeLayers_after_ok ?_ hw
  rw [checksumField_read (checksumMask_canonical hwidth hform ht.write) heq]
  exact ht.write

theorem SendAgain.before (h : SendAgain registry sized ls) {field : IntField}
    {algorithm : Checksum} (hl : Layer.Canonical ⟨name, .checksum field algorithm .before⟩) :
    SendAgain registry sized (⟨name, .checksum field algorithm .before⟩ :: ls) := by
  intro supplied message ha hm src x n hr hfill
  obtain ⟨v, c, rest, k, ht, heq, hk, rfl⟩ := readLayers_before_inv hr
  obtain ⟨width, bounds, hwidth, hform⟩ := hl
  simp only [FillsRegions, ht.read, Outcome.done] at hfill
  obtain ⟨hw, hs, hid⟩ := h ha hm hk hfill
  refine ⟨?_, hs, hid⟩
  obtain ⟨room, hroom⟩ := write_zero_canonical hwidth hform
  rw [ht.split, List.take_length_add_append]
  refine writeLayers_before_ok hroom ?_ hw
  rw [checksumField_read (checksumMask_canonical hwidth hform ht.write) heq]
  exact ht.write

/-- **Layers send what they were read from** if each has one form, no two transport values replace
each other and every region was used up. -/
theorem sendAgain_layers (hreg : ∀ m ∈ registry.prototypes, m.Sound)
    (hl : ∀ l ∈ ls, l.Canonical) (hids : ls.countP Layer.isId ≤ 1)
    (hlast : ls.Pairwise fun l _ => l.isPayload = false) (hp : ls.any Layer.isPayload = true) :
    SendAgain registry sized ls := by
  induction ls with
  | nil => cases hp
  | cons l ls ih =>
    obtain ⟨hpayload, hinside⟩ := List.pairwise_cons.1 hlast
    have hll := hl l (.head _)
    have hls : ∀ l ∈ ls, l.Canonical := fun l hl' => hl l (.tail _ hl')
    have hcount : ls.countP Layer.isId ≤ 1 :=
      Nat.le_trans (List.Sublist.countP_le (List.sublist_cons_self l ls)) hids
    have ih := ih hls hcount hinside
    obtain ⟨name, kind⟩ := l
    cases kind with
    | sync field => exact (ih hp).sync hll
    | size field max => exact (ih hp).size hls hinside
    | id field =>
      rw [List.countP_cons_of_pos rfl] at hids
      have hnone : ls.any Layer.isId = false :=
        List.any_eq_false.2 (List.countP_eq_zero.1 (by omega))
      exact (ih hp).id hreg hnone hll
    | transport field version => exact (ih hp).transport
    | checksum field algorithm placement =>
      cases placement with
      | before => exact (ih hp).before hll
      | after => exact (ih hp).after hll
    | payload =>
      obtain rfl := inside_payload hpayload
      exact sendAgain_payload

end

/-! ## Frames -/

/-- The message does not carry its frame. -/
theorem writeLayers_frameBytes (m : Message) (bytes : Bytes) (ls : List Layer) :
    layersLength { m with frameBytes := bytes } ls = layersLength m ls ∧
      writeLayers { m with frameBytes := bytes } ls = writeLayers m ls := by
  induction ls with
  | nil => exact ⟨rfl, rfl⟩
  | cons l ls ih =>
    obtain ⟨name, kind⟩ := l
    cases kind with
    | checksum field algorithm placement =>
      cases placement <;>
      · simp only [layersLength, writeLayers, ih]
        exact ⟨trivial, trivial⟩
    | _ =>
      constructor
      · simp only [layersLength, ih] <;> rfl
      · simp only [writeLayers, ih] <;> rfl

/-- **A frame writes the message that it read as the bytes that were consumed**, if its layers have
one form, no two transport values replace each other, the bitfields of its messages are sound and
the layers inside each size layer used up its region. -/
theorem Frame.write_readOne (f : Frame) (hl : ∀ l ∈ f.layers, l.Canonical)
    (ha : (f.layers.filterMap Layer.supplies?).Pairwise Apart)
    (hs : ∀ m ∈ f.registry.prototypes, m.Sound) {src : Bytes} {x : Message} {n : Nat}
    (h : f.readOne src = .message x n)
    (hfill : FillsRegions f.registry f.sized f.layers [] none src) :
    f.write x = .ok (src.take n) := by
  obtain ⟨-, -, hids, -⟩ := frameFault?_eq_none f.wellFormed
  obtain ⟨y, hy, rfl⟩ := Frame.readOne_inv h
  have hsend : SendAgain f.registry f.sized f.layers :=
    sendAgain_layers hs hl (by omega) f.payload_last f.any_isPayload
  have hw := (@hsend [] none ha (by rintro _ ⟨⟩) _ _ _ hy hfill).written
  exact (writeLayers_frameBytes y _ f.layers).2.trans hw

theorem ping_sound (seq : Int64) : (ping seq).Sound := by
  intro x hx
  cases List.mem_singleton.1 hx
  exact Field.sound_of_children nofun nofun

theorem envelope_canonical : ∀ l ∈ envelope.layers, l.Canonical := by
  intro l hl
  rcases hl with _ | ⟨_, _ | ⟨_, _ | ⟨_, _ | ⟨_, _ | ⟨_, _ | ⟨_, _ | ⟨_, ⟨⟩⟩⟩⟩⟩⟩⟩⟩
  · exact rfl
  · trivial
  · exact ⟨1, _, rfl, .inr ⟨rfl, rfl⟩⟩
  · trivial
  · trivial
  · exact ⟨1, _, rfl, .inr ⟨rfl, rfl⟩⟩
  · trivial

/-- The hops are those that were read, not the default of the layer. -/
theorem envelope_write_readOne :
    ∃ x, envelope.readOne [0x7e, 5, 8, 9, 1, 8, 8, 0xff] = .message x 7 ∧
      envelope.write x = .ok [0x7e, 5, 8, 9, 1, 8, 8] := by
  let x : Message := { ping 8 with
    transport := [⟨"hops", .int ((octet 3).withValue 9)⟩]
    frameBytes := [0x7e, 5, 8, 9, 1, 8, 8] }
  have hread : envelope.readOne [0x7e, 5, 8, 9, 1, 8, 8, 0xff] = .message x 7 := rfl
  have hfill : FillsRegions envelope.registry envelope.sized envelope.layers [] none
      [0x7e, 5, 8, 9, 1, 8, 8, 0xff] := by
    refine ⟨fun x n h => ?_, fun m hm => trivial⟩
    cases h
    rfl
  refine ⟨x, hread, envelope.write_readOne envelope_canonical ?_ ?_ hread hfill⟩
  · exact List.pairwise_singleton _ _
  · intro m hm
    cases List.mem_singleton.1 hm
    exact ping_sound 0

/-- A checksum in a signed byte. -/
def signedSumFrame : Frame where
  name := "SignedSum"
  layers := [⟨"sum", .checksum (.ofFormat ⟨.ofBytes 1, true, .big⟩) .sum .after⟩,
    ⟨"id", .id (.int (octet 0))⟩, ⟨"payload", .payload⟩]
  registry := { prototypes := [ping 0] }
  wellFormed := rfl

/-- A signed checksum is compared without its sign and does not fit when it is sent. -/
theorem signedSumFrame_write_readOne :
    ∃ x, signedSumFrame.readOne [1, 127, 128] = .message x 3 ∧
      FillsRegions signedSumFrame.registry signedSumFrame.sized signedSumFrame.layers [] none
        [1, 127, 128] ∧
      signedSumFrame.write x = .error (.overflow (.fixedWidth 128 1)) :=
  ⟨_, rfl, fun _ _ => trivial, rfl⟩

end WireProtocol
