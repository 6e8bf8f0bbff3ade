import WireProtocol.Frame.Read
import WireProtocol.Proofs.Field.RoundTrip
import WireProtocol.Proofs.Frame.Messages
import WireProtocol.Proofs.Frame.Writing

/-!
# Frames are read as they were written

What a frame writes around a message it reads back, if its layers are lenient and the type of the
message reads the payload back (`Frame.readOne_write`). The reading and the writing recursion go
through the same layers (`takeBack_layers`); what differs between frames is what the payload is
followed by where it is read.
-/

set_option autoImplicit false

namespace WireProtocol

/-! ## Layers that take back what they send -/

/-- The layer reads back the integer that it sends around a message of that id: it refuses no value,
a marker is the one that is looked for, and a strict enumeration of ids has the id. The room for a
checksum in front has a fixed width. -/
def Layer.Lenient (id : UInt64) (l : Layer) : Prop :=
  match l.kind with
  | .sync field => field.strict = false ∧ field.value = field.default
  | .size field _ => field.strict = false
  | .id (.int field) => field.strict = false
  | .id (.enumeration field) =>
    field.storage.strict = false ∧
      (field.strict = true → (field.withValue id.toInt64).isValid = true)
  | .id _ => False
  | .transport field _ => field.strict = false
  | .checksum field _ placement =>
    field.strict = false ∧ (placement = .before → field.format.width.isFixed = true)
  | .payload => True

theorem withInt_written {field : IntField} {v : Int64} {c : Bytes} (hs : field.strict = false)
    (hw : (field.withValue v).write = .ok c) (rest : Bytes)
    (next : IntField → Bytes → LayerRead) :
    withInt field (c ++ rest) next = next (field.withValue v) rest := by
  unfold withInt
  rw [IntField.read_write_done hw (fun h => absurd (hs.symm.trans h) nofun) rest]
  rfl

/-- An id is read as it was written. -/
theorem idField_written {name : String} {field : Field} {m : Message} {c : Bytes}
    (hl : Layer.Lenient m.id ⟨name, .id field⟩) (hw : (idFieldFor field m).write = .ok c)
    (rest : Bytes) :
    ∃ f, field.read (c ++ rest) = .done f rest ∧ f.value.bits?.getD 0 = m.id := by
  cases field with
  | int f =>
    have hs : f.strict = false := hl
    have hread := IntField.read_write_done hw (fun h => absurd (hs.symm.trans h) nofun) rest
    refine ⟨.int (f.withValue m.id.toInt64), ?_, ?_⟩
    · rw [Field.read, hread]
      rfl
    · simp [Field.value, Value.bits?, IntField.withValue]
  | enumeration f =>
    obtain ⟨hs, hv⟩ := hl
    have hread := EnumField.read_write_done (f := f) (v := m.id.toInt64) hw
      ⟨fun h => absurd (hs.symm.trans h) nofun, hv⟩ rest
    refine ⟨.enumeration (f.withValue m.id.toInt64), ?_, ?_⟩
    · rw [Field.read, hread]
      rfl
    · simp [Field.value, Value.bits?, EnumField.withValue, EnumField.value, IntField.withValue]
  | _ => exact hl.elim

theorem transportFieldFor_eq (name : String) (field : IntField) (version : Bool) (m : Message) :
    ∃ v, transportFieldFor name field version m = field.withValue v := by
  unfold transportFieldFor
  split
  · exact ⟨_, rfl⟩
  · split
    · exact ⟨_, rfl⟩
    · exact ⟨field.value, rfl⟩

/-- The bits of a checksum that are compared are those that were sent. -/
theorem compare_written (field : IntField) (algorithm : Checksum) (covered : Bytes)
    (x : Option Message) (n : Nat) :
    LayerRead.compare (algorithm.compute covered &&& checksumMask field)
      ((checksumField field algorithm covered).value.toUInt64 &&& checksumMask field) x n =
      .done x n := by
  refine if_pos ?_
  show _ = (algorithm.compute covered &&& checksumMask field).toInt64.toUInt64 &&& _
  rw [UInt64.toUInt64_toInt64, UInt64.and_assoc, UInt64.and_self]

/-! ## What the payload is followed by -/

/-- Where the payload is read, it is followed by bytes of the kind `ok`, if the layers are followed
by `rest`, whatever checksums stand behind the payload. -/
def PayloadFollowedBy (ok : Bytes → Prop) : List Layer → Bytes → Prop
  | [], _ => False
  | ⟨_, .payload⟩ :: _, rest => ok rest
  | ⟨_, .size _ _⟩ :: ls, _ => PayloadFollowedBy ok ls []
  | ⟨_, .checksum _ _ .after⟩ :: ls, rest => ∀ c, PayloadFollowedBy ok ls (c ++ rest)
  | _ :: ls, rest => PayloadFollowedBy ok ls rest

/-- Anything may follow it. -/
theorem payloadFollowedBy_true {ls : List Layer} (h : ls.any Layer.isPayload = true)
    (rest : Bytes) : PayloadFollowedBy (fun _ => True) ls rest := by
  induction ls generalizing rest with
  | nil => cases h
  | cons l ls ih =>
    obtain ⟨name, kind⟩ := l
    cases kind with
    | payload => trivial
    | sync field => exact ih h rest
    | size field max => exact ih h []
    | id field => exact ih h rest
    | transport field version => exact ih h rest
    | checksum field algorithm placement =>
      cases placement with
      | before => exact ih h rest
      | after => exact fun c => ih h (c ++ rest)

/-- The transport values that the layers send for a message, after those in `supplied`. -/
def carried (m : Message) : List Layer → List Supplied → List Supplied
  | [], supplied => supplied
  | ⟨name, .transport field version⟩ :: ls, supplied =>
    carried m ls (Supplied.put ⟨name, transportFieldFor name field version m, version⟩ supplied)
  | _ :: ls, supplied => carried m ls supplied

/-- A message type as the layers of a frame around a message hand it to its payload. -/
def Frame.given (f : Frame) (m p : Message) : Message :=
  (carried m f.layers []).foldl Supplied.giveTo p

/-! ## Layers -/

theorem seenFrom_written (c rest : Bytes) (x : Option Message) (n : Nat) :
    (LayerRead.done x n).seenFrom (c ++ rest) rest = .done x (c.length + n) := by
  simp [LayerRead.seenFrom, taken]

section
variable (registry : Registry) (sized : Bool) (m q : Message) (ok : Bytes → Prop)
  (same : Message → Prop)

/-- The type `q`, given some transport values, reads the payload of `m` in front of bytes of the
kind `ok`. -/
def ReadsPayload (supplied : List Supplied) : Prop :=
  ∀ c rest, m.write = .ok c → ok rest →
    ∃ x, (supplied.foldl Supplied.giveTo q).read (c ++ rest) = .done x rest ∧ same x

/-- The layers read back what they write around `m`, given that `q` reads its payload. The type is
found by the id layer among them, or else it has been found. -/
def TakeBack (ls : List Layer) : Prop :=
  ∀ ⦃supplied message⦄, ls.any Layer.isId = true ∨ message = some q →
    ReadsPayload m q ok same (carried m ls supplied) →
    ∀ ⦃b⦄, writeLayers m ls = .ok b → b.length < 2 ^ 63 →
    ∀ ⦃rest⦄, PayloadFollowedBy ok ls rest →
    ∃ x, same x ∧
      readLayers registry sized ls supplied message (b ++ rest) = .done (some x) b.length

variable {registry sized m q ok same} {name : String} {ls : List Layer}

theorem takeBack_payload : TakeBack registry sized m q ok same [⟨name, .payload⟩] := by
  intro supplied message hm hp b hw _ rest hr
  obtain rfl : message = some q := hm.resolve_left nofun
  obtain ⟨x, hread, hx⟩ := hp b rest hw hr
  refine ⟨x, hx, ?_⟩
  simp only [readLayers, readPayload]
  have hgiven : (supplied.foldl Supplied.giveTo q).read (b ++ rest) = .done x rest := hread
  rw [hgiven]
  simp [Outcome.done, taken]

theorem TakeBack.sync (h : TakeBack registry sized m q ok same ls) {field : IntField}
    (hl : Layer.Lenient m.id ⟨name, .sync field⟩) :
    TakeBack registry sized m q ok same (⟨name, .sync field⟩ :: ls) := by
  intro supplied message hm hp b hw hb rest hr
  obtain ⟨hs, hv⟩ := hl
  obtain ⟨c, d, hc, hd, rfl⟩ := writeLayers_header_inv rfl hw
  rw [List.length_append] at hb ⊢
  obtain ⟨x, hx, hread⟩ := h hm hp hd (by omega) hr
  refine ⟨x, hx, ?_⟩
  simp only [readLayers]
  rw [List.append_assoc, withInt_written (v := field.value) hs hc]
  exact (if_pos hv).trans (by rw [hread, seenFrom_written])

theorem TakeBack.size (h : TakeBack registry sized m q ok same ls) {field : IntField}
    {max : Option Nat} (hl : Layer.Lenient m.id ⟨name, .size field max⟩) :
    TakeBack registry sized m q ok same (⟨name, .size field max⟩ :: ls) := by
  intro supplied message hm hp b hw hb rest hr
  obtain ⟨c, d, hc, hd, -, hmax, rfl⟩ := writeLayers_size_inv hw
  rw [List.length_append] at hb ⊢
  obtain ⟨x, hx, hread⟩ := h hm hp hd (by omega) hr
  rw [List.append_nil] at hread
  obtain ⟨hneg, hcount⟩ := IntField.toInt_toNat_ofNat (show d.length < 2 ^ 63 by omega)
  refine ⟨x, hx, ?_⟩
  have hvalue : (field.withValue (Int64.ofNat d.length)).value = Int64.ofNat d.length := rfl
  simp only [readLayers]
  rw [List.append_assoc, withInt_written (v := Int64.ofNat d.length) hl hc]
  -- the region is what was written inside
  simp only [hvalue, hneg, hcount, hmax, if_false, Bool.false_eq_true, Bytes.take?_append, hread,
    LayerRead.inRegion, seenFrom_written]

theorem TakeBack.id
    (hq : registry.ofId m.id = [q] ∨ registry.ofId m.id = [] ∧ sized = true ∧ q = .rawData m.id)
    (h : TakeBack registry sized m q ok same ls) {field : Field}
    (hl : Layer.Lenient m.id ⟨name, .id field⟩) :
    TakeBack registry sized m q ok same (⟨name, .id field⟩ :: ls) := by
  intro supplied message _ hp b hw hb rest hr
  obtain ⟨c, d, hc, hd, rfl⟩ := writeLayers_header_inv rfl hw
  rw [List.length_append] at hb ⊢
  obtain ⟨x, hx, hread⟩ := @h supplied (some q) (.inr rfl) hp d hd (by omega) rest hr
  obtain ⟨f, hf, hid⟩ := idField_written hl hc (d ++ rest)
  refine ⟨x, hx, ?_⟩
  simp only [readLayers]
  rw [List.append_assoc, hf]
  simp only [Outcome.done, hid]
  rcases hq with hq | ⟨hq, rfl, rfl⟩
  · simp only [hq, dispatch, hread, seenFrom_written]
  · simp only [hq, if_true, hread, seenFrom_written]

theorem TakeBack.transport (h : TakeBack registry sized m q ok same ls) {field : IntField}
    {version : Bool} (hl : Layer.Lenient m.id ⟨name, .transport field version⟩) :
    TakeBack registry sized m q ok same (⟨name, .transport field version⟩ :: ls) := by
  intro supplied message hm hp b hw hb rest hr
  obtain ⟨c, d, hc, hd, rfl⟩ := writeLayers_header_inv rfl hw
  rw [List.length_append] at hb ⊢
  obtain ⟨x, hx, hread⟩ := h hm hp hd (by omega) hr
  obtain ⟨v, hv⟩ := transportFieldFor_eq name field version m
  dsimp only at hc
  rw [hv] at hc hread
  refine ⟨x, hx, ?_⟩
  simp only [readLayers]
  rw [List.append_assoc, withInt_written (v := v) hl hc, hread, seenFrom_written]

theorem TakeBack.after (h : TakeBack registry sized m q ok same ls) {field : IntField}
    {algorithm : Checksum} (hl : Layer.Lenient m.id ⟨name, .checksum field algorithm .after⟩) :
    TakeBack registry sized m q ok same (⟨name, .checksum field algorithm .after⟩ :: ls) := by
  intro supplied message hm hp b hw hb rest hr
  obtain ⟨c, d, hc, hd, rfl⟩ := writeLayers_after_inv hw
  rw [List.length_append] at hb ⊢
  obtain ⟨x, hx, hread⟩ := h hm hp hd (by omega) (hr c)
  refine ⟨x, hx, ?_⟩
  simp only [readLayers]
  rw [List.append_assoc, hread]
  simp only [List.drop_left, List.take_left]
  rw [withInt_written hl.1 hc]
  refine (compare_written field algorithm d (some x) _).trans ?_
  rw [taken, List.length_append, Nat.add_sub_cancel]

theorem TakeBack.before (h : TakeBack registry sized m q ok same ls) {field : IntField}
    {algorithm : Checksum} (hl : Layer.Lenient m.id ⟨name, .checksum field algorithm .before⟩) :
    TakeBack registry sized m q ok same (⟨name, .checksum field algorithm .before⟩ :: ls) := by
  intro supplied message hm hp b hw hb rest hr
  obtain ⟨c, d, hc, hd, rfl⟩ := writeLayers_before_inv hw
  rw [List.length_append] at hb ⊢
  obtain ⟨x, hx, hread⟩ := h hm hp hd (by omega) hr
  refine ⟨x, hx, ?_⟩
  simp only [readLayers]
  rw [List.append_assoc, withInt_written hl.1 hc, hread]
  simp only [List.take_left]
  refine (compare_written field algorithm d (some x) _).trans ?_
  rw [taken, List.length_append, Nat.add_sub_cancel]

/-- **Layers read back what they wrote** around a message whose payload is read back. -/
theorem takeBack_layers
    (hq : registry.ofId m.id = [q] ∨ registry.ofId m.id = [] ∧ sized = true ∧ q = .rawData m.id)
    (hl : ∀ l ∈ ls, l.Lenient m.id) (hlast : ls.Pairwise fun l _ => l.isPayload = false) :
    TakeBack registry sized m q ok same ls := by
  induction ls with
  | nil => exact fun _ _ _ _ _ _ _ _ hr => hr.elim
  | cons l ls ih =>
    obtain ⟨hpayload, hlast⟩ := List.pairwise_cons.1 hlast
    have hll := hl l (.head _)
    have ih := ih (fun l hl' => hl l (.tail _ hl')) hlast
    obtain ⟨name, kind⟩ := l
    cases kind with
    | sync field => exact ih.sync hll
    | size field max => exact ih.size hll
    | id field => exact ih.id hq hll
    | transport field version => exact ih.transport hll
    | checksum field algorithm placement =>
      cases placement with
      | before => exact ih.before hll
      | after => exact ih.after hll
    | payload =>
      obtain rfl := inside_payload hpayload
      exact takeBack_payload

end

/-! ## Frames -/

theorem Frame.any_isPayload (f : Frame) : f.layers.any Layer.isPayload = true := by
  obtain ⟨-, hcount, -⟩ := frameFault?_eq_none f.wellFormed
  have h : 0 < f.layers.countP Layer.isPayload := by omega
  exact List.any_eq_true.2 (List.countP_pos_iff.1 h)

theorem Frame.any_isId (f : Frame) : f.layers.any Layer.isId = true := by
  obtain ⟨-, -, hcount, -⟩ := frameFault?_eq_none f.wellFormed
  have h : 0 < f.layers.countP Layer.isId := by omega
  exact List.any_eq_true.2 (List.countP_pos_iff.1 h)

theorem Supplied.giveTo_id (m : Message) (s : Supplied) : (s.giveTo m).id = m.id := by
  rw [giveTo_eq]

theorem Supplied.giveAll_id (supplied : List Supplied) (m : Message) :
    (supplied.foldl giveTo m).id = m.id := by
  induction supplied generalizing m with
  | nil => rfl
  | cons s ss ih => rw [List.foldl_cons, ih, giveTo_id]

theorem Message.read_id {m x : Message} {src rest : Bytes} (h : m.read src = .done x rest) :
    x.id = m.id := by
  have hv : (m.read src).value = x := by rw [h]; rfl
  rw [← hv]
  rfl

/-- A frame that takes back what it sent around a message gives the message and the bytes. -/
theorem Frame.readOne_takenBack {f : Frame} {m q : Message} {ok : Bytes → Prop}
    {same : List (Member Field) → Prop} (hl : ∀ l ∈ f.layers, l.Lenient m.id)
    (hq : f.registry.ofId m.id = [q] ∨
      f.registry.ofId m.id = [] ∧ f.sized = true ∧ q = .rawData m.id)
    (hp : ∀ c rest, m.write = .ok c → ok rest →
      ∃ x, (f.given m q).read (c ++ rest) = .done x rest ∧ same x.fields)
    {b : Bytes} (hw : f.write m = .ok b) (hb : b.length < 2 ^ 63) {rest : Bytes}
    (hr : PayloadFollowedBy ok f.layers rest) :
    ∃ x, f.readOne (b ++ rest) = .message x b.length ∧ x.frameBytes = b ∧ x.id = m.id ∧
      same x.fields := by
  have hid : q.id = m.id := by
    rcases hq with hq | ⟨-, -, rfl⟩
    · have hmem : q ∈ f.registry.ofId m.id := by rw [hq]; exact .head _
      simpa using (List.mem_filter.1 hmem).2
    · rfl
  have hread : ReadsPayload m q ok (fun x => x.id = m.id ∧ same x.fields)
      (carried m f.layers []) := by
    intro c rest hc hrest
    obtain ⟨x, hx, hsame⟩ := hp c rest hc hrest
    refine ⟨x, hx, ?_, hsame⟩
    rw [Message.read_id hx, given, Supplied.giveAll_id, hid]
  obtain ⟨x, ⟨hxid, hxf⟩, hlayers⟩ :=
    takeBack_layers hq hl f.payload_last (.inl f.any_isId) hread hw hb hr
  refine ⟨{ x with frameBytes := b }, ?_, rfl, hxid, hxf⟩
  unfold readOne
  rw [hlayers]
  dsimp only
  rw [List.take_left]

/-- **A frame reads back what it wrote**, whatever follows, if the one type of the id reads the
payload back whatever follows: the frame, the id and the fields are those of the message. `same` is
what the fields that are read share with those of the message, such as being equal to them. Lengths
are sent as signed words, so the frame is shorter than `2 ^ 63`, as every byte string in memory. -/
theorem Frame.readOne_write (f : Frame) {m p : Message} (same : List (Member Field) → Prop)
    (hl : ∀ l ∈ f.layers, l.Lenient m.id) (hp : f.registry.ofId m.id = [p])
    (hread : ∀ c, m.write = .ok c → ∀ t,
      ∃ x, (f.given m p).read (c ++ t) = .done x t ∧ same x.fields)
    {b : Bytes} (hw : f.write m = .ok b) (hb : b.length < 2 ^ 63) (rest : Bytes) :
    ∃ x, f.readOne (b ++ rest) = .message x b.length ∧ x.frameBytes = b ∧ x.id = m.id ∧
      same x.fields :=
  Frame.readOne_takenBack hl (.inl hp) (fun c t hc _ => hread c hc t) hw hb
    (payloadFollowedBy_true f.any_isPayload rest)

/-- A message of one byte. -/
def ping (seq : Int64) : Message where
  id := 1
  name := "Ping"
  fields := [⟨"seq", .int ((octet 0).withValue seq)⟩]

theorem ping_read {m : Message} (hf : m.fields = (ping 0).fields) (hr : m.rules = [])
    (rest : Bytes) : m.read ([8] ++ rest) = .done { m with fields := (ping 8).fields } rest := by
  have hint : (octet 0).read ([8] ++ rest) = .done ((octet 0).withValue 8) rest :=
    IntField.read_write_done (f := octet 0) (v := 8) rfl nofun rest
  have hseq : (Field.int (octet 0)).read ([8] ++ rest) =
      .done (.int ((octet 0).withValue 8)) rest := by
    rw [Field.read, hint]
    rfl
  have hmode : (Field.int ((octet 0).withValue 0)).inMode (requiredMode [] m.version []) =
      (.int (octet 0), false) := rfl
  rw [Message.read, hf, hr, ping, readFields_cons]
  simp only [hmode, hseq]
  rfl

/-- A frame with a layer of every kind. -/
def envelope : Frame where
  name := "Envelope"
  layers := [⟨"sync", .sync (octet 0x7e)⟩, ⟨"size", .size (octet 0) none⟩,
    ⟨"front", .checksum (octet 0) .xor .before⟩, ⟨"hops", .transport (octet 3) false⟩,
    ⟨"id", .id (.int (octet 0))⟩, ⟨"back", .checksum (octet 0) .sum .after⟩,
    ⟨"payload", .payload⟩]
  registry := { prototypes := [ping 0] }
  wellFormed := rfl

theorem envelope_lenient : ∀ l ∈ envelope.layers, l.Lenient 1 := by
  intro l hl
  rcases hl with _ | ⟨_, _ | ⟨_, _ | ⟨_, _ | ⟨_, _ | ⟨_, _ | ⟨_, _ | ⟨_, ⟨⟩⟩⟩⟩⟩⟩⟩⟩
  · exact ⟨rfl, rfl⟩
  · exact rfl
  · exact ⟨rfl, fun _ => rfl⟩
  · exact rfl
  · exact rfl
  · exact ⟨rfl, nofun⟩
  · trivial

theorem envelope_readOne_write :
    envelope.write (ping 8) = .ok [0x7e, 5, 2, 3, 1, 8, 8] ∧ ∃ x,
      envelope.readOne ([0x7e, 5, 2, 3, 1, 8, 8] ++ [0x7e, 5]) = .message x 7 ∧
        x.frameBytes = [0x7e, 5, 2, 3, 1, 8, 8] ∧ x.id = 1 ∧ x.fields = (ping 8).fields := by
  have hw : envelope.write (ping 8) = .ok [0x7e, 5, 2, 3, 1, 8, 8] := rfl
  have hread : ∀ c, (ping 8).write = .ok c → ∀ t,
      ∃ x, (envelope.given (ping 8) (ping 0)).read (c ++ t) = .done x t ∧
        x.fields = (ping 8).fields := by
    intro c hc t
    have hc' : (ping 8).write = .ok [8] := rfl
    obtain rfl : [8] = c := Except.ok.inj (hc'.symm.trans hc)
    exact ⟨_, ping_read (m := envelope.given (ping 8) (ping 0)) rfl rfl t, rfl⟩
  exact ⟨hw, envelope.readOne_write (· = (ping 8).fields) envelope_lenient rfl hread hw
    (by decide) [0x7e, 5]⟩

end WireProtocol
