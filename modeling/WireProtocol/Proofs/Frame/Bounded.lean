import WireProtocol.Proofs.Frame.Reading
import WireProtocol.Proofs.Frame.RoundTrip

/-!
# Payloads that end with their region

A payload that reads to the end of its input, as raw data does, is given the whole region of the
innermost size layer. It is read as it was written if no checksum stands behind it in that region
(`Frame.readOne_write_bounded`); raw data is not read at all if one does.
-/

set_option autoImplicit false

namespace WireProtocol

/-! ## The innermost region -/

/-- The layer stands behind the layers inside it. -/
def Layer.isTrailer (l : Layer) : Bool :=
  match l.kind with
  | .checksum _ _ .after => true
  | _ => false

/-- The layers inside the innermost size layer, or all if there is none. -/
def innermost : List Layer → List Layer
  | [] => []
  | l :: ls => if isSized ls then innermost ls else if l.isSize then ls else l :: ls

theorem innermost_of_unsized {ls : List Layer} (h : isSized ls = false) : innermost ls = ls := by
  cases ls with
  | nil => rfl
  | cons l ls =>
    have hl : l.isSize = false ∧ isSized ls = false := by simpa [isSized] using h
    rw [innermost, hl.1, hl.2]
    rfl

/-- The innermost region of layers around a size layer is that of the size layer. -/
theorem innermost_of_sized {l : Layer} {ls : List Layer} (h : isSized ls = true) :
    innermost (l :: ls) = innermost ls := by
  rw [innermost, if_pos h]

/-! ## What a written payload is followed by -/

/-- Without a checksum behind it the payload ends where the input does. -/
theorem payloadFollowedBy_nil {ls : List Layer} (ht : ∀ l ∈ ls, l.isTrailer = false)
    (h : ls.any Layer.isPayload = true) : PayloadFollowedBy (· = []) ls [] := by
  induction ls with
  | nil => cases h
  | cons l ls ih =>
    have ih := ih fun l hl => ht l (.tail _ hl)
    have hl := ht l (.head _)
    obtain ⟨name, kind⟩ := l
    cases kind with
    | payload => exact rfl
    | sync field => exact ih h
    | size field max => exact ih h
    | id field => exact ih h
    | transport field version => exact ih h
    | checksum field algorithm placement =>
      cases placement with
      | before => exact ih h
      | after => cases hl

/-- It ends where the innermost region does, whatever the layers around that region send. -/
theorem payloadFollowedBy_innermost {ls : List Layer} (hs : isSized ls = true)
    (ht : ∀ l ∈ innermost ls, l.isTrailer = false)
    (hlast : ls.Pairwise fun l _ => l.isPayload = false) (h : ls.any Layer.isPayload = true)
    (rest : Bytes) : PayloadFollowedBy (· = []) ls rest := by
  induction ls generalizing rest with
  | nil => cases h
  | cons l ls ih =>
    obtain ⟨hpayload, hlast⟩ := List.pairwise_cons.1 hlast
    by_cases hin : isSized ls = true
    · rw [innermost_of_sized hin] at ht
      obtain ⟨l', hl', -⟩ := List.any_eq_true.1 hin
      have hnot := hpayload l' hl'
      have ih := ih hin ht hlast (by simpa [hnot] using h)
      obtain ⟨name, kind⟩ := l
      cases kind with
      | payload => cases hnot
      | sync field => exact ih rest
      | size field max => exact ih []
      | id field => exact ih rest
      | transport field version => exact ih rest
      | checksum field algorithm placement =>
        cases placement with
        | before => exact ih rest
        | after => exact fun c => ih (c ++ rest)
    · rw [isSized, List.any_cons, Bool.or_eq_true] at hs
      have hl := hs.resolve_right hin
      rw [innermost, if_neg hin, if_pos hl] at ht
      obtain ⟨name, kind⟩ := l
      cases kind with
      | size field max => exact payloadFollowedBy_nil ht h
      | _ => cases hl

/-! ## Raw data -/

theorem Field.inMode_unknown (mode : Option OptionalMode) (data : Bytes) :
    (Field.unknown data).inMode mode = (.unknown data, false) := by
  cases mode <;> rfl

/-- A message of one opaque field takes all bytes. -/
theorem Message.read_unknown {m : Message} {name : String} {data : Bytes}
    (h : m.fields = [⟨name, .unknown data⟩]) (src : Bytes) :
    m.read src = .done { m with fields := [⟨name, .unknown src⟩] } [] := by
  rw [Message.read, h, readFields_cons, Field.inMode_unknown, Field.read]
  rfl

theorem Message.write_unknown {m : Message} {name : String} {data : Bytes}
    (h : m.fields = [⟨name, .unknown data⟩]) : m.write = .ok data := by
  rw [Message.write, h]
  show Except.ok (data ++ []) = _
  rw [List.append_nil]

/-! ## Checksums behind raw data -/

/-- The message is one opaque field unless its id has a type. -/
def Message.OpaqueIn (registry : Registry) (m : Message) : Prop :=
  registry.ofId m.id = [] → ∃ name data, m.fields = [⟨name, .unknown data⟩]

theorem Registry.opaqueIn_typeRead? {registry : Registry} {sized : Bool} {id : UInt64}
    {attempt : Message → LayerRead} {m : Message}
    (h : registry.typeRead? sized id attempt = some m) : m.OpaqueIn registry := by
  intro hid
  rcases typeRead?_cases h with hm | ⟨-, -, rfl⟩
  · rw [typeRead?_id h] at hid
    rw [hid] at hm
    cases hm
  · exact ⟨"data", [], rfl⟩

/-- No checksum stands behind the payload in the innermost region, and without a size layer the
layers consume `n` bytes, all that there are. -/
def EndsRegion (ls : List Layer) (src : Bytes) (n : Nat) : Prop :=
  (∀ l ∈ innermost ls, l.isTrailer = false) ∧ (isSized ls = false → n = src.length)

/-- A layer that sends `c` in front of the layers inside. -/
theorem EndsRegion.front {l : Layer} {ls : List Layer} {src c rest : Bytes} {k : Nat}
    (h : EndsRegion ls rest k) (hl : l.isTrailer = false) (hs : src = c ++ rest) :
    EndsRegion (l :: ls) src (c.length + k) := by
  obtain ⟨hnone, hall⟩ := h
  refine ⟨fun l' hl' => ?_, fun hsz => ?_⟩
  · cases hin : isSized ls with
    | true =>
      rw [innermost_of_sized hin] at hl'
      exact hnone l' hl'
    | false =>
      rw [innermost_of_unsized hin] at hnone
      rw [innermost, hin] at hl'
      cases hsize : l.isSize with
      | true =>
        rw [hsize] at hl'
        exact hnone l' hl'
      | false =>
        rw [hsize] at hl'
        rcases List.mem_cons.1 hl' with rfl | hl'
        · exact hl
        · exact hnone l' hl'
  · rw [isSized, List.any_cons, Bool.or_eq_false_iff] at hsz
    rw [hs, List.length_append, hall hsz.2]

/-- **Raw data is followed by no checksum in its region**: if layers are read around a message whose
id has no type, its payload took all bytes of the innermost region. -/
theorem readLayers_untyped {registry : Registry} {sized : Bool} {ls : List Layer}
    (hlast : ls.Pairwise fun l _ => l.isPayload = false) (hp : ls.any Layer.isPayload = true)
    {supplied : List Supplied} {message : Option Message}
    (hm : ∀ m ∈ message, m.OpaqueIn registry) {src : Bytes} {x : Message} {n : Nat}
    (h : readLayers registry sized ls supplied message src = .done (some x) n)
    (hx : registry.ofId x.id = []) : EndsRegion ls src n := by
  induction ls generalizing supplied message src n with
  | nil => cases hp
  | cons l ls ih =>
    obtain ⟨hpayload, hlast⟩ := List.pairwise_cons.1 hlast
    have ih := @ih hlast
    obtain ⟨name, kind⟩ := l
    cases kind with
    | sync field =>
      obtain ⟨c, rest, k, ht, hk, rfl⟩ := readLayers_sync_inv h
      exact (ih hp hm hk).front rfl ht.split
    | size field max =>
      obtain ⟨v, c, region, rest, k, -, -, -, -, hk, -⟩ := readLayers_size_inv h
      exact ⟨((ih hp hm hk).front rfl (List.nil_append region).symm).1, fun hs => by cases hs⟩
    | id field =>
      obtain ⟨f, c, rest, m, k, -, hsplit, htype, hk, rfl⟩ := readLayers_id_inv h
      have hopaque : ∀ m' ∈ some m, m'.OpaqueIn registry := by
        rintro _ ⟨⟩
        exact Registry.opaqueIn_typeRead? htype
      exact (ih hp hopaque hk).front rfl hsplit
    | transport field version =>
      obtain ⟨v, c, rest, k, ht, hk, rfl⟩ := readLayers_transport_inv h
      exact (ih hp hm hk).front rfl ht.split
    | payload =>
      obtain rfl := inside_payload hpayload
      refine ⟨List.forall_mem_singleton.2 rfl, fun _ => ?_⟩
      obtain ⟨m, y, rest, rfl, hread, hy, rfl⟩ := readLayers_payload_inv h
      cases hy
      have hid : x.id = m.id := (Message.read_id hread).trans (Supplied.giveAll_id supplied m)
      obtain ⟨_, _, hf⟩ := hm m rfl (by rw [← hid]; exact hx)
      rw [Message.read_unknown ((Supplied.giveAll_fields supplied m).trans hf)] at hread
      obtain rfl : [] = rest := congrArg Outcome.rest hread
      rfl
    | checksum field algorithm placement =>
      cases placement with
      | before =>
        obtain ⟨v, c, rest, k, ht, -, hk, rfl⟩ := readLayers_before_inv h
        exact (ih hp hm hk).front rfl ht.split
      | after =>
        obtain ⟨v, c, rest, k, ht, -, hk, rfl⟩ := readLayers_after_inv h
        obtain ⟨hnone, hall⟩ := ih hp hm hk
        -- behind a payload that took all bytes there is none left for the checksum
        have hsized : isSized ls = true := by
          by_contra hs
          have hsplit := ht.split
          rw [hall (by simpa using hs), List.drop_length] at hsplit
          have hc := ht.length_pos
          rw [(List.append_eq_nil_iff.1 hsplit.symm).1] at hc
          cases hc
        refine ⟨?_, fun hs => ?_⟩
        · rw [innermost_of_sized hsized]
          exact hnone
        · have hnot : isSized ls = false := hs
          rw [hsized] at hnot
          cases hnot

/-! ## Frames -/

/-- **A frame with a size layer reads back what it wrote** if the payload, given just its bytes, is
read back, and no checksum stands behind the payload in the innermost region. The payload is that of
raw data, or is read by the one type of the id. For raw data the condition is needed: with a checksum
there nothing that the frame reads is raw data. -/
theorem Frame.readOne_write_bounded (f : Frame) (hsz : f.sized = true) {m : Message}
    (same : List (Member Field) → Prop) (hl : ∀ l ∈ f.layers, l.Lenient m.id)
    (hm : (f.registry.ofId m.id = [] ∧ same m.fields ∧
        ∃ data, m.fields = [⟨"data", .unknown data⟩]) ∨
      ∃ p, f.registry.ofId m.id = [p] ∧ ∀ c, m.write = .ok c →
        ∃ x, (f.given m p).read c = .done x [] ∧ same x.fields)
    {b : Bytes} (hw : f.write m = .ok b) (hb : b.length < 2 ^ 63) :
    ((∀ l ∈ innermost f.layers, l.isTrailer = false) → ∀ rest,
      ∃ x, f.readOne (b ++ rest) = .message x b.length ∧ x.frameBytes = b ∧ x.id = m.id ∧
        same x.fields) ∧
      (f.registry.ofId m.id = [] → ∀ src x n, f.readOne src = .message x n → x.id = m.id →
        ∀ l ∈ innermost f.layers, l.isTrailer = false) := by
  refine ⟨fun ht rest => ?_, fun hid src x n hr hx => ?_⟩
  · have hr := payloadFollowedBy_innermost hsz ht f.payload_last f.any_isPayload rest
    rcases hm with ⟨hid, hsame, data, hf⟩ | ⟨p, hid, hread⟩
    · refine Frame.readOne_takenBack hl (.inr ⟨hid, hsz, rfl⟩) ?_ hw hb hr
      rintro c rest hc rfl
      obtain rfl : data = c := Except.ok.inj ((Message.write_unknown hf).symm.trans hc)
      have hraw : (f.given m (.rawData m.id)).fields = [⟨"data", .unknown []⟩] :=
        Supplied.giveAll_fields _ _
      rw [List.append_nil]
      refine ⟨_, Message.read_unknown hraw data, ?_⟩
      rw [hf] at hsame
      exact hsame
    · refine Frame.readOne_takenBack hl (.inl hid) ?_ hw hb hr
      rintro c rest hc rfl
      rw [List.append_nil]
      exact hread c hc
  · obtain ⟨y, hy, rfl⟩ := Frame.readOne_inv hr
    have hy' : f.registry.ofId y.id = [] := by
      have hyid : y.id = m.id := hx
      rw [hyid, hid]
    exact (readLayers_untyped f.payload_last f.any_isPayload (by rintro _ ⟨⟩) hy hy').1

/-- A message of one text that goes on to the end. -/
def note (text : Bytes) : Message where
  id := 1
  name := "Note"
  fields := [⟨"text", .text ⟨.remainder, text⟩⟩]

/-- A checksum around the size. -/
def enclosedFrame : Frame where
  name := "Enclosed"
  layers := [⟨"sum", .checksum (octet 0) .sum .after⟩, ⟨"size", .size (octet 0) none⟩,
    ⟨"id", .id (.int (octet 0))⟩, ⟨"payload", .payload⟩]
  registry := { prototypes := [note []] }
  wellFormed := rfl

theorem enclosedFrame_lenient : ∀ l ∈ enclosedFrame.layers, l.Lenient 1 := by
  intro l hl
  rcases hl with _ | ⟨_, _ | ⟨_, _ | ⟨_, _ | ⟨_, ⟨⟩⟩⟩⟩⟩
  · exact ⟨rfl, nofun⟩
  · exact rfl
  · exact rfl
  · trivial

/-- The text is followed by a checksum, which the size does not count. -/
theorem enclosedFrame_readOne_write :
    enclosedFrame.write (note [104, 105]) = .ok [3, 1, 104, 105, 213] ∧ ∀ rest, ∃ x,
      enclosedFrame.readOne ([3, 1, 104, 105, 213] ++ rest) = .message x 5 ∧
        x.frameBytes = [3, 1, 104, 105, 213] ∧ x.id = 1 ∧
        x.fields = (note [104, 105]).fields := by
  have hw : enclosedFrame.write (note [104, 105]) = .ok [3, 1, 104, 105, 213] := rfl
  have hread : ∀ c, (note [104, 105]).write = .ok c →
      ∃ x, (enclosedFrame.given (note [104, 105]) (note [])).read c = .done x [] ∧
        x.fields = (note [104, 105]).fields := by
    intro c hc
    have hc' : (note [104, 105]).write = .ok [104, 105] := rfl
    obtain rfl : [104, 105] = c := Except.ok.inj (hc'.symm.trans hc)
    exact ⟨note [104, 105], rfl, rfl⟩
  refine ⟨hw, (enclosedFrame.readOne_write_bounded rfl (· = (note [104, 105]).fields)
    enclosedFrame_lenient (.inr ⟨_, rfl, hread⟩) hw (by decide)).1 fun l hl => ?_⟩
  rcases hl with _ | ⟨_, _ | ⟨_, ⟨⟩⟩⟩ <;> rfl

/-- The size around the checksum. -/
def trailedFrame : Frame where
  name := "Trailed"
  layers := [⟨"size", .size (octet 0) none⟩, ⟨"sum", .checksum (octet 0) .sum .after⟩,
    ⟨"id", .id (.int (octet 0))⟩, ⟨"payload", .payload⟩]
  registry := { prototypes := [note []] }
  wellFormed := rfl

/-- With the checksum in its region a text takes the checksum too, and the frame is not read as it
was written. -/
theorem trailedFrame_readOne_garbage :
    trailedFrame.sized = true ∧ trailedFrame.registry.ofId 1 = [note []] ∧
      (note []).write = .ok [] ∧
      (trailedFrame.given (note []) (note [])).read [] = .done (note []) [] ∧
      trailedFrame.write (note []) = .ok [2, 1, 1] ∧
      trailedFrame.readOne [2, 1, 1] =
        .garbage (.codec (.notAFrame (.contentOverrun 1))) :=
  ⟨rfl, rfl, rfl, rfl, rfl, rfl⟩

end WireProtocol
