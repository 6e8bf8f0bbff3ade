import WireProtocol.Frame.Basic

/-!
# Reading frames

`Frame.readOne` tries to read one frame from the front of a byte string. The layers are read
outermost first; a size layer bounds the bytes that the layers inside it see, and a checksum layer
covers the bytes that they consumed. The message types of an id are tried in order until one does
not find its content malformed.
-/

set_option autoImplicit false

namespace WireProtocol

/-- A transport value that was read. -/
structure Supplied where
  name : String
  field : IntField
  /-- Whether it is the version. -/
  version : Bool

namespace Supplied

/-- Puts a value in the place of one of the same name, or at the end. -/
def put (s : Supplied) : List Supplied → List Supplied
  | [] => [s]
  | t :: ts => if t.name == s.name then s :: ts else t :: put s ts

/-- Gives a message a transport value. -/
def giveTo (m : Message) (s : Supplied) : Message :=
  let m := m.setTransportField s.name (.int s.field)
  if s.version then m.setVersion s.field.value.toUInt64 else m

end Supplied

/-- How reading a list of layers ended. Counts are of the bytes from where the layers begin. -/
inductive LayerRead where
  | done (message : Option Message) (consumed : Nat)
  /-- A checksum did not match; `extent` is where the frame ends as far as it is known. -/
  | mismatch (computed received : UInt64) (message : Option Message) (extent : Nat)
  | failed (e : CodecError)

/-- The count of bytes that were taken from `src` if `rest` is left. -/
def taken (src rest : Bytes) : Nat := src.length - rest.length

namespace LayerRead

/-- The result for `rest` as seen from `src`, which ends with it. -/
def seenFrom (src rest : Bytes) : LayerRead → LayerRead
  | .done m consumed => .done m (taken src rest + consumed)
  | .mismatch computed received m extent =>
    .mismatch computed received m (taken src rest + extent)
  | .failed e => .failed e

/-- The result of the layers inside a region of `len` bytes, all of which count as consumed. -/
def inRegion (len : Nat) : LayerRead → LayerRead
  | .done m _ => .done m len
  | .mismatch computed received m _ => .mismatch computed received m len
  | .failed (.notEnoughData missing) => .failed (.notAFrame (.contentOverrun missing))
  | .failed e => .failed e

/-- The result once a checksum was received for some bytes. -/
def compare (computed received : UInt64) (m : Option Message) (consumed : Nat) : LayerRead :=
  if computed = received then .done m consumed else .mismatch computed received m consumed

end LayerRead

/-- Reads an integer and gives it with the rest of the input to `next`. -/
def withInt (field : IntField) (src : Bytes) (next : IntField → Bytes → LayerRead) : LayerRead :=
  let o := field.read src
  match o.error with
  | some e => .failed e
  | none => next o.value o.rest

/-- The bits of a checksum that its field holds. -/
def checksumMask (field : IntField) : UInt64 := lowBits (8 * field.length)

/-- Tries message types in order up to the first whose content is not malformed, or the last. -/
def dispatch (id : UInt64) (attempt : Message → LayerRead) : List Message → LayerRead
  | [] => .failed (.unknownId id)
  | [m] => attempt m
  | m :: ms =>
    match attempt m with
    | .failed (.invalidData _) => dispatch id attempt ms
    | r => r

/-- Reads the payload into a message that has been given its transport values. -/
def readPayload (supplied : List Supplied) (message : Option Message) (src : Bytes) : LayerRead :=
  match message with
  | none => .failed (.notAFrame .noMessageType)
  | some m =>
    let o := (supplied.foldl Supplied.giveTo m).read src
    match o.error with
    | some e => .failed e
    | none => .done (some o.value) (taken src o.rest)

/-- Reads layers from the front of the input, given the transport values and the message type that
the layers around them have found. -/
def readLayers (registry : Registry) (sized : Bool) :
    List Layer → List Supplied → Option Message → Bytes → LayerRead
  | [], _, message, _ => .done message 0
  | ⟨name, kind⟩ :: ls, supplied, message, src =>
    match kind with
    | .sync field =>
      withInt field src fun f rest =>
        if f.value = field.default then
          (readLayers registry sized ls supplied message rest).seenFrom src rest
        else .failed (.notAFrame (.syncMismatch f.value))
    | .size field max =>
      withInt field src fun f rest =>
        let len := f.value.toInt.toNat
        if f.value < 0 then .failed (.notAFrame (.negativeSize f.value))
        else if max.any (· < len) then
          .failed (.notAFrame (.sizeAboveMaximum len (max.getD 0)))
        else
          match Bytes.take? len rest with
          | .error missing => .failed (.notEnoughData missing)
          | .ok (region, _) =>
            ((readLayers registry sized ls supplied message region).inRegion len).seenFrom src rest
    | .id field =>
      let o := field.read src
      match o.error with
      | some e => .failed e
      | none =>
        let id := o.value.value.bits?.getD 0
        match registry.ofId id with
        | [] =>
          if sized then
            (readLayers registry sized ls supplied (some (.rawData id)) o.rest).seenFrom src o.rest
          else .failed (.unknownId id)
        | types =>
          (dispatch id
            (fun m => readLayers registry sized ls supplied (some m) o.rest) types).seenFrom src
              o.rest
    | .transport field version =>
      withInt field src fun f rest =>
        (readLayers registry sized ls (Supplied.put ⟨name, f, version⟩ supplied) message
          rest).seenFrom src rest
    | .payload => readPayload supplied message src
    | .checksum field algorithm .after =>
      match readLayers registry sized ls supplied message src with
      | .done message n =>
        let outside := src.drop n
        withInt field outside fun f rest =>
          let mask := checksumMask field
          .compare (algorithm.compute (src.take n) &&& mask) (f.value.toUInt64 &&& mask) message
            (n + taken outside rest)
      | r => r
    | .checksum field algorithm .before =>
      withInt field src fun f rest =>
        match readLayers registry sized ls supplied message rest with
        | .done message n =>
          let mask := checksumMask field
          .compare (algorithm.compute (rest.take n) &&& mask) (f.value.toUInt64 &&& mask) message
            (taken src rest + n)
        | r => r.seenFrom src rest

/-! ## One frame -/

/-- Why the front of a byte string is no frame. -/
inductive GarbageCause where
  | codec (e : CodecError)
  /-- No layer gave a message. -/
  | noMessage
  /-- A checksum failed with no message to report it on. -/
  | mismatch

def GarbageCause.text : GarbageCause → String
  | .codec e => e.text
  | .noMessage => "frame produced no message"
  | .mismatch => "checksum mismatch"

/-- The result of trying to read a frame. -/
inductive FrameRead where
  /-- A frame of `consumed` bytes. -/
  | message (m : Message) (consumed : Nat)
  /-- The start of a frame that goes on for at least `missing` more bytes. -/
  | notEnoughData (missing : Nat)
  | garbage (cause : GarbageCause)
  /-- A frame of `consumed` bytes whose checksum did not match. -/
  | checksumFailure (m : Message) (consumed : Nat)

/-- Tries to read a frame from the front of a byte string. -/
def Frame.readOne (f : Frame) (src : Bytes) : FrameRead :=
  match readLayers f.registry f.sized f.layers [] none src with
  | .done (some m) n => .message { m with frameBytes := src.take n } n
  | .done none _ => .garbage .noMessage
  | .mismatch _ _ (some m) n =>
    .checksumFailure { m with kind := .invalid .checksumFailure, frameBytes := src.take n } n
  | .mismatch _ _ none _ => .garbage .mismatch
  | .failed (.notEnoughData missing) => .notEnoughData missing
  | .failed e => .garbage (.codec e)

end WireProtocol
