import WireProtocol.Frame.Basic

/-!
# Writing frames

`Frame.write` wraps the bytes of a message in the layers of a frame, and `Frame.length` says how
many bytes that gives, by a recursion of its own. A size layer sends the length that is so
predicted, and checks it.
-/

set_option autoImplicit false

namespace WireProtocol

/-- The id field for a message. -/
def idFieldFor (field : Field) (m : Message) : Field := (field.assign (.int m.id.toInt64)).1

/-- The transport field for a message: its version if the field carries that, else the message's
transport field of that name. -/
def transportFieldFor (name : String) (field : IntField) (version : Bool) (m : Message) :
    IntField :=
  if version && m.versioned then field.withValue m.version.toInt64
  else
    match (m.transportField? name).bind (·.value.int?) with
    | some v => field.withValue v
    | none => field

/-- The count of bytes of layers around a message. -/
def layersLength (m : Message) : List Layer → Nat
  | [] => 0
  | ⟨name, kind⟩ :: ls =>
    let inside := layersLength m ls
    let own := match kind with
      | .sync field => field.length
      | .checksum field _ _ => field.length
      | .size field _ => (field.withCount inside).length
      | .id field => (idFieldFor field m).length
      | .transport field version => (transportFieldFor name field version m).length
      | .payload => m.length
    own + inside

/-- The checksum of some bytes, as its field sends it. -/
def checksumField (field : IntField) (algorithm : Checksum) (covered : Bytes) : IntField :=
  field.withValue (algorithm.compute covered &&& lowBits (8 * field.length)).toInt64

/-- The bytes of layers around a message. -/
def writeLayers (m : Message) : List Layer → Except CodecError Bytes
  | [] => .ok []
  | ⟨name, kind⟩ :: ls =>
    match kind with
    | .sync field => do
      let front ← field.write
      return front ++ (← writeLayers m ls)
    | .size field max =>
      let predicted := layersLength m ls
      if max.any (· < predicted) then
        .error (.overflow (.frameSize predicted (max.getD 0)))
      else do
        let front ← (field.withCount predicted).write
        let inside ← writeLayers m ls
        if inside.length = predicted then return front ++ inside
        else .error (.invalidData (.sizeMispredicted predicted inside.length))
    | .id field => do
      let front ← (idFieldFor field m).write
      return front ++ (← writeLayers m ls)
    | .transport field version => do
      let front ← (transportFieldFor name field version m).write
      return front ++ (← writeLayers m ls)
    | .payload => m.write
    | .checksum field algorithm .after => do
      let inside ← writeLayers m ls
      return inside ++ (← (checksumField field algorithm inside).write)
    | .checksum field algorithm .before => do
      -- room for the checksum has to be there before the bytes that it covers
      let _ ← (field.withValue 0).write
      let inside ← writeLayers m ls
      return (← (checksumField field algorithm inside).write) ++ inside

namespace Frame

/-- The bytes of a message in the frame. -/
def write (f : Frame) (m : Message) : Except CodecError Bytes := writeLayers m f.layers

/-- The count of bytes of a message in the frame. -/
def length (f : Frame) (m : Message) : Nat := layersLength m f.layers

end Frame

end WireProtocol
