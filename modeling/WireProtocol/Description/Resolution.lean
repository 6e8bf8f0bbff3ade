import WireProtocol.Description.Reading
import WireProtocol.Description.Types
import WireProtocol.Engine

/-!
# Protocols of descriptions

What a description declares becomes message prototypes and a frame. Layers are declared in the order
in which their bytes are sent; a checksum after the payload is put around the first layer that it
covers, and every other layer around those after it.
-/

set_option autoImplicit false

namespace WireProtocol

namespace TypeTable

variable (t : TypeTable)

/-! ## Messages -/

/-- The value of an item of an enumeration. -/
def itemValue (enumeration item : String) : Resolved Int64 :=
  match t.find? enumeration with
  | some (.enumeration d) =>
    match d.values.find? (·.1 == item) with
    | some v => .ok v.2
    | none => .error (.reported (.unknownRef (.valueOf enumeration) item))
  | _ => .error (.reported (.unknownRef .enumeration enumeration))

/-- The id of a message. -/
def messageId (message : String) : IdSpec → Resolved UInt64
  | .number n => .ok n
  | .item enumeration item => do
    let v ← t.itemValue enumeration item
    if v < 0 then broken (.negativeId message) else return v.toUInt64

/-- The index of a bit that is given by its index or its name. -/
def bitIndex (m : Message) (mask bit : String) : Resolved Nat :=
  match Text.numeralBelow? UInt32.size 10 bit.toList with
  | some i => .ok i
  | none =>
    match ((m.field? mask).bind Field.bitmask?).bind (·.indexOf? bit) with
    | some i => .ok i
    | none => .error (.reported (.unknownRef (.bitOf mask) bit))

/-- What a condition says about presence in a message. -/
def presence (m : Message) : ConditionSpec → Resolved Presence
  | .bit mask bit set => return .bit mask (← bitIndex m mask bit) set
  | .versionAtLeast v => .ok (.versionAtLeast v)
  | .versionBelow v => .ok (.versionBelow v)

/-- A message with one more field. A field with a condition is made optional. -/
def addField (m : Message) (d : FieldDecl) : Resolved Message := do
  let path := memberPath m.name d.name
  if (m.field? d.name).isSome then throw (.reported (.duplicate (.field path)))
  let f ← t.field path d.type d.attrs
  let f := if d.attrs.condition.isSome && !f.isOptional then
      Field.optional (.ofField f .missing)
    else f
  return m.withField d.name f

/-- A message with the condition of a field. -/
def addCondition (m : Message) (d : FieldDecl) : Resolved Message :=
  match d.attrs.condition with
  | none => .ok m
  | some c => do reporting (m.withPresence? d.name (← presence m c))

/-- The prototype of a message. -/
def message (d : MessageDecl) : Resolved Message := do
  let id ← t.messageId d.name d.id
  let m : Message := { id, name := d.name, display := d.display, versioned := d.versioned }
  let m ← d.fields.foldlM t.addField m
  d.fields.foldlM addCondition m

/-- The prototypes of messages, whose names have to differ. -/
def messages : (seen : List String) → List MessageDecl → Resolved (List Message)
  | _, [] => .ok []
  | seen, d :: ds => do
    if d.name ∈ seen then throw (.reported (.duplicate (.message d.name)))
    let m ← t.message d
    return m :: (← messages (d.name :: seen) ds)

/-! ## Layers -/

/-- A layer, and the name of the first layer that it covers if it is a checksum after the payload
that names one. -/
structure SentLayer where
  layer : Layer
  covered : Option String

/-- The layer of a declaration, before or after the payload. -/
def layer (frame : String) (afterPayload : Bool) (d : LayerDecl) : Resolved SentLayer := do
  let path := memberPath frame d.name
  let plain (kind : LayerKind) : SentLayer := ⟨⟨d.name, kind⟩, none⟩
  let sent ← match d.spec with
    | .sync s value => do
      let _ ← fixedBytes path s
      pure (plain (.sync ((t.int s).withDefault value)))
    | .size s offset max => pure (plain (.size { t.int s with offset } max))
    | .id type => do pure (plain (.id (← t.field path type {})))
    | .transport s version => pure (plain (.transport (t.int s) version))
    | .checksum s algorithm covered =>
      match Checksum.ofName? algorithm with
      | none => throw (.reported (.frame frame (.unknownChecksum algorithm)))
      | some c =>
        if afterPayload then pure ⟨⟨d.name, .checksum (t.int s) c .after⟩, covered⟩
        else if covered.isSome then
          throw (.reported (.frame frame (.overBeforePayload d.name)))
        else pure (plain (.checksum (t.int s) c .before))
    | .payload => pure (plain .payload)
  if afterPayload && !sent.layer.isChecksum then
    throw (.reported (.frame frame (.afterPayload d.name)))
  return sent

/-- Layers up to the payload and those after it, in the order in which they are sent. -/
def sentLayers (frame : String) :
    (afterPayload : Bool) → List LayerDecl → Resolved (List SentLayer × List SentLayer)
  | _, [] => .ok ([], [])
  | afterPayload, d :: ds => do
    let l ← t.layer frame afterPayload d
    let (front, back) ← sentLayers frame (afterPayload || d.spec.isPayload) ds
    return if afterPayload then (front, l :: back) else (l :: front, back)

/-- Puts a checksum after the payload around the first layer that it covers, which is the first
that is no marker unless one is named. -/
def nest (nested : List Layer) (l : SentLayer) : Resolved (List Layer) := do
  let i ← match l.covered with
    | some name =>
      match nested.findIdx? (·.name == name) with
      | some i => pure i
      | none => throw (.reported (.unknownRef .layer name))
    | none => pure ((nested.findIdx? (!·.isSync)).getD 0)
  return nested.take i ++ l.layer :: nested.drop i

/-- The names of the ids if the id layer is an enumeration, of the last id layer if there are
several. -/
def idNames (layers : List Layer) : List (String × UInt64) :=
  layers.foldl (fun names l =>
    match l.kind with
    | .id (.enumeration e) => e.names.map fun n => (n.2, n.1.toUInt64)
    | _ => names) []

/-- The layers of a frame, outermost first. -/
def frameLayers (d : FrameDecl) : Resolved (List Layer) := do
  if !(d.layers.any (·.spec.isPayload)) then throw (.reported (.frame d.name .payloadMissing))
  let (front, back) ← t.sentLayers d.name false d.layers
  back.foldlM nest (front.map (·.layer))

end TypeTable

/-! ## Protocols -/

/-- The protocol that a description declares. -/
def Description.resolve (d : Description) : Resolved Protocol := do
  let t ← TypeTable.ofDescription d
  let frame ← match d.frames with
    | [frame] => pure frame
    | [] => broken .noFrame
    | _ => broken .severalFrames
  let prototypes ← t.messages [] d.messages
  let layers ← t.frameLayers frame
  let registry := { prototypes, idNames := TypeTable.idNames layers }
  return ⟨d.name.getD frame.name, ← reporting (Frame.ofLayers? frame.name layers registry)⟩

/-- The protocol of a source text. -/
def Protocol.ofSource (source : String) : Resolved Protocol := do
  let d ← reporting ((Description.read source).mapError .parse)
  d.resolve

/-- An engine for the protocol of a source text. -/
def Engine.ofSource (source : String) : Resolved Engine :=
  return .ofProtocol (← Protocol.ofSource source)

end WireProtocol
