import WireProtocol.Checksum
import WireProtocol.Registry

/-!
# Frames

A frame wraps a message in layers, each around all layers after it in the list. `Frame` carries the
fact that its layers are well formed: one id, the payload innermost, and a size around everything
that cannot find its own end.
-/

set_option autoImplicit false

namespace WireProtocol

/-- Where a checksum stands among the bytes that it covers. -/
inductive Placement where
  | before
  | after
  deriving DecidableEq, Repr

/-- What a layer adds to the layers inside it. -/
inductive LayerKind where
  /-- A marker, which is the default of the field. -/
  | sync (field : IntField)
  /-- The count of bytes of the layers inside, which may have a greatest allowed value. -/
  | size (field : IntField) (max : Option Nat)
  /-- The id of the message. -/
  | id (field : Field)
  /-- A value for the transport fields of the message, which may be its version. -/
  | transport (field : IntField) (version : Bool)
  | checksum (field : IntField) (algorithm : Checksum) (placement : Placement)
  /-- The fields of the message. -/
  | payload

structure Layer where
  name : String
  kind : LayerKind

namespace Layer

def isPayload (l : Layer) : Bool :=
  match l.kind with
  | .payload => true
  | _ => false

def isId (l : Layer) : Bool :=
  match l.kind with
  | .id _ => true
  | _ => false

def isSize (l : Layer) : Bool :=
  match l.kind with
  | .size .. => true
  | _ => false

def isSync (l : Layer) : Bool :=
  match l.kind with
  | .sync _ => true
  | _ => false

def isChecksum (l : Layer) : Bool :=
  match l.kind with
  | .checksum .. => true
  | _ => false

end Layer

/-! ## Well-formed frames -/

/-- The fault of a single layer, given whether a size is around it. -/
def Layer.fault? (sized : Bool) (l : Layer) : Option LayerFault :=
  match l.kind with
  | .sync field => if field.format.width.isFixed then none else some .syncNotFixed
  | .id (.int _) => none
  | .id (.enumeration _) => none
  | .id _ => some .idKind
  | .checksum _ _ .before => if sized then none else some .prefixUnbounded
  | _ => none

/-- The first fault of layers taken one by one, given whether a size is around them. -/
def layersFault? : (sized : Bool) → List Layer → Option LayerFault
  | _, [] => none
  | sized, l :: ls =>
    match l.fault? sized with
    | some fault => some fault
    | none => layersFault? (sized || l.isSize) ls

/-- Whether some layer gives the size of those inside it. -/
def isSized (layers : List Layer) : Bool := layers.any Layer.isSize

/-- The first fault of a frame, if there is one. -/
def frameFault? (layers : List Layer) (registry : Registry) : Option LayerFault :=
  if !(layers.getLast?.any Layer.isPayload) then some .payloadNotInnermost
  else if layers.countP Layer.isPayload ≠ 1 then some .payloadCount
  else if layers.countP Layer.isId ≠ 1 then some .idCount
  else
    match layersFault? false layers with
    | some fault => some fault
    | none =>
      if isSized layers then none
      else (registry.prototypes.find? Message.readsToEnd).map fun m => .messageUnbounded m.name

/-- Layers, outermost first, around the messages of a registry. -/
structure Frame where
  name : String
  layers : List Layer
  registry : Registry
  wellFormed : frameFault? layers registry = none

namespace Frame

/-- A frame of those layers, if they are well formed. -/
def ofLayers? (name : String) (layers : List Layer) (registry : Registry) :
    Except DefinitionError Frame :=
  match h : frameFault? layers registry with
  | some fault => .error (.frame name fault)
  | none => .ok ⟨name, layers, registry, h⟩

def sized (f : Frame) : Bool := isSized f.layers

end Frame

end WireProtocol
