import WireProtocol.Field.Bounds
import WireProtocol.Field.Edit
import WireProtocol.Field.View
import WireProtocol.DefinitionError

/-!
# Messages

A message is a list of named fields with an id. Presence rules tie an optional field to a bit of an
earlier bitmask or to the version that the transport supplies. They are applied to a field just
before it is read, when the masks in front of it are known, and by `Message.refresh`.
-/

set_option autoImplicit false

namespace WireProtocol

/-! ## Presence -/

/-- What the presence of an optional field depends on. -/
inductive Presence where
  /-- A bit of the bitmask of that name is set, or clear. -/
  | bit (mask : String) (bit : Nat) (set : Bool)
  | versionAtLeast (version : UInt64)
  | versionBelow (version : UInt64)
  deriving DecidableEq

/-- A condition on the fields before a field and on the version. -/
inductive Condition where
  /-- A bit of the bitmask at that index is set, or clear. -/
  | bit (mask : Nat) (bit : Nat) (set : Bool)
  | versionAtLeast (version : UInt64)
  | versionBelow (version : UInt64)
  deriving DecidableEq

/-- A condition for the field at an index to be there. -/
structure PresenceRule where
  target : Nat
  condition : Condition
  deriving DecidableEq

/-! ## The type -/

/-- Why bytes are no regular message. -/
inductive InvalidReason where
  /-- They did not start a frame. -/
  | garbage
  /-- They are a frame whose checksum did not match. -/
  | checksumFailure
  deriving DecidableEq, Repr

def InvalidReason.name : InvalidReason → String
  | .garbage => "Garbage"
  | .checksumFailure => "ChecksumFailure"

inductive MessageClass where
  /-- Made after a registered message type. -/
  | regular
  /-- Framed under an id without a message type. -/
  | rawData
  | invalid (reason : InvalidReason)
  deriving DecidableEq, Repr

/-- A message. -/
structure Message where
  id : UInt64
  name : String
  /-- The name to show, if it is not the name of the type. -/
  display : Option String := none
  fields : List (Member Field) := []
  rules : List PresenceRule := []
  /-- Whether the message takes a version from the transport. -/
  versioned : Bool := false
  version : UInt64 := 0
  /-- Fields that frame layers supply. -/
  transport : List (Member Field) := []
  kind : MessageClass := .regular
  /-- The frame that the message was read from. -/
  frameBytes : Bytes := []

namespace Message

/-- A message of an unregistered id, with its payload as it came. -/
def rawData (id : UInt64) : Message :=
  { id, name := "RawData", fields := [⟨"data", .unknown []⟩], kind := .rawData }

/-- Bytes that are no message. -/
def invalid (reason : InvalidReason) (bs : Bytes) : Message :=
  { id := 0, name := reason.name, fields := [⟨"data", .unknown bs⟩]
    kind := .invalid reason, frameBytes := bs }

def displayName (m : Message) : String := m.display.getD m.name

/-- The first field of that name. -/
def field? (m : Message) (name : String) : Option Field := Member.find? name m.fields

/-- The first transport field of that name. -/
def transportField? (m : Message) (name : String) : Option Field := Member.find? name m.transport

def withField (m : Message) (name : String) (field : Field) : Message :=
  { m with fields := m.fields ++ [⟨name, field⟩] }

/-- Takes the version, if the message takes any. -/
def setVersion (m : Message) (version : UInt64) : Message :=
  if m.versioned then { m with version } else m

/-- Gives the first member of that name a field, or appends one. -/
def putMember (name : String) (field : Field) : List (Member Field) → List (Member Field)
  | [] => [⟨name, field⟩]
  | m :: ms => if m.name == name then { m with field } :: ms else m :: putMember name field ms

def setTransportField (m : Message) (name : String) (field : Field) : Message :=
  { m with transport := putMember name field m.transport }

def value (m : Message) : Value := .bundle (memberValues m.fields)

def length (m : Message) : Nat := membersLength m.fields

def minLength (m : Message) : Nat := membersMinLength m.fields

def maxLength (m : Message) : Bound := membersMaxLength m.fields

def readsToEnd (m : Message) : Bool := membersReadToEnd m.fields

/-- Whether the message is regular or raw data and all its fields are valid. -/
def isValid (m : Message) : Bool :=
  match m.kind with
  | .invalid _ => false
  | _ => membersValid m.fields

/-- The bytes of the fields. -/
def write (m : Message) : Except CodecError Bytes := writeMembers m.fields

end Message

/-! ## Applying the rules -/

/-- Whether a condition holds, given the fields before the one that it is about. -/
def Condition.holds (version : UInt64) (before : List (Member Field)) : Condition → Bool
  | .bit mask i set =>
    match before[mask]?.bind (·.field.bitmask?) with
    | some b => b.bit i == set
    | none => false
  | .versionAtLeast v => v ≤ version
  | .versionBelow v => version < v

/-- The mode that the rules ask of the field after those in `before`; none if no rule is about it. -/
def requiredMode (rules : List PresenceRule) (version : UInt64) (before : List (Member Field)) :
    Option OptionalMode :=
  match rules.filter (·.target == before.length) with
  | [] => none
  | rs => some (if rs.all (·.condition.holds version before) then .present else .missing)

/-- An optional field in the mode that is asked of it, and whether that changed it. -/
def Field.inMode (mode : Option OptionalMode) (f : Field) : Field × Bool :=
  match mode, f with
  | some mode, .optional o =>
    if o.mode = mode then (f, false) else (.optional { o with mode }, true)
  | _, f => (f, false)

/-- Reads fields after those in `before`, each in the mode that the rules ask of it. -/
def readFields (rules : List PresenceRule) (version : UInt64) (before : List (Member Field)) :
    List (Member Field) → Bytes → Outcome (List (Member Field))
  | [], src => .done before src
  | m :: ms, src =>
    let o := (m.field.inMode (requiredMode rules version before)).1.read src
    let m := { m with field := o.value }
    match o.error with
    | some e => .fail (before ++ m :: ms) o.rest e
    | none => readFields rules version (before ++ [m]) ms o.rest

/-- Refreshes fields after those in `before`, each in the mode that the rules ask of it. -/
def refreshFields (rules : List PresenceRule) (version : UInt64) (before : List (Member Field)) :
    List (Member Field) → List (Member Field) × Bool
  | [] => (before, false)
  | m :: ms =>
    let inMode := m.field.inMode (requiredMode rules version before)
    let fresh := inMode.1.refresh
    let rest := refreshFields rules version (before ++ [{ m with field := fresh.1 }]) ms
    (rest.1, inMode.2 || fresh.2 || rest.2)

namespace Message

/-- Reads the fields from the front of the input. -/
def read (m : Message) (src : Bytes) : Outcome Message :=
  (readFields m.rules m.version [] m.fields src).map fun fields => { m with fields }

/-- Brings modes and derived values in line, and says whether any of them changed. -/
def refresh (m : Message) : Message × Bool :=
  let r := refreshFields m.rules m.version [] m.fields
  ({ m with fields := r.1 }, r.2)

/-! ## Adding rules -/

/-- The index of a bitmask of that name among the fields before a target, if it has the bit. -/
def maskIndex? (m : Message) (mask : String) (target bit : Nat) : Except PresenceFault Nat :=
  let before := m.fields.take target
  match before.findIdx? (·.name == mask) with
  | none => .error (.maskNotBefore mask)
  | some i =>
    match before[i]?.bind (·.field.bitmask?) with
    | some b => if bit < 8 * b.bytes then .ok i else .error (.bitOutOfRange bit mask)
    | none => .error (.notBitmask mask)

/-- The condition that a presence stands for in a message. -/
def condition? (m : Message) (target : String) (index : Nat) :
    Presence → Except PresenceFault Condition
  | .bit mask bit set => return .bit (← m.maskIndex? mask index bit) bit set
  | .versionAtLeast v =>
    if m.versioned then .ok (.versionAtLeast v) else .error (.notVersioned v target)
  | .versionBelow v =>
    if m.versioned then .ok (.versionBelow v) else .error (.notVersioned v target)

/-- The rule that ties the first field of a name to a condition. -/
def rule? (m : Message) (target : String) (presence : Presence) :
    Except PresenceFault PresenceRule :=
  match m.fields.findIdx? (·.name == target) with
  | none => .error (.noMember target)
  | some i =>
    if (m.fields[i]?.map (·.field.isOptional)).getD false then
      return ⟨i, ← m.condition? target i presence⟩
    else .error (.notOptional target)

/-- Adds a presence rule and applies all rules. -/
def withPresence? (m : Message) (target : String) (presence : Presence) :
    Except DefinitionError Message :=
  match m.rule? target presence with
  | .error fault => .error (.message m.name fault)
  | .ok rule => .ok ({ m with rules := m.rules ++ [rule] }.refresh).1

/-! ## Parts -/

/-- The part of a field that a path leads to. -/
def at? (m : Message) (name : String) (path : List PathStep) : Option Field :=
  (m.field? name).bind (·.at? path)

/-- Applies an edit to a part of a field; nothing if there is no such part. -/
def editAt? (m : Message) (name : String) (path : List PathStep) (e : Edit) :
    Option (Message × Option Reply) :=
  (Member.modifyFirst? name (Field.editAt? path e) m.fields).map fun r =>
    ({ m with fields := r.1 }, r.2)

end Message

end WireProtocol
