import WireProtocol.Field.Bitfield
import WireProtocol.Field.ByteString

/-!
# Fields

A field is a scalar, a byte string, or composed of other fields: a list of elements alike, members
one after the other, a field that may be absent, or one of several tagged bundles. The composed
kinds are structures over the type of the inner fields, and `Field` ties the knot.
-/

set_option autoImplicit false

namespace WireProtocol

/-! ## Composed kinds -/

/-- A named part. -/
structure Member (φ : Type) where
  name : String
  field : φ

/-- Elements made after a prototype. -/
structure ListOf (φ : Type) where
  prototype : φ
  size : SizePolicy
  /-- The integer that gives the length of each element in front of it. -/
  elemLength : Option IntField
  /-- The elements, each with the bytes of its region that it did not read. -/
  elements : List (φ × Bytes)

/-- Members one after the other. -/
inductive Bundle (φ : Type) where
  | plain (members : List (Member φ))
  /-- After the members of `head` comes an integer that gives the length of all that follows it:
  the members of `tail` and the trailing bytes that no member reads. -/
  | measured (head : List (Member φ)) (name : String) (length : IntField)
      (tail : List (Member φ)) (trailing : Bytes)

/-- Whether an optional field is there. -/
inductive OptionalMode where
  | missing
  | present
  /-- There if input is left on reading; not there on writing. -/
  | tentative
  deriving DecidableEq, Repr

/-- A field that may be absent. -/
structure Optional (φ : Type) where
  inner : φ
  /-- What the inner field is when it is read as absent. -/
  default : φ
  mode : OptionalMode

/-- A bundle that is chosen by the value of its first member. -/
structure Choice (φ : Type) where
  name : String
  tag : Int64
  bundle : Bundle φ

/-- One of several tagged bundles. -/
structure Variant (φ : Type) where
  alternatives : List (Choice φ)
  /-- The index of the chosen alternative. -/
  current : Nat

/-- A field of a message. -/
inductive Field where
  | int (f : IntField)
  | enumeration (f : EnumField)
  | bitmask (f : BitmaskField)
  | float (f : FloatField)
  | text (f : ByteField)
  | bytes (f : ByteField)
  | list (l : ListOf Field)
  | bitfield (b : Bitfield)
  | bundle (b : Bundle Field)
  | optional (o : Optional Field)
  | variant (v : Variant Field)
  /-- Opaque bytes up to the end of the input. -/
  | unknown (data : Bytes)

instance : Inhabited Field := ⟨.unknown []⟩

/-! ## Kinds -/

/-- What a field is to a reader who does not know its protocol. -/
inductive FieldKind where
  | int | enumeration | bitmask | float | text | bitfield | bundle | optional | variant | array
  | unknown
  deriving DecidableEq, Repr

def Field.kind : Field → FieldKind
  | .int _ => .int
  | .enumeration _ => .enumeration
  | .bitmask _ => .bitmask
  | .float _ => .float
  | .text _ => .text
  | .bytes _ => .array
  | .list _ => .array
  | .bitfield _ => .bitfield
  | .bundle _ => .bundle
  | .optional _ => .optional
  | .variant _ => .variant
  | .unknown _ => .unknown

/-- A packed field on its own. -/
def Packable.toField : Packable → Field
  | .int f => .int f
  | .enumeration f => .enumeration f
  | .bitmask f => .bitmask f

/-- The field as one that can be packed into bits. -/
def Field.packable? : Field → Option Packable
  | .int f => some (.int f)
  | .enumeration f => some (.enumeration f)
  | .bitmask f => some (.bitmask f)
  | _ => none

def Field.optional? : Field → Option (Optional Field)
  | .optional o => some o
  | _ => none

def Field.bitmask? : Field → Option BitmaskField
  | .bitmask f => some f
  | _ => none

def Field.isOptional (f : Field) : Bool := f.optional?.isSome

/-! ## Members -/

/-- The first member of that name. -/
def Member.find? {φ : Type} (name : String) (ms : List (Member φ)) : Option φ :=
  (ms.find? (·.name == name)).map (·.field)

namespace Bundle

/-- All members in order; the length is one of them. -/
def members : Bundle Field → List (Member Field)
  | .plain ms => ms
  | .measured head name length tail _ => head ++ ⟨name, .int length⟩ :: tail

/-- The index of the length member. -/
def lengthIndex? : Bundle Field → Option Nat
  | .plain _ => none
  | .measured head .. => some head.length

def trailing : Bundle Field → Bytes
  | .plain _ => []
  | .measured _ _ _ _ trailing => trailing

def clearTrailing : Bundle Field → Bundle Field
  | .plain ms => .plain ms
  | .measured head name length tail _ => .measured head name length tail []

end Bundle

namespace Optional

def isPresent {φ : Type} (o : Optional φ) : Bool := o.mode == .present

/-- The inner field if it is there. -/
def field? {φ : Type} (o : Optional φ) : Option φ :=
  match o.mode with
  | .present => some o.inner
  | _ => none

end Optional

namespace Variant

variable {φ : Type}

/-- The chosen alternative. -/
def current? (v : Variant φ) : Option (Choice φ) := v.alternatives[v.current]?

/-- Chooses an alternative, if there is one of that index. -/
def select (v : Variant φ) (i : Nat) : Variant φ × Bool :=
  if i < v.alternatives.length then ({ v with current := i }, true) else (v, false)

/-- Chooses the first alternative of a kind, if there is one. -/
def selectWhere (p : Choice φ → Bool) (v : Variant φ) : Variant φ × Bool :=
  match v.alternatives.findIdx? p with
  | some i => v.select i
  | none => (v, false)

end Variant

end WireProtocol
