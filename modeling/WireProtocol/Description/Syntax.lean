import WireProtocol.Description.Literal
import WireProtocol.Field.Basic

/-!
# Descriptions

What a description of a protocol declares, before any name in it is looked up.
-/

set_option autoImplicit false

namespace WireProtocol

/-! ## Types -/

/-- The way an integer is sent, without the byte order, which is that of the whole protocol. -/
structure IntSpec where
  width : IntWidth
  signed : Bool
  deriving DecidableEq, Repr

/-- How the size of a sequence is known. -/
inductive SizeSpec where
  | fixed (n : Nat)
  | count (t : IntSpec)
  | length (t : IntSpec)
  | rest
  deriving DecidableEq, Repr

/-- The type of a field. -/
inductive TypeSpec where
  | int (t : IntSpec)
  | float (precision : FloatPrecision)
  | text (size : SizeSpec)
  | bytes (size : SizeSpec)
  | list (elem : TypeSpec) (size : SizeSpec) (elemLength : Option IntSpec)
  | optional (inner : TypeSpec) (mode : OptionalMode)
  /-- A declared type. -/
  | named (name : String)
  deriving DecidableEq, Repr

/-! ## Fields -/

/-- What the presence of a field depends on. -/
inductive ConditionSpec where
  /-- A bit, by its name or index, is set, or clear. -/
  | bit (mask bit : String) (set : Bool)
  | versionAtLeast (version : UInt64)
  | versionBelow (version : UInt64)
  deriving DecidableEq

/-- What a field declaration says besides the type. -/
structure FieldAttrs where
  ranges : List (Literal × Literal) := []
  default : Option Literal := none
  specials : List (String × Literal) := []
  scale : Option (Int64 × Int64) := none
  offset : Option Int64 := none
  units : Option String := none
  bits : Option UInt32 := none
  strict : Bool := false
  remainingLength : Bool := false
  decimals : Option Nat := none
  condition : Option ConditionSpec := none

structure FieldDecl where
  name : String
  type : TypeSpec
  attrs : FieldAttrs

/-! ## Declarations -/

structure EnumDecl where
  name : String
  storage : IntSpec
  strict : Bool
  values : List (String × Int64)

structure BitmaskDecl where
  name : String
  storage : IntSpec
  /-- The reserved bits and what they have to be. -/
  reserved : Option (UInt64 × UInt64)
  strict : Bool
  bits : List (String × Nat)

structure StructDecl where
  name : String
  fields : List FieldDecl

structure BitfieldDecl where
  name : String
  storage : IntSpec
  fields : List FieldDecl

structure VariantDecl where
  name : String
  /-- Names of structs. -/
  alternatives : List String

/-- What a layer of a frame is. -/
inductive LayerSpec where
  | sync (type : IntSpec) (value : Int64)
  | size (type : IntSpec) (offset : Int64) (max : Option Nat)
  | id (type : TypeSpec)
  | transport (type : IntSpec) (version : Bool)
  /-- A checksum, and the first layer that it covers if it comes after the payload. -/
  | checksum (type : IntSpec) (algorithm : String) (covered : Option String)
  | payload

def LayerSpec.isPayload : LayerSpec → Bool
  | .payload => true
  | _ => false

structure LayerDecl where
  name : String
  spec : LayerSpec

structure FrameDecl where
  name : String
  /-- The layers in the order in which their bytes are sent. -/
  layers : List LayerDecl

/-- The id of a message. -/
inductive IdSpec where
  | number (id : UInt64)
  | item (enumeration item : String)
  deriving DecidableEq

structure MessageDecl where
  name : String
  id : IdSpec
  display : Option String
  versioned : Bool
  fields : List FieldDecl

/-- All declarations of a description, each kind in order. -/
structure Description where
  name : Option String := none
  order : Option ByteOrder := none
  enums : List EnumDecl := []
  bitmasks : List BitmaskDecl := []
  structs : List StructDecl := []
  bitfields : List BitfieldDecl := []
  variants : List VariantDecl := []
  frames : List FrameDecl := []
  messages : List MessageDecl := []

end WireProtocol
