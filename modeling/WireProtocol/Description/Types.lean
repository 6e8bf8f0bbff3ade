import WireProtocol.Description.Syntax
import WireProtocol.Field.Build
import WireProtocol.Field.Weight

/-!
# Fields of declared types

A field declaration becomes a field once the type that it names is looked up. A struct, bitfield or
variant that is reached again from inside itself has no fields; `composedWithin` therefore carries
the names of the types around it, and goes no deeper than there are types.
-/

set_option autoImplicit false

namespace WireProtocol

/-- The result of looking up what a description declares. -/
abbrev Resolved := Except DefinitionFailure

/-- A result that may be a mistake. -/
def reporting {α : Type} (result : Except DefinitionError α) : Resolved α :=
  result.mapError .reported

/-! ## The types of a description -/

/-- A declared type. -/
inductive TypeDecl where
  | enumeration (d : EnumDecl)
  | bitmask (d : BitmaskDecl)
  | struct (d : StructDecl)
  | bitfield (d : BitfieldDecl)
  | variant (d : VariantDecl)

def TypeDecl.name : TypeDecl → String
  | .enumeration d => d.name
  | .bitmask d => d.name
  | .struct d => d.name
  | .bitfield d => d.name
  | .variant d => d.name

/-- The declared types, whose names differ, and the byte order of all of them. -/
structure TypeTable where
  order : ByteOrder
  types : List TypeDecl

namespace TypeTable

/-- All types of a description. -/
def typesOf (d : Description) : List TypeDecl :=
  d.enums.map .enumeration ++ d.bitmasks.map .bitmask ++ d.structs.map .struct ++
    d.bitfields.map .bitfield ++ d.variants.map .variant

/-- The first name that an earlier type has, too. -/
def repeated? : (seen : List String) → List TypeDecl → Option String
  | _, [] => none
  | seen, t :: ts => if t.name ∈ seen then some t.name else repeated? (t.name :: seen) ts

/-- The types of a description, unless two have one name. -/
def ofDescription (d : Description) : Resolved TypeTable :=
  match repeated? [] (typesOf d) with
  | some name => .error (.reported (.duplicate (.type name)))
  | none => .ok ⟨d.order.getD .big, typesOf d⟩

def find? (t : TypeTable) (name : String) : Option TypeDecl := t.types.find? (·.name == name)

end TypeTable

/-- A rule of declarations is broken. -/
def broken {α : Type} (fault : RuleFault) : Resolved α := .error (.reported (.invalid fault))

/-! ## Scalars -/

namespace Literal

/-- The integer that a literal at some place has to be. -/
def toInt (path : String) (l : Literal) : Resolved Int64 :=
  match l.int? with
  | some v => .ok v
  | none => broken (.notAnInteger path l)

/-- The number that a literal at some place has to be. -/
def toNumber (path : String) (l : Literal) : Resolved Binary64 :=
  match l.number? with
  | some x => .ok x
  | none => broken (.notANumber path l)

end Literal

/-- The greatest fixed size. The size of a list is multiplied by the weight of its elements. -/
def fixedSizeLimit : Nat := 65536

namespace TypeTable

variable (t : TypeTable)

/-- An integer of a type in the byte order of the protocol. -/
def int (s : IntSpec) : IntField := .ofFormat ⟨s.width, s.signed, t.order⟩

/-- The bytes of an integer type, which has to be of fixed width. -/
def fixedBytes (path : String) (s : IntSpec) : Resolved Nat :=
  match s.width with
  | .fixed n _ => .ok n
  | .var .. => broken (.storageNotFixed path)

/-- The size policy of a sequence whose elements have some weight. -/
def size (path : String) (weight : Nat) : SizeSpec → Resolved SizePolicy
  | .fixed n =>
    if fixedSizeLimit < n * weight then broken (.fixedTooLarge path n fixedSizeLimit)
    else .ok (.fixed n)
  | .count s => .ok (.count (t.int s))
  | .length s => .ok (.length (t.int s))
  | .rest => .ok .remainder

def intField (path : String) (s : IntSpec) (a : FieldAttrs) : Resolved IntField := do
  let f := { t.int s with offset := a.offset.getD 0 }
  let f ← match a.scale with
    | some (num, den) =>
      if num = 0 ∨ den = 0 then broken (.zeroScale path) else pure (f.withScaling num den)
    | none => pure f
  let f := { f with units := a.units }
  let f ← a.ranges.foldlM (fun f r =>
    return f.withRange (← r.1.toInt path) (← r.2.toInt path)) f
  let f ← a.specials.foldlM (fun f s => return f.withSpecial s.1 (← s.2.toInt path)) f
  let f ← match a.default with
    | none => pure f
    | some (.name name) =>
      match f.specials.find? (·.1 == name) with
      | some s => pure (f.withDefault s.2)
      | none => .error (.reported (.unknownRef .special name))
    | some l => pure (f.withDefault (← l.toInt path))
  return { f with strict := a.strict }

def floatField (path : String) (precision : FloatPrecision) (a : FieldAttrs) :
    Resolved FloatField := do
  let f : FloatField := { precision, order := t.order }
  let f ← a.ranges.foldlM (fun f r =>
    return f.withRange (← r.1.toNumber path) (← r.2.toNumber path)) f
  let f ← a.specials.foldlM (fun f s => return f.withSpecial s.1 (← s.2.toNumber path)) f
  let f := { f with decimals := a.decimals.getD 6, units := a.units }
  match a.default with
  | some l => return f.withValue (← l.toNumber path)
  | none => return f

def enumField (path : String) (d : EnumDecl) (a : FieldAttrs) : Resolved EnumField := do
  let f : EnumField :=
    { storage := t.int d.storage, names := d.values.map (fun v => (v.2, v.1))
      strict := d.strict || a.strict }
  match a.default with
  | some (.name name) =>
    match f.valueOf? name with
    | some v => return f.withDefault v
    | none => .error (.reported (.unknownRef (.valueOf d.name) name))
  | some l => return f.withDefault (← l.toInt path)
  | none =>
    match d.values with
    | v :: _ => return f.withDefault v.2
    | [] => return f

def bitmaskField (path : String) (d : BitmaskDecl) (a : FieldAttrs) : Resolved BitmaskField := do
  let bytes ← fixedBytes d.name d.storage
  match d.bits.find? (8 * bytes ≤ ·.2) with
  | some bit => broken (.bitIndex d.name bit.1 bit.2)
  | none =>
    let f : BitmaskField :=
      { BitmaskField.ofBytes bytes with
        order := t.order, bits := d.bits.map (fun b => (b.2, b.1)), strict := d.strict || a.strict }
    let f := match d.reserved with
      | some (mask, value) => f.withReserved mask value
      | none => f
    match a.default with
    | some l => return f.withDefault (← l.toInt path).toUInt64
    | none => return f

/-! ## Fields -/

/-- A field of a type; `composed` gives the fields of structs, bitfields and variants. -/
def fieldWith (composed : TypeDecl → Resolved Field) (path : String) :
    TypeSpec → FieldAttrs → Resolved Field
  | .int s, a => return .int (← t.intField path s a)
  | .float precision, a => return .float (← t.floatField path precision a)
  | .text size, a => do
    let f := ByteField.ofSize (← t.size path 1 size)
    match a.default with
    | none => return .text f
    | some (.text s) => return .text (f.withText s)
    | some l => broken (.notAText path l)
  | .bytes size, a => do
    let f := ByteField.ofSize (← t.size path 1 size)
    match a.default with
    | some (.text s) => return .bytes (f.withText s)
    | _ => return .bytes f
  | .list elem size elemLength, _ => do
    let prototype ← fieldWith composed path elem {}
    let size ← t.size path prototype.weight size
    return .list (.ofPrototype prototype size (elemLength.map t.int))
  | .optional inner mode, a => do
    let inner ← fieldWith composed path inner a
    return .optional (.ofField inner mode)
  | .named name, a =>
    match t.find? name with
    | none => .error (.reported (.unknownRef .type name))
    | some (.enumeration d) => return .enumeration (← t.enumField path d a)
    | some (.bitmask d) => return .bitmask (← t.bitmaskField path d a)
    | some d => composed d

/-- The name of a field inside a declaration. -/
def memberPath (owner member : String) : String := owner ++ "." ++ member

/-- The members of a struct after those in `members`, and the index of its length member, if it is
known already; `field` gives the field of a declaration. -/
def membersWith (field : String → FieldDecl → Resolved Field) (owner : String) :
    (members : List (Member Field)) → (length : Option Nat) → List FieldDecl →
    Resolved (List (Member Field) × Option Nat)
  | members, length, [] => .ok (members, length)
  | members, length, d :: ds => do
    let path := memberPath owner d.name
    if d.attrs.condition.isSome then broken (.conditionInStruct path)
    if members.any (·.name == d.name) then throw (.reported (.duplicate (.field path)))
    if d.attrs.remainingLength && length.isSome then broken (.severalLengths owner)
    let f ← field path d
    let length := if d.attrs.remainingLength then some members.length else length
    membersWith field owner (members ++ [⟨d.name, f⟩]) length ds

def bundleWith (composed : TypeDecl → Resolved Field) (d : StructDecl) :
    Resolved (Bundle Field) := do
  let field (path : String) (d : FieldDecl) := t.fieldWith composed path d.type d.attrs
  let (members, length) ← membersWith field d.name [] none d.fields
  match length with
  | some i => reporting (Bundle.measured? members i)
  | none => return .plain members

def bitfieldWith (composed : TypeDecl → Resolved Field) (d : BitfieldDecl) :
    Resolved Bitfield := do
  let bytes ← fixedBytes d.name d.storage
  let members ← d.fields.mapM fun m => do
    let path := memberPath d.name m.name
    match m.attrs.bits with
    | none => broken (.noBits path)
    | some bits => return (m.name, bits, ← t.fieldWith composed path m.type m.attrs)
  Bitfield.ofMembers? d.name bytes t.order members

/-- Goes on inside a type unless it is one of those around it. -/
def inside {α : Type} (around : List String) (name : String) (go : List String → Resolved α) :
    Resolved α :=
  if name ∈ around then broken (.recursive name) else go (name :: around)

mutual

/-- The field of a struct, bitfield or variant, given the types around it. -/
def composedWithin : (depth : Nat) → (around : List String) → TypeDecl → Resolved Field
  | 0, _, d => broken (.recursive d.name)
  | depth + 1, around, .struct d =>
    inside around d.name fun around =>
      return .bundle (← t.bundleWith (composedWithin depth around) d)
  | depth + 1, around, .bitfield d =>
    inside around d.name fun around =>
      return .bitfield (← t.bitfieldWith (composedWithin depth around) d)
  | depth + 1, around, .variant d =>
    inside around d.name fun around => do
      let alternatives ← d.alternatives.mapM fun name =>
        match t.find? name with
        | some (.struct s) => return (name, ← structWithin depth around s)
        | some _ => broken (.notAStruct d.name name)
        | none => throw (.reported (.unknownRef .struct name))
      return .variant (← reporting (Variant.ofBundles? alternatives))
  | _ + 1, _, d => .error (.reported (.unknownRef .type d.name))

/-- The bundle of a struct, given the types around it. -/
def structWithin : (depth : Nat) → (around : List String) → StructDecl → Resolved (Bundle Field)
  | 0, _, d => broken (.recursive d.name)
  | depth + 1, around, d =>
    inside around d.name fun around => t.bundleWith (composedWithin depth around) d

end

/-- The field of a declaration. -/
def field (path : String) (type : TypeSpec) (a : FieldAttrs) : Resolved Field :=
  t.fieldWith (t.composedWithin (t.types.length + 1) []) path type a

end TypeTable

end WireProtocol
