import WireProtocol.Description.Recognizer
import WireProtocol.Description.Syntax
import WireProtocol.DefinitionError
import WireProtocol.Text.Number

/-!
# Reading descriptions

A description is read in two stages. The grammar decides whether the text is one; this does not
depend on the numbers in it. Then the numbers are checked, from the front to the back, and the first
that is out of its range is reported. Each rule of the grammar recognizes its text and gives a
`Checked` value, which is the second stage.
-/

set_option autoImplicit false

namespace WireProtocol

/-- A part of a description once its numbers are checked. -/
abbrev Checked := Except ParseFault

/-! ## Numbers -/

/-- The number of a numeral in decimal, or in hexadecimal after its mark, below `2 ^ 64`. -/
def readMagnitude? : List Char → Option Nat
  | '0' :: 'x' :: cs => Text.numeralBelow? UInt64.size 16 cs
  | cs => Text.numeralBelow? UInt64.size 10 cs

/-- The 64-bit word that a number stands for; a number from `2 ^ 63` on wraps. -/
def readInt (s : String) : Checked Int64 :=
  let read := match s.toList with
    | '-' :: cs => (readMagnitude? cs).map fun n => -Int64.ofNat n
    | cs => (readMagnitude? cs).map Int64.ofNat
  match read with
  | some v => .ok v
  | none => .error (.badInteger s)

/-- A number below a limit, or a fault. -/
def readNatBelow (limit : Nat) (fault : ParseFault) (s : String) : Checked Nat := do
  let v ← readInt s
  if 0 ≤ v ∧ v.toInt.toNat < limit then return v.toInt.toNat else throw fault

/-- A number with decimal places. -/
def readDecimal (s : String) : Binary64 :=
  let (negative, cs) := match s.toList with
    | '-' :: cs => (true, cs)
    | cs => (false, cs)
  let whole := cs.takeWhile (· != '.')
  let places := cs.drop (whole.length + 1)
  .ofDecimal negative ((Text.digits? 10 (whole ++ places)).getD 0) (-Int.ofNat places.length)

namespace Grammar

open Recognizer

/-! ## Types -/

/-- An integer type by the bits of a machine word. -/
def machineInt : Recognizer (Checked IntSpec) :=
  let named (name : String) (bytes : Nat) (signed : Bool) : Recognizer (Checked IntSpec) := do
    keyword name
    return .ok ⟨.ofBytes bytes, signed⟩
  first [
    named "u64" 8 false, named "u32" 4 false, named "u16" 2 false, named "u8" 1 false,
    named "i64" 8 true, named "i32" 4 true, named "i16" 2 true, named "i8" 1 true]

/-- An integer type by a width. -/
def wideInt : Recognizer (Checked IntSpec) := do
  let signed ← first [do word "uint"; return false, do word "int"; return true]
  word "("
  let bytes ← number
  word ")"
  return do
    let n ← readInt bytes
    if 1 ≤ n ∧ n ≤ 8 then return ⟨.ofBytes n.toInt.toNat, signed⟩ else throw (.badWidth n)

/-- A variable-length integer type. -/
def varInt : Recognizer (Checked IntSpec) := do
  let signed ← first [do word "varuint"; return false, do word "varint"; return true]
  word "("
  let low ← number
  word ","
  let high ← number
  word ")"
  return do
    let min ← readInt low
    let max ← readInt high
    if 1 ≤ min ∧ min ≤ max ∧ max ≤ 10 then
      return ⟨.between min.toInt.toNat max.toInt.toNat, signed⟩
    else throw (.badVarBounds min max)

def intSpec : Recognizer (Checked IntSpec) := first [machineInt, varInt, wideInt]

/-- An integer type in parentheses. -/
def intArgument : Recognizer (Checked IntSpec) := do
  word "("
  let t ← intSpec
  word ")"
  return t

def sizeSpec : Recognizer (Checked SizeSpec) :=
  first [
    do
      word "fixed"
      word "("
      let n ← number
      word ")"
      return return .fixed (← readNatBelow (Nat.pow 2 63) .negativeSize n),
    do
      word "count"
      let t ← intArgument
      return return .count (← t),
    do
      word "length"
      let t ← intArgument
      return return .length (← t),
    do
      keyword "rest"
      return .ok .rest]

/-- A size between angle brackets. -/
def sizeArgument : Recognizer (Checked SizeSpec) := do
  word "<"
  let size ← sizeSpec
  word ">"
  return size

def modeSpec : Recognizer OptionalMode :=
  first [
    do word "missing"; return .missing,
    do word "exists"; return .present,
    do word "tentative"; return .tentative]

/-- A list of elements of a type. -/
def listSpec (inner : Recognizer (Checked TypeSpec)) : Recognizer (Checked TypeSpec) := do
  word "list"
  word "<"
  let elem ← inner
  word ","
  let size ← sizeSpec
  let elemLength ← optionally do
    word ","
    word "elem_length"
    intArgument
  word ">"
  return do
    let elem ← elem
    let size ← size
    match elemLength with
    | some t => return .list elem size (some (← t))
    | none => return .list elem size none

/-- A field of a type that may be absent. -/
def optionalSpec (inner : Recognizer (Checked TypeSpec)) : Recognizer (Checked TypeSpec) := do
  word "optional"
  word "<"
  let inner ← inner
  let mode ← optionally do
    word ","
    modeSpec
  word ">"
  return return .optional (← inner) (mode.getD .present)

/-- A type whose lists and optionals are nested less than `depth` deep. -/
def typeSpecWithin : (depth : Nat) → Recognizer (Checked TypeSpec)
  | 0 => failure
  | depth + 1 =>
    first [
      listSpec (typeSpecWithin depth),
      optionalSpec (typeSpecWithin depth),
      do
        word "string"
        let size ← sizeArgument
        return return .text (← size),
      do
        word "bytes"
        let size ← sizeArgument
        return return .bytes (← size),
      do keyword "float"; return .ok (.float .single),
      do keyword "double"; return .ok (.float .double),
      do
        let t ← intSpec
        return return .int (← t),
      do return .ok (.named (← identifier))]

/-- A type. Every level of nesting takes some characters, so their count bounds the depth. -/
def typeSpec : Recognizer (Checked TypeSpec) := fun s => typeSpecWithin s.length s

/-! ## Fields -/

/-- A numeric literal. -/
def numberLiteral : Recognizer (Checked Literal) :=
  first [
    do
      let _ ← signedKeyword "nan"
      return .ok (.float .nan),
    do
      let negative ← signedKeyword "inf"
      return .ok (.float (.infinity negative)),
    do
      let s ← number
      if s.toList.contains '.' then return .ok (.float (readDecimal s))
      else return return .int (← readInt s)]

/-- A change of the attributes of a field of that name. -/
abbrev Attribute := String → FieldAttrs → Checked FieldAttrs

/-- One value or the bounds of a range. -/
def rangeItem : Recognizer (Checked (Literal × Literal)) := do
  let low ← numberLiteral
  let high ← optionally do
    word ".."
    numberLiteral
  return do
    let low ← low
    match high with
    | some h => return (low, ← h)
    | none => return (low, low)

def rangesAttribute : Recognizer Attribute := do
  word "["
  let item ← rangeItem
  let items ← many do
    word ","
    rangeItem
  word "]"
  return fun _ a => do
    let ranges ← (item :: items).mapM id
    return { a with ranges := a.ranges ++ ranges }

def defaultAttribute : Recognizer Attribute := do
  word "="
  let v ← first [
    do return .ok (.text (← quotedText)),
    numberLiteral,
    do return .ok (.name (← identifier))]
  return fun _ a => return { a with default := some (← v) }

def specialAttribute : Recognizer Attribute := do
  word "special"
  word "("
  let name ← identifier
  word "="
  let v ← numberLiteral
  word ")"
  return fun _ a => return { a with specials := a.specials ++ [(name, ← v)] }

def scaleAttribute : Recognizer Attribute := do
  word "scale"
  word "("
  let num ← number
  word "/"
  let den ← number
  word ")"
  return fun _ a => return { a with scale := some (← readInt num, ← readInt den) }

/-- A number in parentheses after a word. -/
def numberArgument (name : String) : Recognizer String := do
  word name
  word "("
  let n ← number
  word ")"
  return n

def offsetAttribute : Recognizer Attribute := do
  let n ← numberArgument "offset"
  return fun _ a => return { a with offset := some (← readInt n) }

def unitsAttribute : Recognizer Attribute := do
  word "units"
  word "("
  let s ← quotedText
  word ")"
  return fun _ a => return { a with units := some s }

def bitsAttribute : Recognizer Attribute := do
  let n ← numberArgument "bits"
  return fun field a => do
    let bits ← readNatBelow UInt32.size (.badBitCount field) n
    return { a with bits := some (UInt32.ofNat bits) }

def decimalsAttribute : Recognizer Attribute := do
  let n ← numberArgument "decimals"
  return fun field a =>
    return { a with decimals := some (← readNatBelow UInt8.size (.badDecimals field) n) }

/-- A condition on the version. -/
def versionCondition : Recognizer (Checked ConditionSpec) := do
  keyword "version"
  let atLeast ← first [do word ">="; return true, do word "<"; return false]
  let n ← number
  return do
    let v ← readNatBelow (Nat.pow 2 63) .negativeVersion n
    let version := UInt64.ofNat v
    return if atLeast then .versionAtLeast version else .versionBelow version

/-- A condition on a bit of a mask. -/
def bitCondition : Recognizer (Checked ConditionSpec) := do
  let negated ← optionally (word "!")
  let mask ← identifier
  word "."
  let bit ← first [identifier, number]
  return .ok (.bit mask bit negated.isNone)

def conditionAttribute : Recognizer Attribute := do
  word "if"
  let c ← first [versionCondition, bitCondition]
  return fun _ a => return { a with condition := some (← c) }

def fieldAttribute : Recognizer Attribute :=
  first [
    rangesAttribute, defaultAttribute, specialAttribute, scaleAttribute, offsetAttribute,
    unitsAttribute, bitsAttribute,
    do keyword "strict"; return fun _ a => .ok { a with strict := true },
    do keyword "remaining_length"; return fun _ a => .ok { a with remainingLength := true },
    decimalsAttribute, conditionAttribute]

def fieldDecl : Recognizer (Checked FieldDecl) := do
  let name ← identifier
  word ":"
  let type ← typeSpec
  let attributes ← many fieldAttribute
  word ";"
  return do
    let type ← type
    let attrs ← attributes.foldlM (fun a change => change name a) {}
    return ⟨name, type, attrs⟩

/-- A thing between braces. -/
def braced {α : Type} (inner : Recognizer α) : Recognizer α := do
  word "\x7b"
  let a ← inner
  word "\x7d"
  return a

/-- Fields between braces. -/
def fieldDecls : Recognizer (Checked (List FieldDecl)) := do
  let fields ← braced (many fieldDecl)
  return fields.mapM id

/-! ## Declarations -/

/-- Items between braces, with or without a comma after each. -/
def items {α : Type} (item : Recognizer α) : Recognizer (List α) :=
  braced <| many do
    let i ← item
    let _ ← optionally (word ",")
    return i

/-- A name and a number. -/
def namedNumber : Recognizer (String × String) := do
  let name ← identifier
  word "="
  return (name, ← number)

/-- Whether a keyword is there. -/
def isKeyword (w : String) : Recognizer Bool := do return (← optionally (keyword w)).isSome

def enumDecl : Recognizer (Checked EnumDecl) := do
  word "enum"
  let name ← identifier
  word ":"
  let storage ← intSpec
  let strict ← isKeyword "strict"
  let values ← items namedNumber
  return do
    let storage ← storage
    let values ← values.mapM fun v => return (v.1, ← readInt v.2)
    return { name, storage, strict, values }

/-- The reserved bits of a bitmask and what they have to be. -/
def reservedSpec : Recognizer (Checked (UInt64 × UInt64)) := do
  word "reserved"
  word "("
  let mask ← number
  let value ← optionally do
    word ","
    number
  word ")"
  return do
    let mask ← readInt mask
    match value with
    | some v => return (mask.toUInt64, (← readInt v).toUInt64)
    | none => return (mask.toUInt64, 0)

def bitmaskDecl : Recognizer (Checked BitmaskDecl) := do
  word "bitmask"
  let name ← identifier
  word ":"
  let storage ← intSpec
  let reserved ← optionally reservedSpec
  let strict ← isKeyword "strict"
  let bits ← items namedNumber
  return do
    let storage ← storage
    let reserved ← match reserved with
      | some r => pure (some (← r))
      | none => pure none
    let bits ← bits.mapM fun b => return (b.1, ← readNatBelow UInt32.size (.badBitIndex b.1) b.2)
    return { name, storage, reserved, strict, bits }

def structDecl : Recognizer (Checked StructDecl) := do
  word "struct"
  let name ← identifier
  let fields ← fieldDecls
  return return { name, fields := ← fields }

def bitfieldDecl : Recognizer (Checked BitfieldDecl) := do
  word "bitfield"
  let name ← identifier
  word ":"
  let storage ← intSpec
  let fields ← fieldDecls
  return return { name, storage := ← storage, fields := ← fields }

def variantDecl : Recognizer (Checked VariantDecl) := do
  word "variant"
  let name ← identifier
  let alternatives ← items identifier
  return .ok { name, alternatives }

/-! ## Layers -/

/-- An option of a layer and its value, as it is written. -/
def layerOption : Recognizer (String × String) := do
  let name ← identifier
  word "="
  return (name, ← first [number, identifier])

def layerOptions : Recognizer (List (String × String)) :=
  many do
    word ","
    layerOption

/-- A layer by its name in its kind. -/
abbrev LayerRule := String → Checked LayerSpec

def syncLayer : Recognizer LayerRule := do
  word "sync"
  word "("
  let type ← intSpec
  word ","
  let value ← number
  word ")"
  return fun _ => return .sync (← type) (← readInt value)

/-- An option of a size layer: its offset or its greatest value. -/
def sizeOption (layer : String) (s : Int64 × Option Nat) (o : String × String) :
    Checked (Int64 × Option Nat) :=
  match o.1 with
  | "offset" => return (← readInt o.2, s.2)
  | "max" => return (s.1, some (← readNatBelow (Nat.pow 2 63) (.badMaximum layer) o.2))
  | other => throw (.unknownOption layer other)

def sizeLayer : Recognizer LayerRule := do
  word "size"
  word "("
  let type ← intSpec
  let options ← layerOptions
  word ")"
  return fun layer => do
    let type ← type
    let (offset, max) ← options.foldlM (sizeOption layer) (0, none)
    return .size type offset max

def idLayer : Recognizer LayerRule := do
  word "id"
  word "("
  let type ← typeSpec
  word ")"
  return fun _ => return .id (← type)

def transportLayer : Recognizer LayerRule := do
  word "transport"
  word "("
  let type ← intSpec
  let version ← optionally do
    word ","
    keyword "version"
  word ")"
  return fun _ => return .transport (← type) version.isSome

/-- An option of a checksum layer: the first layer that it covers. -/
def checksumOption (layer : String) (_ : Option String) (o : String × String) :
    Checked (Option String) :=
  match o.1 with
  | "over" => .ok (some o.2)
  | other => throw (.unknownOption layer other)

def checksumLayer : Recognizer LayerRule := do
  word "checksum"
  word "("
  let type ← intSpec
  word ","
  let algorithm ← identifier
  let options ← layerOptions
  word ")"
  return fun layer => do
    let type ← type
    let covered ← options.foldlM (checksumOption layer) none
    return .checksum type algorithm covered

def layerDecl : Recognizer (Checked LayerDecl) :=
  first [
    do
      keyword "payload"
      word ";"
      return .ok ⟨"payload", .payload⟩,
    do
      let name ← identifier
      word ":"
      let spec ← first [syncLayer, sizeLayer, idLayer, transportLayer, checksumLayer]
      word ";"
      return return ⟨name, ← spec name⟩]

def frameDecl : Recognizer (Checked FrameDecl) := do
  word "frame"
  let name ← identifier
  let layers ← braced (many layerDecl)
  return return { name, layers := ← layers.mapM id }

/-! ## Messages -/

/-- The id of a message of some name. -/
def idSpec : Recognizer (String → Checked IdSpec) :=
  first [
    do
      let enumeration ← identifier
      word "."
      let item ← identifier
      return fun _ => .ok (.item enumeration item),
    do
      let n ← number
      return fun message =>
        return .number (UInt64.ofNat (← readNatBelow (Nat.pow 2 63) (.negativeId message) n))]

def messageDecl : Recognizer (Checked MessageDecl) := do
  word "message"
  let name ← identifier
  word "="
  let id ← idSpec
  let display ← optionally quotedText
  let versioned ← isKeyword "versioned"
  let fields ← fieldDecls
  return return { name, id := ← id name, display, versioned, fields := ← fields }

/-! ## Descriptions -/

/-- A declaration as what it adds to a description. -/
abbrev Declaration := Description → Checked Description

def declaration : Recognizer Declaration :=
  first [
    do
      word "protocol"
      let name ← quotedText
      word ";"
      return fun d => .ok { d with name := some name },
    do
      word "endian"
      let order ← first [do word "big"; return .big, do word "little"; return .little]
      word ";"
      return fun d => .ok { d with order := some order },
    do let e ← enumDecl; return fun d => return { d with enums := d.enums ++ [← e] },
    do let e ← bitmaskDecl; return fun d => return { d with bitmasks := d.bitmasks ++ [← e] },
    do let e ← structDecl; return fun d => return { d with structs := d.structs ++ [← e] },
    do let e ← bitfieldDecl; return fun d => return { d with bitfields := d.bitfields ++ [← e] },
    do let e ← variantDecl; return fun d => return { d with variants := d.variants ++ [← e] },
    do let e ← frameDecl; return fun d => return { d with frames := d.frames ++ [← e] },
    do let e ← messageDecl; return fun d => return { d with messages := d.messages ++ [← e] }]

/-- All declarations of a text. -/
def declarations : Recognizer (List Declaration) := do
  let ds ← many declaration
  endOfText
  return ds

end Grammar

/-- Reads a description. -/
def Description.read (source : String) : Checked Description :=
  match Grammar.declarations source.toList with
  | none => .error .grammar
  | some (ds, _) => ds.foldlM (fun d declare => declare d) {}

end WireProtocol
