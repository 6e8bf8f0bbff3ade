import WireProtocol.Decimal
import WireProtocol.Message
import WireProtocol.Text.Blank
import WireProtocol.Text.Quoted

/-!
# Messages as text

A dump has one line for each part of a message, indented by its depth. Scalars are shown with what
is known about their meaning: names, scaling and units.
-/

set_option autoImplicit false

namespace WireProtocol

/-! ## Scalars -/

/-- Bytes as pairs of hexadecimal digits with blanks between them. -/
def spacedHex (bs : Bytes) : String := String.intercalate " " (bs.map hexByte)

/-- A special name or the scaled quantity with its units, and the number itself. -/
def IntField.text (f : IntField) : String :=
  match f.specialName, f.scaling, f.units with
  | some name, _, _ => name ++ s!" ({f.value})"
  | none, none, none => toString f.value
  | none, none, some u => toString f.value ++ " " ++ u
  | none, some _, none => f.scaled.shortestText ++ s!" ({f.value})"
  | none, some _, some u => f.scaled.shortestText ++ " " ++ u ++ s!" ({f.value})"

/-- A special name, or the number with its decimal places and units. -/
def FloatField.text (f : FloatField) : String :=
  match f.specialName, f.units with
  | some name, _ => name
  | none, none => f.value.fixedText f.decimals
  | none, some u => f.value.fixedText f.decimals ++ " " ++ u

def EnumField.text (f : EnumField) : String :=
  match f.nameOf? f.value with
  | some name => name ++ s!" ({f.value})"
  | none => toString f.value ++ " (unknown)"

/-- The word and the names of the bits that are set. -/
def BitmaskField.text (f : BitmaskField) : String :=
  let set := (List.range (8 * f.bytes)).filter f.bit
  let names := set.map fun i => (f.nameOf? i).getD s!"bit{i}"
  "0x" ++ padLeft (2 * f.bytes) '0' (hexNat f.value.toNat) ++
    " [" ++ String.intercalate ", " names ++ "]"

/-- Bytes as they are shown. -/
def bytesText (bs : Bytes) : String := "hex(" ++ spacedHex bs ++ ")"

/-! ## Lines -/

/-- A line of a dump. -/
structure Line where
  depth : Nat
  name : String
  /-- What follows the name after a colon, if it is not empty. -/
  text : String
  deriving DecidableEq

def Line.render (l : Line) : String :=
  String.ofList (List.replicate (2 * l.depth) ' ') ++ l.name ++
    (if l.text.isEmpty then "" else ": " ++ l.text) ++ "\n"

/-- The lines one after the other. -/
def renderLines (ls : List Line) : String := String.join (ls.map Line.render)

def Packable.line (depth : Nat) (name : String) : Packable → Line
  | .int f => ⟨depth, name, f.text⟩
  | .enumeration f => ⟨depth, name, f.text⟩
  | .bitmask f => ⟨depth, name, f.text⟩

mutual

/-- The lines of a field under a name. -/
def Field.lines (depth : Nat) (name : String) : Field → List Line
  | .int f => [⟨depth, name, f.text⟩]
  | .enumeration f => [⟨depth, name, f.text⟩]
  | .bitmask f => [⟨depth, name, f.text⟩]
  | .float f => [⟨depth, name, f.text⟩]
  | .text f => [⟨depth, name, Text.quoted f.text⟩]
  | .bytes f => [⟨depth, name, bytesText f.data⟩]
  | .list ⟨_, _, _, elements⟩ =>
    if elements.isEmpty then [⟨depth, name, "[]"⟩]
    else ⟨depth, name, s!"[{elements.length}]"⟩ :: elementLines (depth + 1) 0 [] elements
  | .bitfield b => ⟨depth, name, ""⟩ :: b.members.map fun m => m.field.line (depth + 1) m.name
  | .bundle b => ⟨depth, name, ""⟩ :: bundleLines (depth + 1) b
  | .optional ⟨inner, _, mode⟩ =>
    if mode == .present then inner.lines depth name else [⟨depth, name, "<missing>"⟩]
  | .variant ⟨alternatives, current⟩ => choiceLines depth name alternatives current
  | .unknown data => [⟨depth, name, bytesText data⟩]

def bundleLines (depth : Nat) : Bundle Field → List Line
  | .plain ms => memberLines depth ms
  | .measured head name length tail _ =>
    memberLines depth head ++ ⟨depth, name, length.text⟩ :: memberLines depth tail

def memberLines (depth : Nat) : List (Member Field) → List Line
  | [] => []
  | ⟨name, field⟩ :: ms => field.lines depth name ++ memberLines depth ms

/-- The lines of elements from index `i` on, after those in `before`, which are in reverse. -/
def elementLines (depth i : Nat) (before : List Line) : List (Field × Bytes) → List Line
  | [] => before.reverse
  | (field, _) :: es =>
    elementLines depth (i + 1) ((field.lines depth s!"[{i}]").reverse ++ before) es

def choiceLines (depth : Nat) (name : String) : List (Choice Field) → Nat → List Line
  | [], _ => [⟨depth, name, "<none>"⟩]
  | ⟨alternative, _, bundle⟩ :: _, 0 =>
    ⟨depth, name, alternative⟩ :: bundleLines (depth + 1) bundle
  | _ :: cs, i + 1 => choiceLines depth name cs i

end

/-- The dump of a field. -/
def Field.dump (name : String) (f : Field) : String := renderLines (f.lines 0 name)

namespace Message

/-- What the first line of a dump says. -/
def header (m : Message) : String :=
  match m.kind with
  | .regular => m.displayName ++ s!" (id {m.id})"
  | .rawData => s!"raw data (id {m.id})"
  | .invalid reason => "invalid: " ++ reason.name

/-- The lines of a message: its transport fields, its fields and the frame it was read from. -/
def lines (m : Message) : List Line :=
  ⟨0, m.header, ""⟩ ::
    memberLines 1 (m.transport.map fun t => { t with name := "@" ++ t.name }) ++
    memberLines 1 m.fields ++
    (if m.frameBytes.isEmpty then [] else [⟨1, "frame", spacedHex m.frameBytes⟩])

def dump (m : Message) : String := renderLines m.lines

/-- The first line of the dump, without blanks around it. -/
def summary (m : Message) : String :=
  Text.trim (String.ofList (m.dump.toList.takeWhile (· != '\n')))

end Message

end WireProtocol
