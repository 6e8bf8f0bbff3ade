import WireProtocol.Description.Syntax

/-!
# Types as they are written

The canonical text of a type in the description language. Integers of the widths of machine words
have short names, and the mode of an optional is always written.
-/

set_option autoImplicit false

namespace WireProtocol

/-- A number in decimal. -/
def renderNat (n : Nat) : String := String.ofList (decimalDigits n)

/-- An integer type. -/
def IntSpec.render (t : IntSpec) : String :=
  match t.width with
  | .fixed n _ =>
    if n = 1 ∨ n = 2 ∨ n = 4 ∨ n = 8 then (if t.signed then "i" else "u") ++ renderNat (8 * n)
    else (if t.signed then "int" else "uint") ++ "(" ++ renderNat n ++ ")"
  | .var min max _ =>
    (if t.signed then "varint" else "varuint") ++ "(" ++ renderNat min ++ ", " ++ renderNat max ++
      ")"

/-- The size of a sequence. -/
def SizeSpec.render : SizeSpec → String
  | .fixed n => "fixed(" ++ renderNat n ++ ")"
  | .count t => "count(" ++ t.render ++ ")"
  | .length t => "length(" ++ t.render ++ ")"
  | .rest => "rest"

def OptionalMode.render : OptionalMode → String
  | .missing => "missing"
  | .present => "exists"
  | .tentative => "tentative"

/-- A type. -/
def TypeSpec.render : TypeSpec → String
  | .int t => t.render
  | .float .single => "float"
  | .float .double => "double"
  | .text size => "string<" ++ size.render ++ ">"
  | .bytes size => "bytes<" ++ size.render ++ ">"
  | .list elem size elemLength =>
    "list<" ++ elem.render ++ ", " ++ size.render ++
      (match elemLength with
        | some t => ", elem_length(" ++ t.render ++ ")"
        | none => "") ++ ">"
  | .optional inner mode => "optional<" ++ inner.render ++ ", " ++ mode.render ++ ">"
  | .named name => name

end WireProtocol
