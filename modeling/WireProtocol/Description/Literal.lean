import WireProtocol.Decimal
import WireProtocol.Text.Quoted

/-!
# Literals of the description language

A literal is a number, a text or a name. `Literal.label` is how an error text shows it.
-/

set_option autoImplicit false

namespace WireProtocol

/-- A literal. -/
inductive Literal where
  | int (v : Int64)
  | float (x : Binary64)
  | text (s : String)
  | name (s : String)
  deriving DecidableEq

namespace Literal

def int? : Literal → Option Int64
  | int v => some v
  | _ => none

def number? : Literal → Option Binary64
  | int v => some (.ofInt v.toInt)
  | float x => some x
  | _ => none

/-- The literal with its kind. -/
def label : Literal → String
  | int v => s!"Int({v})"
  | float x => "Float(" ++ x.literalText ++ ")"
  | text s => "Str(" ++ Text.quoted s ++ ")"
  | name s => "Ident(" ++ Text.quoted s ++ ")"

end Literal

end WireProtocol
