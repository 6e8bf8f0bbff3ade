import WireProtocol.Binary64
import WireProtocol.Bytes

/-!
# Values

A value is a snapshot of a field that does not depend on how the field is encoded. It is used to
show fields and to assign to them. Integers and bit patterns convert to each other by keeping the
64 bits.
-/

set_option autoImplicit false

namespace WireProtocol

/-- The value of a field. -/
inductive Value where
  | int (v : Int64)
  | float (x : Binary64)
  | bits (v : UInt64)
  | text (s : String)
  | bytes (bs : Bytes)
  | list (items : List Value)
  /-- The members of a bundle or bitfield in order. -/
  | bundle (members : List (String × Value))
  /-- The chosen alternative of a variant. -/
  | variant (name : String) (inner : Value)
  /-- An absent optional. -/
  | missing
  deriving Inhabited

namespace Value

def int? : Value → Option Int64
  | int v => some v
  | bits v => some v.toInt64
  | _ => none

def bits? : Value → Option UInt64
  | int v => some v.toUInt64
  | bits v => some v
  | _ => none

def float? : Value → Option Binary64
  | float x => some x
  | int v => some (.ofInt v.toInt)
  | _ => none

def text? : Value → Option String
  | text s => some s
  | _ => none

def bytes? : Value → Option Bytes
  | bytes bs => some bs
  | _ => none

def list? : Value → Option (List Value)
  | list items => some items
  | _ => none

def isMissing : Value → Bool
  | missing => true
  | _ => false

/-- The first member of that name, also through the chosen alternative of a variant. -/
def get? (name : String) : Value → Option Value
  | bundle members => (members.find? (·.1 == name)).map (·.2)
  | variant _ inner => inner.get? name
  | _ => none

end Value

end WireProtocol
