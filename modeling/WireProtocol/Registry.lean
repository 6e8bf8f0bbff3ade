import WireProtocol.Message
import WireProtocol.Text.Blank
import WireProtocol.Text.Number

/-!
# The message types of a protocol

A registry holds a prototype of each message type, in order of declaration. Types that share an id
are told apart by their index among those of the id.
-/

set_option autoImplicit false

namespace WireProtocol

/-- Prototypes of messages, and names of ids. -/
structure Registry where
  prototypes : List Message
  idNames : List (String × UInt64) := []

namespace Registry

/-- The prototypes of an id. -/
def ofId (r : Registry) (id : UInt64) : List Message := r.prototypes.filter (·.id == id)

/-- The first name of an id. -/
def idName? (r : Registry) (id : UInt64) : Option String :=
  (r.idNames.find? (·.2 == id)).map (·.1)

def count (r : Registry) (id : UInt64) : Nat := (r.ofId id).length

/-- A new message of the type of that index among those of an id. -/
def create? (r : Registry) (id : UInt64) (index : Nat) : Option Message := (r.ofId id)[index]?

/-- An id written in decimal, or in hexadecimal after its mark. -/
def readId? (key : List Char) : Option UInt64 :=
  let n := match key with
    | '0' :: 'x' :: cs | '0' :: 'X' :: cs => Text.numeralBelow? UInt64.size 16 cs
    | cs => Text.numeralBelow? UInt64.size 10 cs
  n.map UInt64.ofNat

/-- A new message by an id as a number, else by the name of an id, else by the name of a type. -/
def createByKey? (r : Registry) (key : String) (index : Nat) : Option Message :=
  let key := Text.trim key
  match readId? key.toList with
  | some id => r.create? id index
  | none =>
    match r.idNames.find? (·.1 == key) with
    | some (_, id) => r.create? id index
    | none => r.prototypes.find? (·.name == key)

end Registry

end WireProtocol
