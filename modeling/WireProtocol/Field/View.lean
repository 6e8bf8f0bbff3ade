import WireProtocol.Field.Basic
import WireProtocol.Value

/-!
# What a field holds

The value of a field, and whether it is valid: within its ranges, with a name, of its size. Reading
does not depend on validity unless the field is strict.
-/

set_option autoImplicit false

namespace WireProtocol

def Packable.value : Packable → Value
  | .int f => .int f.value
  | .enumeration f => .int f.value
  | .bitmask f => .bits f.value

mutual

/-- The value of a field. -/
def Field.value : Field → Value
  | .int f => .int f.value
  | .enumeration f => .int f.value
  | .bitmask f => .bits f.value
  | .float f => .float f.value
  | .text f => .text f.text
  | .bytes f => .bytes f.data
  | .list ⟨_, _, _, elements⟩ => .list (elementValues [] elements)
  | .bitfield b => .bundle (b.members.map fun m => (m.name, m.field.value))
  | .bundle b => .bundle (bundleValues b)
  | .optional ⟨inner, _, mode⟩ => if mode == .present then inner.value else .missing
  | .variant ⟨alternatives, current⟩ => choiceValue alternatives current
  | .unknown data => .bytes data

def bundleValues : Bundle Field → List (String × Value)
  | .plain ms => memberValues ms
  | .measured head name length tail _ =>
    memberValues head ++ (name, .int length.value) :: memberValues tail

def memberValues : List (Member Field) → List (String × Value)
  | [] => []
  | ⟨name, field⟩ :: ms => (name, field.value) :: memberValues ms

/-- The values of elements after those in `before`, which are in reverse. -/
def elementValues (before : List Value) : List (Field × Bytes) → List Value
  | [] => before.reverse
  | (field, _) :: es => elementValues (field.value :: before) es

def choiceValue : List (Choice Field) → Nat → Value
  | [], _ => .missing
  | ⟨name, _, bundle⟩ :: _, 0 => .variant name (.bundle (bundleValues bundle))
  | _ :: cs, i + 1 => choiceValue cs i

end

mutual

/-- Whether what the field holds is valid. -/
def Field.isValid : Field → Bool
  | .int f => f.isValid
  | .enumeration f => f.isValid
  | .bitmask f => f.isValid
  | .float f => f.isValid
  | .text f => f.isValidText
  | .bytes f => f.isValid
  | .list ⟨_, size, _, elements⟩ =>
    let countFits : Bool := match size with
      | .fixed n => elements.length == n
      | _ => true
    countFits && elementsValid elements
  | .bitfield b => b.isValid
  | .bundle b => bundleValid b
  | .optional ⟨inner, _, mode⟩ => mode != .present || inner.isValid
  | .variant ⟨alternatives, current⟩ => choiceValid alternatives current
  | .unknown _ => true

def bundleValid : Bundle Field → Bool
  | .plain ms => membersValid ms
  | .measured head _ length tail _ => membersValid head && length.isValid && membersValid tail

def membersValid : List (Member Field) → Bool
  | [] => true
  | ⟨_, field⟩ :: ms => field.isValid && membersValid ms

def elementsValid : List (Field × Bytes) → Bool
  | [] => true
  | (field, _) :: es => field.isValid && elementsValid es

def choiceValid : List (Choice Field) → Nat → Bool
  | [], _ => false
  | ⟨_, _, bundle⟩ :: _, 0 => bundleValid bundle
  | _ :: cs, i + 1 => choiceValid cs i

end

end WireProtocol
