import WireProtocol.Field.Basic

/-!
# The weight of a field

How much a field holds once it is built, counted in scalars and bytes. A description is refused if
it asks for lists that hold more than a limit.
-/

set_option autoImplicit false

namespace WireProtocol

mutual

/-- About how many scalars and bytes a field holds. All alternatives of a variant are built and
count as much as the chosen one. -/
def Field.weight : Field → Nat
  | .text f => 1 + f.data.length
  | .bytes f => 1 + f.data.length
  | .list ⟨prototype, _, _, elements⟩ => elementsWeight (1 + prototype.weight) elements
  | .bundle b => bundleWeight b
  | .bitfield b => 1 + b.members.length
  | .optional ⟨inner, _, _⟩ => inner.weight + 1
  | .variant ⟨alternatives, current⟩ => choiceWeight alternatives current * alternatives.length
  | _ => 1

def bundleWeight : Bundle Field → Nat
  | .plain ms => 1 + membersWeight ms
  | .measured head _ _ tail _ => 2 + membersWeight head + membersWeight tail

def membersWeight : List (Member Field) → Nat
  | [] => 0
  | ⟨_, field⟩ :: ms => field.weight + membersWeight ms

/-- Adds the weights of elements to `sum`. -/
def elementsWeight (sum : Nat) : List (Field × Bytes) → Nat
  | [] => sum
  | (field, _) :: es => elementsWeight (sum + field.weight) es

def choiceWeight : List (Choice Field) → Nat → Nat
  | [], _ => 1
  | ⟨_, _, bundle⟩ :: _, 0 => bundleWeight bundle
  | _ :: cs, i + 1 => choiceWeight cs i

end

end WireProtocol
