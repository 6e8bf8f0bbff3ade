import WireProtocol.Field.Basic

/-!
# What is known of an encoding before it is read

The least and the greatest length that reading a field can consume, and whether the encoding ends
by itself or only with the input.
-/

set_option autoImplicit false

namespace WireProtocol

/-- Whether the chosen elements of a sequence end only with the input. -/
def SizePolicy.endsWithInput : SizePolicy → Bool
  | .remainder => true
  | _ => false

/-! ## The least length -/

/-- The smaller of a number and the least of the others, if there are others. -/
def leastOf (n : Nat) : Option Nat → Nat
  | none => n
  | some m => min n m

mutual

/-- The least count of bytes that reading the field consumes. -/
def Field.minLength : Field → Nat
  | .int f => f.minLength
  | .enumeration f => f.storage.minLength
  | .bitmask f => f.bytes
  | .float f => f.precision.bytes
  | .text f => f.minLength
  | .bytes f => f.minLength
  | .list ⟨prototype, size, elemLength, _⟩ =>
    match size with
    | .fixed n => n * (prototype.minLength + (elemLength.elim 0 IntField.minLength))
    | size => size.minSizeLength
  | .bitfield b => b.bytes
  | .bundle b => bundleMinLength b
  | .optional ⟨inner, _, mode⟩ => if mode == .present then inner.minLength else 0
  | .variant ⟨alternatives, _⟩ => (choicesMinLength alternatives).getD 0
  | .unknown _ => 0

/-- The least length of a bundle; the region of a length member may be longer. -/
def bundleMinLength : Bundle Field → Nat
  | .plain ms => membersMinLength ms
  | .measured head _ length tail _ =>
    membersMinLength head + length.minLength + membersMinLength tail

def membersMinLength : List (Member Field) → Nat
  | [] => 0
  | ⟨_, field⟩ :: ms => field.minLength + membersMinLength ms

/-- The least length of all alternatives. -/
def choicesMinLength : List (Choice Field) → Option Nat
  | [] => none
  | ⟨_, _, bundle⟩ :: cs => some (leastOf (bundleMinLength bundle) (choicesMinLength cs))

end

/-! ## The greatest length -/

mutual

/-- The greatest count of bytes that the encoding takes, as far as members tell. -/
def Field.maxLength : Field → Bound
  | .int f => some f.maxLength
  | .enumeration f => some f.storage.maxLength
  | .bitmask f => some f.bytes
  | .float f => some f.precision.bytes
  | .text f => f.maxLength
  | .bytes f => f.maxLength
  | .list ⟨prototype, size, elemLength, _⟩ =>
    match size with
    | .fixed n =>
      Bound.times n (prototype.maxLength.add (some (elemLength.elim 0 IntField.maxLength)))
    | _ => none
  | .bitfield b => some b.bytes
  | .bundle b => bundleMaxLength b
  | .optional ⟨inner, _, _⟩ => inner.maxLength
  | .variant ⟨alternatives, _⟩ => choicesMaxLength alternatives
  | .unknown _ => none

def bundleMaxLength : Bundle Field → Bound
  | .plain ms => membersMaxLength ms
  | .measured head _ length tail _ =>
    ((membersMaxLength head).add (some length.maxLength)).add (membersMaxLength tail)

def membersMaxLength : List (Member Field) → Bound
  | [] => some 0
  | ⟨_, field⟩ :: ms => field.maxLength.add (membersMaxLength ms)

/-- The greatest length of all alternatives. -/
def choicesMaxLength : List (Choice Field) → Bound
  | [] => some 0
  | ⟨_, _, bundle⟩ :: cs => (bundleMaxLength bundle).max (choicesMaxLength cs)

end

/-! ## Where the encoding ends -/

mutual

/-- Whether reading may run on to the end of the input, instead of stopping at a boundary that the
encoding carries itself. -/
def Field.readsToEnd : Field → Bool
  | .text f => f.size.endsWithInput
  | .bytes f => f.size.endsWithInput
  | .list ⟨prototype, size, elemLength, _⟩ =>
    match size with
    | .remainder => true
    | .length _ => false
    | _ => elemLength.isNone && prototype.readsToEnd
  | .bundle b => bundleReadsToEnd b
  | .optional ⟨inner, _, mode⟩ => mode == .tentative || inner.readsToEnd
  | .variant ⟨alternatives, _⟩ => choicesReadToEnd alternatives
  | .unknown _ => true
  | _ => false

/-- The region of a length member bounds what is in it. -/
def bundleReadsToEnd : Bundle Field → Bool
  | .plain ms => membersReadToEnd ms
  | .measured head _ _ _ _ => membersReadToEnd head

def membersReadToEnd : List (Member Field) → Bool
  | [] => false
  | ⟨_, field⟩ :: ms => field.readsToEnd || membersReadToEnd ms

def choicesReadToEnd : List (Choice Field) → Bool
  | [] => false
  | ⟨_, _, bundle⟩ :: cs => bundleReadsToEnd bundle || choicesReadToEnd cs

end

end WireProtocol
