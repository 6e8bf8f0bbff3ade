import WireProtocol.DefinitionError
import WireProtocol.Field.Refresh

/-!
# Composing fields

The constructors of composed fields that can refuse their parts: a measured bundle, a bitfield and a
variant. That of a bitfield adds up widths and stops the program if the sum overflows.
-/

set_option autoImplicit false

namespace WireProtocol

/-- A bundle whose member of index `i`, an integer, gives the length of all after it. -/
def Bundle.measured? (members : List (Member Field)) (i : Nat) :
    Except DefinitionError (Bundle Field) :=
  match members.drop i with
  | [] => .error (.invalid (.lengthIndex i))
  | ⟨name, .int length⟩ :: tail =>
    .ok (refreshBundle (.measured (members.take i) name length tail [])).1
  | m :: _ => .error (.invalid (.lengthKind m.name))

/-- A member that may turn out not to be packable. -/
abbrev PackedMember := String × UInt32 × Field

/-- A bitfield whose members take all bits of its storage. -/
def Bitfield.ofMembers? (name : String) (bytes : Nat) (order : ByteOrder)
    (members : List PackedMember) : Except DefinitionFailure Bitfield :=
  if bounds : 1 ≤ bytes ∧ bytes ≤ 8 then
    match members.find? (·.2.2.packable?.isNone) with
    | some m => .error (.reported (.invalid (.bitfieldKind name m.1)))
    | none =>
      let packed := members.filterMap fun m => m.2.2.packable?.map (BitMember.mk m.1 m.2.1)
      match packed.find? (·.bits == 0) with
      | some m => .error (.reported (.invalid (.bitfieldZeroWidth name m.name)))
      | none =>
        match Bitfield.widthChecked 0 packed with
        | none => .error .overflow
        | some used =>
          let declared := UInt32.ofNat (8 * bytes)
          if used = declared then .ok { bytes, bounds, order, members := packed }
          else .error (.reported (.bitWidthMismatch name used declared))
  else .error (.reported (.invalid (.bitfieldStorage name bytes)))

/-- The tag of a bundle, which is the default of its first member. -/
def Bundle.tag? (b : Bundle Field) : Option Int64 :=
  match b.members with
  | ⟨_, .int f⟩ :: _ => some f.default
  | ⟨_, .enumeration f⟩ :: _ => some f.storage.default
  | _ => none

/-- Tagged alternatives of bundles, of which none has a tag in `seen`. -/
def Choice.ofBundles? (seen : List Int64) :
    List (String × Bundle Field) → Except DefinitionError (List (Choice Field))
  | [] => .ok []
  | (name, b) :: bs =>
    match b.tag? with
    | none => .error (.invalid (.noTag name))
    | some tag =>
      if tag ∈ seen then .error (.duplicate (.tag tag name))
      else return ⟨name, tag, b⟩ :: (← ofBundles? (tag :: seen) bs)

/-- A variant whose alternatives have different tags; the first is chosen. -/
def Variant.ofBundles? (alternatives : List (String × Bundle Field)) :
    Except DefinitionError (Variant Field) :=
  if alternatives.isEmpty then .error (.invalid .noAlternative)
  else return ⟨← Choice.ofBundles? [] alternatives, 0⟩

/-- A list, filled with copies of the prototype if its size is fixed. -/
def ListOf.ofPrototype (prototype : Field) (size : SizePolicy) (elemLength : Option IntField) :
    ListOf Field :=
  match size with
  | .fixed n => ⟨prototype, size, elemLength, List.replicate n (prototype, [])⟩
  | _ => ⟨prototype, size, elemLength, []⟩

/-- An optional field that keeps its inner field as the default. -/
def Optional.ofField (inner : Field) (mode : OptionalMode) : Optional Field :=
  ⟨inner, inner, mode⟩

end WireProtocol
