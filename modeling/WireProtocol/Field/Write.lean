import WireProtocol.Field.Basic

/-!
# Writing fields

`Field.write` gives the bytes of a field and `Field.length` how many they are, by a recursion of its
own that does not write. Counts and lengths that are sent are derived from what follows them,
whatever the fields hold.
-/

set_option autoImplicit false

namespace WireProtocol

/-! ## Lengths -/

mutual

/-- The count of bytes of a field. -/
def Field.length : Field → Nat
  | .int f => f.length
  | .enumeration f => f.storage.length
  | .bitmask f => f.bytes
  | .float f => f.precision.bytes
  | .text f => f.length
  | .bytes f => f.length
  | .list ⟨prototype, size, elemLength, elements⟩ =>
    let framed (n : Nat) : Nat :=
      match elemLength with
      | none => n
      | some p => (p.withCount n).length + n
    match size with
    | .fixed n =>
      elementsLength framed n 0 elements + (n - elements.length) * framed prototype.length
    | size =>
      let body := elementsLength framed elements.length 0 elements
      match size with
      | .count _ => size.sizeLength elements.length + body
      | .length _ => size.sizeLength body + body
      | _ => body
  | .bitfield b => b.bytes
  | .bundle b => bundleLength b
  | .optional ⟨inner, _, mode⟩ => if mode == .present then inner.length else 0
  | .variant ⟨alternatives, current⟩ => choiceLength alternatives current
  | .unknown data => data.length

/-- The count of bytes of a bundle. -/
def bundleLength : Bundle Field → Nat
  | .plain ms => membersLength ms
  | .measured head _ length tail trailing =>
    let region := membersLength tail + trailing.length
    membersLength head + (length.withCount region).length + region

/-- The count of bytes of members. -/
def membersLength : List (Member Field) → Nat
  | [] => 0
  | ⟨_, field⟩ :: ms => field.length + membersLength ms

/-- Adds the count of bytes of the first `n` elements to `sum`; `framed` adds the length in front
of an element. -/
def elementsLength (framed : Nat → Nat) : (n sum : Nat) → List (Field × Bytes) → Nat
  | 0, sum, _ => sum
  | _, sum, [] => sum
  | n + 1, sum, (field, rest) :: es =>
    elementsLength framed n (sum + framed (field.length + rest.length)) es

/-- The count of bytes of the alternative of that index. -/
def choiceLength : List (Choice Field) → Nat → Nat
  | [], _ => 0
  | ⟨_, _, bundle⟩ :: _, 0 => bundleLength bundle
  | _ :: cs, i + 1 => choiceLength cs i

end

/-! ## Bytes -/

/-- The bytes of an element, after its length if that is sent. -/
def frameElement (elemLength : Option IntField) (content : Bytes) : Except CodecError Bytes :=
  match elemLength with
  | none => .ok content
  | some p => return (← (p.withCount content.length).write) ++ content

mutual

/-- The bytes of a field. -/
def Field.write : Field → Except CodecError Bytes
  | .int f => f.write
  | .enumeration f => f.storage.write
  | .bitmask f => .ok f.write
  | .float f => .ok f.write
  | .text f => f.write
  | .bytes f => f.write
  | .list ⟨prototype, size, elemLength, elements⟩ => do
    let written ←
      match size with
      | .fixed n => do
        let present ← writeElements elemLength n [] elements
        if elements.length < n then
          let filler ← frameElement elemLength (← prototype.write)
          pure (present ++ (List.replicate (n - elements.length) filler).flatten)
        else pure present
      | _ => writeElements elemLength elements.length [] elements
    match size with
    | .count _ => return (← size.writeSize elements.length) ++ written
    | .length _ => return (← size.writeSize written.length) ++ written
    | _ => return written
  | .bitfield b => .ok b.write
  | .bundle b => writeBundle b
  | .optional ⟨inner, _, mode⟩ => if mode == .present then inner.write else .ok []
  | .variant ⟨alternatives, current⟩ => writeChoice alternatives current
  | .unknown data => .ok data

/-- The bytes of a bundle; the region is made before the members in front of it. -/
def writeBundle : Bundle Field → Except CodecError Bytes
  | .plain ms => writeMembers ms
  | .measured head _ length tail trailing => do
    let region := (← writeMembers tail) ++ trailing
    let front ← writeMembers head
    return front ++ (← (length.withCount region.length).write) ++ region

/-- The bytes of members in order. -/
def writeMembers : List (Member Field) → Except CodecError Bytes
  | [] => .ok []
  | ⟨_, field⟩ :: ms => do
    let front ← field.write
    return front ++ (← writeMembers ms)

/-- The bytes of the first `n` elements after those in `before`, which are in reverse. -/
def writeElements (elemLength : Option IntField) :
    (n : Nat) → (before : List Bytes) → List (Field × Bytes) → Except CodecError Bytes
  | 0, before, _ => .ok before.reverse.flatten
  | _, before, [] => .ok before.reverse.flatten
  | n + 1, before, (field, rest) :: es => do
    let content ← field.write
    let framed ← frameElement elemLength (content ++ rest)
    writeElements elemLength n (framed :: before) es

/-- The bytes of the alternative of that index. -/
def writeChoice : List (Choice Field) → Nat → Except CodecError Bytes
  | [], _ => .ok []
  | ⟨_, _, bundle⟩ :: _, 0 => writeBundle bundle
  | _ :: cs, i + 1 => writeChoice cs i

end

end WireProtocol
