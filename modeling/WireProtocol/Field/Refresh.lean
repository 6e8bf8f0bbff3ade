import WireProtocol.Field.Write

/-!
# Refreshing derived values

The length member of a bundle is derived from what follows it. Refreshing a field gives every such
member its derived value, inside first, and says whether any of them changed.
-/

set_option autoImplicit false

namespace WireProtocol

/-- Puts a refreshed part into its place and keeps whether it changed. -/
def onFirst {α β : Type} (f : α → β) (p : α × Bool) : β × Bool := (f p.1, p.2)

/-- A length member with the count of bytes that follow it. -/
def IntField.refreshed (f : IntField) (count : Nat) : IntField × Bool :=
  if f.value = Int64.ofNat count then (f, false) else (f.withCount count, true)

mutual

/-- Gives derived values to the length members of a field. -/
def Field.refresh : Field → Field × Bool
  | .bundle b => onFirst .bundle (refreshBundle b)
  | .optional ⟨inner, default, mode⟩ =>
    if mode == .present then onFirst (fun i => .optional ⟨i, default, mode⟩) inner.refresh
    else (.optional ⟨inner, default, mode⟩, false)
  | .variant ⟨alternatives, current⟩ =>
    onFirst (fun cs => .variant ⟨cs, current⟩) (refreshChoice alternatives current)
  | .list ⟨prototype, size, elemLength, elements⟩ =>
    onFirst (fun es => .list ⟨prototype, size, elemLength, es⟩) (refreshElements [] false elements)
  | f => (f, false)

def refreshBundle : Bundle Field → Bundle Field × Bool
  | .plain ms => onFirst .plain (refreshMembers ms)
  | .measured head name length tail trailing =>
    let h := refreshMembers head
    let t := refreshMembers tail
    let n := length.refreshed (membersLength t.1 + trailing.length)
    (.measured h.1 name n.1 t.1 trailing, h.2 || t.2 || n.2)

def refreshMembers : List (Member Field) → List (Member Field) × Bool
  | [] => ([], false)
  | ⟨name, field⟩ :: ms =>
    let f := field.refresh
    let r := refreshMembers ms
    (⟨name, f.1⟩ :: r.1, f.2 || r.2)

/-- Refreshes elements after those in `before`, which are in reverse. -/
def refreshElements (before : List (Field × Bytes)) (changed : Bool) :
    List (Field × Bytes) → List (Field × Bytes) × Bool
  | [] => (before.reverse, changed)
  | (field, rest) :: es =>
    let f := field.refresh
    refreshElements ((f.1, rest) :: before) (changed || f.2) es

def refreshChoice : List (Choice Field) → Nat → List (Choice Field) × Bool
  | [], _ => ([], false)
  | ⟨name, tag, bundle⟩ :: cs, 0 => onFirst (⟨name, tag, ·⟩ :: cs) (refreshBundle bundle)
  | c :: cs, i + 1 => onFirst (c :: ·) (refreshChoice cs i)

end

end WireProtocol
