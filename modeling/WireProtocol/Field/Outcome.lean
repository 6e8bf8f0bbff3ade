import WireProtocol.Error

/-!
# What a read leaves behind

Reading changes a field even when it fails: what was read before the failure stays, and so does
the input consumed so far. An `Outcome` holds the state reached, the input that is left and the
error, if there was one.
-/

set_option autoImplicit false

namespace WireProtocol

/-- The result of a read: the state reached, the bytes not consumed and why it stopped short. -/
structure Outcome (α : Type) where
  value : α
  rest : Bytes
  error : Option CodecError

namespace Outcome

variable {α β : Type}

def done (value : α) (rest : Bytes) : Outcome α := ⟨value, rest, none⟩

def fail (value : α) (rest : Bytes) (error : CodecError) : Outcome α := ⟨value, rest, some error⟩

/-- The same outcome with its state seen as another one. -/
def map (f : α → β) (o : Outcome α) : Outcome β := ⟨f o.value, o.rest, o.error⟩

@[simp] theorem value_map (f : α → β) (o : Outcome α) : (o.map f).value = f o.value := rfl
@[simp] theorem rest_map (f : α → β) (o : Outcome α) : (o.map f).rest = o.rest := rfl
@[simp] theorem error_map (f : α → β) (o : Outcome α) : (o.map f).error = o.error := rfl

end Outcome

/-- Hands the first `n` bytes and the rest to `next`; if some are missing nothing is consumed and
the state stays `value`. -/
def withBytes {α : Type} (n : Nat) (src : Bytes) (value : α)
    (next : Bytes → Bytes → Outcome α) : Outcome α :=
  match Bytes.take? n src with
  | .ok (taken, rest) => next taken rest
  | .error missing => .fail value src (.notEnoughData missing)

theorem withBytes_append {α : Type} (as bs : Bytes) (value : α)
    (next : Bytes → Bytes → Outcome α) :
    withBytes as.length (as ++ bs) value next = next as bs := by
  simp [withBytes, Bytes.take?_append]

end WireProtocol
