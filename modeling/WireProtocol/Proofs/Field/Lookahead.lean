import WireProtocol.Proofs.Field.Integer

/-!
# Reading without looking ahead

An integer or an enumeration is decided by the bytes that it takes: whatever other bytes come behind
them, it is read in the same way (`IntField.read_noLookahead`, `EnumField.read_noLookahead`). Only
results count here, because a failure may come from a shortage of input.
-/

set_option autoImplicit false

namespace WireProtocol

/-- What reading gives is decided by the bytes that it takes. -/
def NoLookahead {α : Type} (read : Bytes → Outcome α) : Prop :=
  ∀ ⦃src rest v⦄, read src = .done v rest →
    ∃ c, src = c ++ rest ∧ ∀ rest', read (c ++ rest') = .done v rest'

namespace Outcome

variable {α : Type} {o : Outcome α}

theorem eq_done (h : o.error = none) : o = .done o.value o.rest := by
  rw [done, ← h]

theorem of_done {v : α} {rest : Bytes} (h : o = .done v rest) :
    o.error = none ∧ o.value = v ∧ o.rest = rest := by
  subst h
  exact ⟨rfl, rfl, rfl⟩

end Outcome

theorem NoLookahead.map {α β : Type} {read : Bytes → Outcome α} (h : NoLookahead read)
    (f : α → β) : NoLookahead fun src => (read src).map f := by
  intro src rest v hr
  obtain ⟨he, hv, hrest⟩ := Outcome.of_done hr
  obtain ⟨c, hc, hread⟩ := h (Outcome.eq_done he)
  refine ⟨c, hrest ▸ hc, fun rest' => ?_⟩
  dsimp only
  rw [hread rest', ← hv]
  rfl

theorem IntField.checked_moved {f g : IntField} {rest : Bytes} (h : f.checked rest = .done g rest)
    (rest' : Bytes) : f.checked rest' = .done g rest' := by
  obtain ⟨he, hv, -⟩ := Outcome.of_done h
  rw [checked_ok he] at hv
  unfold checked at he ⊢
  split at he <;> rename_i hvalid
  · cases he
  · rw [if_neg hvalid, ← hv]
    rfl

theorem IntField.read_noLookahead (f : IntField) : NoLookahead f.read := by
  intro src rest v h
  obtain ⟨he, -, hrest⟩ := Outcome.of_done h
  obtain ⟨w, c, -, hs, hw⟩ := IntField.read_ok he
  rw [hrest] at hs
  have hc : (f.withValue w).checked rest = .done v rest := by
    rw [← IntField.read_write hw rest, ← hs]
    exact h
  refine ⟨c, hs, fun rest' => ?_⟩
  rw [IntField.read_write hw]
  exact IntField.checked_moved hc rest'

theorem EnumField.read_noLookahead (f : EnumField) : NoLookahead f.read := by
  intro src rest v h
  obtain ⟨he, hv, hrest⟩ := Outcome.of_done h
  rw [read_eq] at he hv hrest
  obtain ⟨hs, heq⟩ := Outcome.andThen_ok he
  rw [heq] at he hv hrest
  rw [checked_rest] at hrest
  obtain ⟨c, hc, hread⟩ := f.storage.read_noLookahead (Outcome.eq_done hs)
  rw [hrest] at hc
  refine ⟨c, hc, fun rest' => ?_⟩
  rw [read_eq, hread rest', Outcome.andThen_of_none rfl, ← hv]
  show f.checked (f.storage.read src).value rest' = _
  unfold checked at he ⊢
  dsimp only at he ⊢
  split at he <;> rename_i hvalid
  · cases he
  · rw [if_neg hvalid, if_neg hvalid]
    rfl

end WireProtocol
