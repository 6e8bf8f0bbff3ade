import WireProtocol.Frame.Write
import WireProtocol.Proofs.Field.Writing

/-!
# What a frame that was written consists of

Writing layers succeeds exactly if writing each of them does (`writeLayers_header_inv`,
`writeLayers_header_ok`, …). All layers but the payload send one integer, in front of what the
layers inside send or behind it.
-/

set_option autoImplicit false

namespace WireProtocol

variable {m : Message} {name : String} {ls : List Layer} {b : Bytes}

-- the equations of all kinds of layers are made here once: they are slow, and each lemma needs one
attribute [local simp] writeLayers

/-- The field that a layer sends in front of the layers inside, whatever these send. -/
def Layer.header? (m : Message) (l : Layer) : Option Field :=
  match l.kind with
  | .sync field => some (.int field)
  | .id field => some (idFieldFor field m)
  | .transport field version => some (.int (transportFieldFor l.name field version m))
  | _ => none

theorem writeLayers_header_inv {l : Layer} {f : Field} (hf : l.header? m = some f)
    (h : writeLayers m (l :: ls) = .ok b) :
    ∃ c d, f.write = .ok c ∧ writeLayers m ls = .ok d ∧ b = c ++ d := by
  obtain ⟨name, kind⟩ := l
  cases kind with
  | sync field | id field | transport field version =>
    cases hf
    simp only [writeLayers, bind_eq_ok, pure_eq_ok] at h
    obtain ⟨c, hc, d, hd, rfl⟩ := h
    exact ⟨c, d, hc, hd, rfl⟩
  | _ => cases hf

/-- A size that was written is the count of the bytes inside, and no greater than allowed. -/
theorem writeLayers_size_inv {field : IntField} {max : Option Nat}
    (h : writeLayers m (⟨name, .size field max⟩ :: ls) = .ok b) :
    ∃ c d, (field.withCount d.length).write = .ok c ∧ writeLayers m ls = .ok d ∧
      d.length = layersLength m ls ∧ max.any (· < d.length) = false ∧ b = c ++ d := by
  simp only [writeLayers] at h
  split at h
  · cases h
  · rename_i hmax
    simp only [bind_eq_ok] at h
    obtain ⟨c, hc, d, hd, h⟩ := h
    split at h
    · rename_i hl
      cases h
      rw [← hl] at hc hmax
      exact ⟨c, d, hc, hd, hl, by simpa using hmax, rfl⟩
    · cases h

theorem writeLayers_after_inv {field : IntField} {algorithm : Checksum}
    (h : writeLayers m (⟨name, .checksum field algorithm .after⟩ :: ls) = .ok b) :
    ∃ c d, (checksumField field algorithm d).write = .ok c ∧ writeLayers m ls = .ok d ∧
      b = d ++ c := by
  simp only [writeLayers, bind_eq_ok, pure_eq_ok] at h
  obtain ⟨d, hd, c, hc, rfl⟩ := h
  exact ⟨c, d, hc, hd, rfl⟩

theorem writeLayers_before_inv {field : IntField} {algorithm : Checksum}
    (h : writeLayers m (⟨name, .checksum field algorithm .before⟩ :: ls) = .ok b) :
    ∃ c d, (checksumField field algorithm d).write = .ok c ∧ writeLayers m ls = .ok d ∧
      b = c ++ d := by
  simp only [writeLayers, bind_eq_ok, pure_eq_ok] at h
  obtain ⟨-, -, d, hd, c, hc, rfl⟩ := h
  exact ⟨c, d, hc, hd, rfl⟩

/-! ## Putting the parts together -/

theorem writeLayers_header_ok {l : Layer} {f : Field} {c d : Bytes} (hf : l.header? m = some f)
    (hc : f.write = .ok c) (hd : writeLayers m ls = .ok d) :
    writeLayers m (l :: ls) = .ok (c ++ d) := by
  obtain ⟨name, kind⟩ := l
  cases kind with
  | sync field | transport field version =>
    cases hf
    rw [Field.write] at hc
    simp [hc, hd, bind, Except.bind, pure, Except.pure]
  | id field =>
    cases hf
    simp [hc, hd, bind, Except.bind, pure, Except.pure]
  | _ => cases hf

theorem writeLayers_size_ok {field : IntField} {max : Option Nat} {c d : Bytes}
    (hc : (field.withCount d.length).write = .ok c) (hd : writeLayers m ls = .ok d)
    (hl : d.length = layersLength m ls) (hmax : max.any (· < d.length) = false) :
    writeLayers m (⟨name, .size field max⟩ :: ls) = .ok (c ++ d) := by
  rw [hl] at hc hmax
  simp [hmax, hc, hd, hl, bind, Except.bind, pure, Except.pure]

theorem writeLayers_after_ok {field : IntField} {algorithm : Checksum} {c d : Bytes}
    (hc : (checksumField field algorithm d).write = .ok c) (hd : writeLayers m ls = .ok d) :
    writeLayers m (⟨name, .checksum field algorithm .after⟩ :: ls) = .ok (d ++ c) := by
  simp [hc, hd, bind, Except.bind, pure, Except.pure]

theorem writeLayers_before_ok {field : IntField} {algorithm : Checksum} {c d room : Bytes}
    (hroom : (field.withValue 0).write = .ok room)
    (hc : (checksumField field algorithm d).write = .ok c) (hd : writeLayers m ls = .ok d) :
    writeLayers m (⟨name, .checksum field algorithm .before⟩ :: ls) = .ok (c ++ d) := by
  simp [hroom, hc, hd, bind, Except.bind, pure, Except.pure]

end WireProtocol
