import WireProtocol.Frame.Basic

/-!
# What well-formed frames guarantee

The facts that the check of a frame establishes: the payload is the last layer, ids are integers or
enumerations, and without a size layer no message reads to the end of the input.
-/

set_option autoImplicit false

namespace WireProtocol

theorem frameFault?_eq_none {layers : List Layer} {registry : Registry}
    (h : frameFault? layers registry = none) :
    layers.getLast?.any Layer.isPayload = true ∧ layers.countP Layer.isPayload = 1 ∧
      layers.countP Layer.isId = 1 ∧ layersFault? false layers = none ∧
      (isSized layers = false → ∀ m ∈ registry.prototypes, m.readsToEnd = false) := by
  unfold frameFault? at h
  split at h
  · cases h
  rename_i hlast
  split at h
  · cases h
  rename_i hcount
  split at h
  · cases h
  rename_i hid
  split at h
  · cases h
  rename_i hlayers
  refine ⟨by simpa using hlast, by simpa using hcount, by simpa using hid, hlayers, fun hs => ?_⟩
  rw [hs] at h
  simp only [Bool.false_eq_true, if_false, Option.map_eq_none_iff, List.find?_eq_none] at h
  exact fun m hm => by simpa using h m hm

theorem layersFault?_eq_none {sized : Bool} {ls : List Layer} (h : layersFault? sized ls = none) :
    ∀ l ∈ ls, ∃ inside, l.fault? inside = none := by
  induction ls generalizing sized with
  | nil =>
    intro l hl
    cases hl
  | cons l ls ih =>
    unfold layersFault? at h
    split at h
    · cases h
    · rename_i hl
      intro l' hl'
      rcases List.mem_cons.1 hl' with rfl | hl'
      · exact ⟨sized, hl⟩
      · exact ih h l' hl'

/-- Nothing is inside a payload that is the last layer. -/
theorem inside_payload {name : String} {ls : List Layer}
    (h : ∀ l ∈ ls, (⟨name, .payload⟩ : Layer).isPayload = false) : ls = [] := by
  cases ls with
  | nil => rfl
  | cons l ls => cases h l (.head _)

namespace Frame

variable (f : Frame)

/-- No layer comes after the payload. -/
theorem payload_last : f.layers.Pairwise fun l _ => l.isPayload = false := by
  obtain ⟨hlast, hcount, -⟩ := frameFault?_eq_none f.wellFormed
  cases hl : f.layers.getLast? with
  | none => rw [hl] at hlast; cases hlast
  | some p =>
    rw [hl] at hlast
    obtain ⟨init, hi⟩ := List.getLast?_eq_some_iff.1 hl
    -- the last layer is the only payload
    rw [hi, List.countP_append, List.countP_singleton, if_pos (by simpa using hlast)] at hcount
    have hn := List.countP_eq_zero.1 (Nat.add_eq_right.1 hcount)
    have hf : ∀ l ∈ init, l.isPayload = false := fun l hl => by simpa using hn l hl
    rw [hi, List.pairwise_append]
    refine ⟨?_, List.pairwise_singleton _ _, fun l hl _ _ => hf l hl⟩
    exact List.pairwise_of_forall_mem_list fun l hl _ _ => hf l hl

/-- An id is an integer or an enumeration. -/
theorem id_kind {l : Layer} (hl : l ∈ f.layers) {field : Field} (hk : l.kind = .id field) :
    (∃ g, field = .int g) ∨ ∃ g, field = .enumeration g := by
  obtain ⟨-, -, -, hlayers, -⟩ := frameFault?_eq_none f.wellFormed
  obtain ⟨inside, hi⟩ := layersFault?_eq_none hlayers l hl
  unfold Layer.fault? at hi
  rw [hk] at hi
  cases field with
  | int g => exact .inl ⟨g, rfl⟩
  | enumeration g => exact .inr ⟨g, rfl⟩
  | _ => cases hi

theorem messages_bounded (h : f.sized = false) :
    ∀ m ∈ f.registry.prototypes, m.readsToEnd = false :=
  (frameFault?_eq_none f.wellFormed).2.2.2.2 h

end Frame

end WireProtocol
