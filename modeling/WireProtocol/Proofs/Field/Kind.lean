import WireProtocol.Message
import WireProtocol.Proofs.Field.Sequence

/-!
# The kind of a field is fixed

Whatever is done to a field after it was built, an integer stays an integer and a list a list:
reading, refreshing, assigning and every edit of a part keep the kind (`Field.editAt?_kind`). Rules
that name a field by its place therefore keep their meaning. What reading keeps of one field it keeps
of the fields of a message (`readFields_map`).
-/

set_option autoImplicit false

namespace WireProtocol

namespace Field

variable {ρ : Type}

/-- Reading keeps the kind of a field. -/
theorem read_kind (f : Field) (src : Bytes) : (f.read src).value.kind = f.kind := by
  cases f with
  | optional o =>
    rw [Field.read_optional]
    split
    · rfl
    · unfold Outcome.andThen
      split <;> rfl
  | variant v =>
    rw [Field.read]
    split <;> rfl
  | _ => rfl

theorem inMode_kind (f : Field) (mode : Option OptionalMode) :
    (f.inMode mode).1.kind = f.kind := by
  unfold inMode
  split
  · split <;> rfl
  · rfl

theorem refresh_kind (f : Field) : f.refresh.1.kind = f.kind := by
  cases f with
  | optional o =>
    obtain ⟨inner, default, mode⟩ := o
    rw [refresh]
    split <;> rfl
  | _ => rfl

/-! ## Assigning -/

theorem assignScalar_kind (v : Value) (f : Field) : (f.assignScalar v).1.kind = f.kind := by
  cases f <;> cases v <;> rfl

theorem assignInside_kind {set : Field → Field × Bool} (h : ∀ f, (set f).1.kind = f.kind)
    (f : Field) : (f.assignInside set).1.kind = f.kind := by
  cases f with
  | optional o => rfl
  | _ => exact h _

theorem assign_kind (v : Value) (f : Field) : (f.assign v).1.kind = f.kind := by
  cases v with
  | missing => cases f <;> rfl
  | list items =>
    rw [Field.assign]
    refine assignInside_kind (fun core => ?_) f
    cases core with
    | list l =>
      dsimp only
      split <;> rfl
    | _ => rfl
  | bundle items =>
    rw [Field.assign]
    refine assignInside_kind (fun core => ?_) f
    cases core <;> rfl
  | variant name inner =>
    rw [Field.assign]
    refine assignInside_kind (fun core => ?_) f
    cases core with
    | variant v =>
      dsimp only
      split
      · split <;> rfl
      · rfl
    | _ => rfl
  | int n | float x | bits n | text s | bytes bs =>
    rw [Field.assign]
    exact assignInside_kind (assignScalar_kind _) f

/-! ## Edits -/

theorem edit_kind (e : Edit) (f : Field) : (f.edit e).1.kind = f.kind := by
  cases e with
  | read src => exact read_kind f src
  | assign v => exact assign_kind v f
  | refresh => exact refresh_kind f
  | _ => cases f <;> rfl

/-- A change of a part keeps the kind of the whole. -/
theorem modifyChild?_kind {step : PathStep} {g : Field → Option (Field × ρ)} {f f' : Field} {r : ρ}
    (h : f.modifyChild? step g = some (f', r)) : f'.kind = f.kind := by
  unfold modifyChild? at h
  split at h
  case h_3 =>
    split at h
    · cases h
    · obtain ⟨_, -, heq⟩ := Option.map_eq_some_iff.1 h
      cases heq
      rfl
  case h_6 => cases h
  all_goals
    obtain ⟨_, -, heq⟩ := Option.map_eq_some_iff.1 h
    cases heq
    rfl

/-- **An edit of any part keeps the kind of a field.** -/
theorem editAt?_kind {path : List PathStep} {e : Edit} {f f' : Field} {reply : Option Reply}
    (h : f.editAt? path e = some (f', reply)) : f'.kind = f.kind := by
  cases path with
  | nil =>
    have hf : (f.edit e).1 = f' := congrArg Prod.fst (Option.some.inj h)
    rw [← hf]
    exact edit_kind e f
  | cons step path => exact modifyChild?_kind h

end Field

/-! ## Fields one after the other -/

/-- What reading and the modes keep of a field, reading a message keeps of each of its fields,
however far it comes. -/
theorem readFields_map {α : Type} {p : Field → α} (hread : ∀ f src, p (f.read src).value = p f)
    (hmode : ∀ f mode, p (f.inMode mode).1 = p f) (rules : List PresenceRule) (version : UInt64)
    (before ms : List (Member Field)) (src : Bytes) :
    (readFields rules version before ms src).value.map (fun m => p m.field) =
      (before ++ ms).map fun m => p m.field := by
  induction ms generalizing before src with
  | nil =>
    rw [List.append_nil]
    rfl
  | cons m ms ih =>
    have hp : p ((m.field.inMode (requiredMode rules version before)).1.read src).value =
        p m.field := (hread _ src).trans (hmode _ _)
    rw [readFields_cons]
    unfold Outcome.andThen
    split
    · simp only [Outcome.fail, List.map_append, List.map_cons, hp]
    · rw [ih]
      simp only [List.map_append, List.map_cons, List.append_assoc, List.singleton_append, hp]

end WireProtocol
