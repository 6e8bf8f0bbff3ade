import WireProtocol.Proofs.Field.Writing

/-!
# Why writing fails

A field is sent without looking at what else it holds, so the only thing that can go wrong is that
an integer does not fit in its bytes: `Field.write_overflows`, and `Message.write_overflows` for the
fields of a message. The integers meant are those that a field holds and those that announce how
long something is.
-/

set_option autoImplicit false

namespace WireProtocol

/-! ## Failures for want of room -/

/-- All failures of a computation are overflows. -/
def OnlyOverflows {α : Type} (x : Except CodecError α) : Prop :=
  ∀ e, x = .error e → ∃ cause, e = .overflow cause

namespace OnlyOverflows

variable {α β : Type}

theorem ok (a : α) : OnlyOverflows (.ok a) := nofun

theorem overflow (cause : Overflow) : OnlyOverflows (.error (.overflow cause) : Except _ α) := by
  rintro _ ⟨⟩
  exact ⟨cause, rfl⟩

/-- What comes after a step only matters if the step succeeds. -/
theorem bind {x : Except CodecError α} {f : α → Except CodecError β} (hx : OnlyOverflows x)
    (hf : ∀ a, x = .ok a → OnlyOverflows (f a)) : OnlyOverflows (x >>= f) := by
  cases x with
  | ok a => exact hf a rfl
  | error e =>
    obtain ⟨cause, rfl⟩ := hx e rfl
    exact overflow cause

/-- A step whose result is only rearranged. -/
theorem map {x : Except CodecError α} (f : α → β) (hx : OnlyOverflows x) :
    OnlyOverflows (x >>= fun a => pure (f a)) :=
  hx.bind fun a _ => ok (f a)

end OnlyOverflows

/-! ## Scalars and byte strings -/

theorem IntField.write_overflows (f : IntField) : OnlyOverflows f.write := by
  unfold write IntFormat.encode
  split
  · split
    · exact .ok _
    · exact .overflow _
  · dsimp only
    split
    · exact .ok _
    · exact .overflow _

theorem SizePolicy.writeSize_overflows (p : SizePolicy) (n : Nat) :
    OnlyOverflows (p.writeSize n) := by
  unfold writeSize
  split
  · exact IntField.write_overflows _
  · exact .ok _

theorem ByteField.write_overflows (f : ByteField) : OnlyOverflows f.write := by
  unfold write
  split
  · exact .ok _
  · exact (SizePolicy.writeSize_overflows _ _).map _

/-! ## Lists -/

theorem frameElement_overflows (elemLength : Option IntField) (content : Bytes) :
    OnlyOverflows (frameElement elemLength content) := by
  cases elemLength with
  | none => exact .ok content
  | some p => exact (IntField.write_overflows _).map _

theorem writeElements_overflows (elemLength : Option IntField) {es : List (Field × Bytes)}
    (h : ∀ e ∈ es, OnlyOverflows e.1.write) (n : Nat) (before : List Bytes) :
    OnlyOverflows (writeElements elemLength n before es) := by
  induction es generalizing n before with
  | nil => cases n <;> exact .ok _
  | cons e es ih =>
    obtain ⟨field, rest⟩ := e
    cases n with
    | zero => exact .ok _
    | succ n =>
      rw [writeElements]
      refine (h _ (.head _)).bind fun content _ => ?_
      refine (frameElement_overflows _ _).bind fun framed _ => ?_
      exact ih (fun e he => h e (.tail _ he)) n (framed :: before)

theorem ListOf.write_overflows {l : ListOf Field} (hp : OnlyOverflows l.prototype.write)
    (hes : ∀ e ∈ l.elements, OnlyOverflows e.1.write) : OnlyOverflows (Field.list l).write := by
  obtain ⟨prototype, size, elemLength, elements⟩ := l
  have hwritten := writeElements_overflows elemLength hes
  cases size with
  | fixed n =>
    simp only [Field.write]
    refine (hwritten n []).bind fun present _ => ?_
    split
    · refine hp.bind fun content _ => ?_
      exact (frameElement_overflows _ _).bind fun filler _ => .ok _
    · exact .ok _
  | remainder =>
    simp only [Field.write]
    exact (hwritten _ []).map _
  | count p | length p =>
    simp only [Field.write]
    exact (hwritten _ []).bind fun written _ => (SizePolicy.writeSize_overflows _ _).map _

/-! ## Members and alternatives -/

theorem writeMembers_overflows {ms : List (Member Field)}
    (h : ∀ m ∈ ms, OnlyOverflows m.field.write) : OnlyOverflows (writeMembers ms) := by
  induction ms with
  | nil => exact .ok []
  | cons m ms ih =>
    obtain ⟨name, field⟩ := m
    rw [writeMembers]
    exact (h _ (.head _)).bind fun front _ => (ih fun m hm => h m (.tail _ hm)).map _

theorem writeBundle_overflows {b : Bundle Field}
    (h : ∀ m ∈ b.members, OnlyOverflows m.field.write) : OnlyOverflows (writeBundle b) := by
  cases b with
  | plain ms => exact writeMembers_overflows h
  | measured head name length tail trailing =>
    rw [writeBundle]
    refine .bind (writeMembers_overflows fun m hm => h m ?_) fun region _ => ?_
    · exact List.mem_append_right _ (.tail _ hm)
    refine .bind (writeMembers_overflows fun m hm => h m ?_) fun front _ => ?_
    · exact List.mem_append_left _ hm
    exact (IntField.write_overflows _).map _

/-! ## Fields -/

/-- **A field fails to be written only because an integer does not fit in its bytes.** -/
theorem Field.write_overflows (f : Field) : OnlyOverflows f.write := by
  induction f with
  | int f => exact f.write_overflows
  | enumeration f => exact f.storage.write_overflows
  | bitmask f | float f | bitfield f | unknown f => exact .ok _
  | text f | bytes f => exact f.write_overflows
  | list l hp hes => exact ListOf.write_overflows hp hes
  | bundle b ih =>
    rw [Field.write]
    exact writeBundle_overflows ih
  | optional o ih _ =>
    rw [Field.write]
    split
    · exact ih
    · exact .ok []
  | variant v ih =>
    rw [Field.write, writeChoice_eq]
    cases hc : v.alternatives[v.current]? with
    | none => exact .ok []
    | some c => exact writeBundle_overflows (ih c (List.mem_of_getElem? hc))

/-- **A message fails to be written only because an integer does not fit in its bytes.** -/
theorem Message.write_overflows (m : Message) : OnlyOverflows m.write :=
  writeMembers_overflows fun x _ => x.field.write_overflows

end WireProtocol
