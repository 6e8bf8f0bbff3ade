import WireProtocol.Proofs.Field.Shortage

/-!
# How reading fails

There are two ways for a field not to be read: the input ends, or what is there is malformed
(`Field.read_fails`, `Message.read_fails`). Causes that belong to frames, checksums and writing never
come up. `FailsInContent` says this of the errors of a reader, and like other properties of readers
it is carried along every sequence of parts.
-/

set_option autoImplicit false

namespace WireProtocol

variable {α β φ : Type}

/-- Bytes are missing, or those that are there are malformed. -/
inductive CodecError.InContent : CodecError → Prop
  | short (missing : Nat) : InContent (.notEnoughData missing)
  | malformed (fault : DataFault) : InContent (.invalidData fault)

theorem CodecError.InContent.bounded {e : CodecError} (h : e.InContent) (region : Region) :
    (e.bounded region).InContent := by
  cases h with
  | short missing => exact .malformed _
  | malformed fault => exact .malformed fault

/-- A reader fails only for want of bytes or on malformed ones. -/
def FailsInContent (error : Bytes → Option CodecError) : Prop :=
  ∀ src e, error src = some e → e.InContent

namespace FailsInContent

theorem of_none {error : Bytes → Option CodecError} (h : ∀ src, error src = none) :
    FailsInContent error :=
  fun src e he => by cases (h src).symm.trans he

/-- **A sequence fails in one of its steps.** -/
theorem thenError {read : Bytes → Decoded α} {next : α → Bytes → Option CodecError}
    (h : FailsInContent fun src => (read src).error?) (hn : ∀ v, FailsInContent (next v)) :
    FailsInContent fun src => (read src).thenError next := by
  intro src e he
  dsimp only at he
  cases hr : read src with
  | mk result rest =>
    rw [hr] at he
    cases result with
    | ok v => exact hn v rest e he
    | error e' =>
      cases he
      exact h src _ (by simp only [hr, Decoded.error?])

theorem andThen {read : Bytes → Outcome α} {failed : α → β} {next : α → Bytes → Outcome β}
    (h : FailsInContent fun src => (read src).error)
    (hn : ∀ v, FailsInContent fun src => (next v src).error) :
    FailsInContent fun src => ((read src).andThen failed next).error := by
  simp only [Outcome.andThen_error?]
  refine thenError ?_ hn
  simp only [Decoded.ofOutcome_error?]
  exact h

theorem decoded {read : Bytes → Outcome α} (h : FailsInContent fun src => (read src).error) :
    FailsInContent fun src => (Decoded.ofOutcome (read src)).error? := by
  simp only [Decoded.ofOutcome_error?]
  exact h

theorem decodedThen {read : Bytes → Decoded α} {next : α → Bytes → Decoded β}
    (h : FailsInContent fun src => (read src).error?)
    (hn : ∀ v, FailsInContent fun src => (next v src).error?) :
    FailsInContent fun src => (Decoded.andThen (read src) next).error? := by
  simp only [Decoded.andThen_error?]
  exact thenError h hn

theorem resume {read : Bytes → Decoded α} {value : β} {next : α → Bytes → Outcome β}
    (h : FailsInContent fun src => (read src).error?)
    (hn : ∀ v, FailsInContent fun src => (next v src).error) :
    FailsInContent fun src => (Decoded.resume (read src) value next).error := by
  simp only [Decoded.resume_error?]
  exact thenError h hn

end FailsInContent

theorem withBytes_fails {n : Nat} {value : α} {next : Bytes → Bytes → Outcome α}
    (h : ∀ taken, FailsInContent fun rest => (next taken rest).error) :
    FailsInContent fun src => (withBytes n src value next).error := by
  intro src e he
  dsimp only [withBytes] at he
  cases ht : Bytes.take? n src with
  | error missing =>
    rw [ht] at he
    cases he
    exact .short missing
  | ok p =>
    rw [ht] at he
    exact h p.1 p.2 e he

/-! ## Scalars -/

theorem IntField.checked_fails (f : IntField) : FailsInContent fun rest => (f.checked rest).error := by
  intro rest e he
  unfold checked at he
  split at he
  · cases he
    exact .malformed _
  · cases he

theorem IntField.read_fails (f : IntField) : FailsInContent fun src => (f.read src).error := by
  intro src e he
  unfold read at he
  split at he
  · exact withBytes_fails (fun taken => checked_fails _) src e he
  · dsimp only at he
    split at he
    · cases he
      exact .short 1
    · cases he
      exact .malformed _
    · split at he
      · split at he
        · exact checked_fails _ _ e he
        · cases he
          exact .malformed _
      · cases he
        exact .malformed _

theorem EnumField.read_fails (f : EnumField) : FailsInContent fun src => (f.read src).error := by
  simp only [f.read_eq]
  refine .andThen f.storage.read_fails fun s rest e he => ?_
  unfold checked at he
  dsimp only at he
  split at he
  · cases he
    exact .malformed _
  · cases he

theorem BitmaskField.read_fails (f : BitmaskField) : FailsInContent fun src => (f.read src).error :=
  withBytes_fails fun taken rest e he => by
    dsimp only at he
    split at he
    · cases he
      exact .malformed _
    · cases he

theorem FloatField.read_fails (f : FloatField) : FailsInContent fun src => (f.read src).error :=
  withBytes_fails fun _ => .of_none fun _ => rfl

theorem Bitfield.read_fails (f : Bitfield) : FailsInContent fun src => (f.read src).error :=
  withBytes_fails fun _ => .of_none fun _ => rfl

theorem SizePolicy.readSize_fails (p : IntField) :
    FailsInContent fun src => Decoded.error? (readSize p src) := by
  simp only [readSize_eq p]
  refine .decodedThen p.read_fails.decoded fun v rest e he => ?_
  split at he
  · cases he
    exact .malformed _
  · cases he

theorem ByteField.readData_fails (f : ByteField) (n : Nat) :
    FailsInContent fun src => (f.readData n src).error :=
  withBytes_fails fun _ => .of_none fun _ => rfl

theorem ByteField.read_fails (f : ByteField) : FailsInContent fun src => (f.read src).error := by
  cases hp : f.size.sizeField? with
  | some p =>
    simp only [f.read_sized hp]
    exact .resume (SizePolicy.readSize_fails p) f.readData_fails
  | none =>
    obtain ⟨size, data⟩ := f
    cases size with
    | remainder => exact .of_none fun _ => rfl
    | fixed n => exact readData_fails _ n
    | count p | length p => cases hp

/-! ## Lists -/

namespace ListOf

variable {readOne : Bytes → Outcome φ} (h : FailsInContent fun src => (readOne src).error)
include h

theorem readRegion_fails (length : IntField) :
    FailsInContent fun src => (readRegion readOne length src).error? := by
  intro src e he
  dsimp only [readRegion] at he
  split at he
  · cases he
    exact .malformed _
  · split at he
    · cases he
      exact .short _
    · rename_i region rest _
      split at he
      · cases he
      · rename_i e' hone
        cases he
        exact (h region e' hone).bounded _

theorem readElement_fails (elemLength : Option IntField) :
    FailsInContent fun src => (readElement readOne elemLength src).error? := by
  cases elemLength with
  | none =>
    simp only [readElement_none readOne]
    exact .decodedThen h.decoded fun v => .of_none fun _ => rfl
  | some p =>
    simp only [readElement_some readOne p]
    exact .decodedThen p.read_fails.decoded (readRegion_fails h)

theorem readMany_fails (elemLength : Option IntField) (n : Nat) (before : List (φ × Bytes)) :
    FailsInContent fun src => (readMany readOne elemLength n before src).error? := by
  induction n generalizing before with
  | zero => exact .of_none fun _ => rfl
  | succ n ih =>
    simp only [readMany_succ readOne elemLength n before]
    exact .decodedThen (readElement_fails h elemLength) fun e => ih (e :: before)

theorem readUpTo_fails (elemLength : Option IntField) (limit : Nat) (before : List (φ × Bytes)) :
    FailsInContent fun src => (readUpTo readOne elemLength limit before src).error? := by
  induction limit generalizing before with
  | zero =>
    intro src e he
    cases src with
    | nil => cases he
    | cons b bs =>
      cases he
      exact .malformed _
  | succ n ih =>
    intro src e he
    cases src with
    | nil => cases he
    | cons b bs =>
      dsimp only at he
      unfold readUpTo at he
      split at he
      · exact ih _ _ e he
      · rename_i hone
        cases he
        exact readElement_fails h elemLength (b :: bs) e (by simp only [hone, Decoded.error?])

theorem readBounded_fails (l : ListOf φ) (n : Nat) :
    FailsInContent fun src => (readBounded readOne l n src).error := by
  refine withBytes_fails fun region rest e he => ?_
  dsimp only at he
  rw [finish_error] at he
  dsimp only [Decoded.error?] at he
  cases hr : (readAll readOne l.elemLength region).1 with
  | ok elements =>
    rw [hr] at he
    cases he
  | error e' =>
    rw [hr] at he
    cases he
    refine (readUpTo_fails h l.elemLength region.length [] region e' ?_).bounded _
    show Decoded.error? (readAll readOne l.elemLength region) = some e'
    simp only [Decoded.error?, hr]

theorem readWith_fails (l : ListOf φ) : FailsInContent fun src => (readWith readOne l src).error := by
  cases hz : l.size with
  | remainder =>
    simp only [readWith, hz, finish_error]
    exact fun src => readUpTo_fails h l.elemLength src.length [] src
  | fixed n =>
    simp only [readWith, hz, finish_error]
    exact readMany_fails h l.elemLength n []
  | count p =>
    simp only [readWith_count readOne l hz]
    refine .resume (SizePolicy.readSize_fails p) fun n => ?_
    simp only [finish_error]
    exact readMany_fails h l.elemLength n []
  | length p =>
    simp only [readWith_length readOne l hz]
    exact .resume (SizePolicy.readSize_fails p) (readBounded_fails h l)

end ListOf

/-! ## Members and alternatives -/

theorem readMembers_fails {ms : List (Member Field)}
    (h : ∀ m ∈ ms, FailsInContent fun src => (m.field.read src).error) :
    FailsInContent fun src => (readMembers ms src).error := by
  induction ms with
  | nil => exact .of_none fun _ => rfl
  | cons m ms ih =>
    simp only [readMembers_cons m ms]
    exact .andThen (h m (.head _)) fun v => ih fun m hm => h m (.tail _ hm)

theorem readTail_fails {tail : List (Member Field)}
    (h : ∀ m ∈ tail, FailsInContent fun src => (m.field.read src).error)
    (head : List (Member Field)) (name : String) (trailing : Bytes) (length : IntField) :
    FailsInContent fun src => (readTail head name tail trailing length src).error := by
  unfold readTail
  dsimp only
  split
  · intro src e he
    cases he
    exact .malformed _
  · refine withBytes_fails fun region rest e he => ?_
    split at he
    · rename_i e' htail
      cases he
      exact (readMembers_fails h region e' htail).bounded _
    · cases he

theorem readBundle_fails {b : Bundle Field}
    (h : ∀ m ∈ b.members, FailsInContent fun src => (m.field.read src).error) :
    FailsInContent fun src => (readBundle b src).error := by
  cases b with
  | plain ms =>
    simp only [readBundle]
    exact readMembers_fails h
  | measured head name length tail trailing =>
    simp only [readBundle_measured head name length tail trailing]
    refine .andThen (readMembers_fails fun m hm => h m (List.mem_append_left _ hm)) fun ms => ?_
    exact .andThen length.read_fails fun n =>
      readTail_fails (fun m hm => h m (List.mem_append_right _ (.tail _ hm))) ms name trailing n

theorem readChoice_fails {cs : List (Choice Field)}
    (h : ∀ c ∈ cs, FailsInContent fun src => (readBundle c.bundle src).error) (i : Nat) :
    FailsInContent fun src => (readChoice cs i src).error := by
  induction cs generalizing i with
  | nil =>
    simp only [readChoice]
    exact .of_none fun _ => rfl
  | cons c cs ih =>
    cases i with
    | zero =>
      simp only [readChoice]
      exact h c (.head _)
    | succ i =>
      simp only [readChoice]
      exact ih (fun c hc => h c (.tail _ hc)) i

theorem probeTags_fails {src : Bytes} {i : Nat} {missing : Option Nat} {cs : List (Choice Field)}
    {e : CodecError} (h : probeTags src i missing cs = .error e) : e.InContent := by
  induction cs generalizing i missing with
  | nil =>
    cases missing with
    | none =>
      cases h
      exact .malformed _
    | some n =>
      cases h
      exact .short n
  | cons c cs ih =>
    rw [probeTags_cons] at h
    split at h
    · split at h
      · cases h
      · exact ih h
    · exact ih h
    · exact ih h

/-! ## Fields and messages -/

/-- **A field is not read only for want of bytes or because they are malformed.** -/
theorem Field.read_fails (f : Field) : FailsInContent fun src => (f.read src).error := by
  induction f with
  | int f => exact f.read_fails
  | enumeration f => exact f.read_fails
  | bitmask f => exact f.read_fails
  | float f => exact f.read_fails
  | text f => exact f.read_fails
  | bytes f => exact f.read_fails
  | list l ih _ => exact ListOf.readWith_fails ih l
  | bitfield b => exact b.read_fails
  | bundle b ih => exact readBundle_fails ih
  | optional o ih _ =>
    simp only [Field.read_optional]
    intro src e he
    dsimp only at he
    split at he
    · cases he
    · exact FailsInContent.andThen ih (fun v => .of_none fun _ => rfl) src e he
  | variant v ih =>
    obtain ⟨alternatives, current⟩ := v
    intro src e he
    dsimp only at he
    rw [Field.read] at he
    cases hp : probeTags src 0 none alternatives with
    | error e' =>
      rw [hp] at he
      cases he
      exact probeTags_fails hp
    | ok i =>
      rw [hp] at he
      exact readChoice_fails (fun c hc => readBundle_fails (ih c hc)) i src e he
  | unknown data => exact .of_none fun src => by rw [Field.read]; rfl

theorem readFields_fails (rules : List PresenceRule) (version : UInt64)
    (before ms : List (Member Field)) :
    FailsInContent fun src => (readFields rules version before ms src).error := by
  induction ms generalizing before with
  | nil => exact .of_none fun _ => rfl
  | cons m ms ih =>
    simp only [readFields_cons rules version before m ms]
    exact .andThen (Field.read_fails _) fun v => ih _

/-- **A message is not read only for want of bytes or because they are malformed.** -/
theorem Message.read_fails (m : Message) : FailsInContent fun src => (m.read src).error :=
  readFields_fails m.rules m.version [] m.fields

end WireProtocol
