import WireProtocol.Proofs.Field.Induction
import WireProtocol.Proofs.Field.Sequence

/-!
# What reading leaves

Whether it succeeds or fails, reading leaves an unchanged end of the input (`Field.read_suffix`,
`Message.read_suffix`): it neither skips bytes in the middle nor makes up others. `LeavesSuffix r`
says this of a reader `r`; each reader has its lemma, and the ones that read parts in order follow
from those of the parts.
-/

set_option autoImplicit false

namespace WireProtocol

variable {α β φ : Type}

theorem suffix_of_eq {xs ys : Bytes} (h : xs = ys) : xs <:+ ys := h ▸ List.suffix_rfl

/-- Reading leaves an end of the input. -/
def LeavesSuffix (read : Bytes → Outcome α) : Prop := ∀ src, (read src).rest <:+ src

theorem LeavesSuffix.map {read : Bytes → Outcome α} (h : LeavesSuffix read) (f : α → β) :
    LeavesSuffix fun src => (read src).map f := fun src => h src

theorem Outcome.andThen_suffix {o : Outcome α} {src : Bytes} {failed : α → β}
    {next : α → Bytes → Outcome β} (ho : o.rest <:+ src)
    (hn : ∀ v rest, (next v rest).rest <:+ rest) : (o.andThen failed next).rest <:+ src := by
  unfold andThen
  split
  · exact ho
  · exact (hn _ _).trans ho

theorem withBytes_suffix {n : Nat} {src : Bytes} {value : α}
    {next : Bytes → Bytes → Outcome α} (h : ∀ taken rest, (next taken rest).rest <:+ rest) :
    (withBytes n src value next).rest <:+ src := by
  unfold withBytes
  cases ht : Bytes.take? n src with
  | error missing => exact List.suffix_rfl
  | ok p =>
    obtain ⟨hs, -⟩ := Bytes.take?_ok ht
    exact (h p.1 p.2).trans ⟨p.1, hs.symm⟩

namespace Decoded

theorem ofOutcome_rest (o : Outcome α) : (ofOutcome o).2 = o.rest := by
  unfold ofOutcome
  cases o.error <;> rfl

theorem andThen_suffix {d : Decoded α} {src : Bytes} {next : α → Bytes → Decoded β}
    (hd : d.2 <:+ src) (hn : ∀ v rest, (next v rest).2 <:+ rest) : (andThen d next).2 <:+ src := by
  obtain ⟨result, rest⟩ := d
  cases result with
  | ok v => exact (hn v rest).trans hd
  | error e => exact hd

theorem resume_suffix {d : Decoded α} {src : Bytes} {value : β} {next : α → Bytes → Outcome β}
    (hd : d.2 <:+ src) (hn : ∀ v rest, (next v rest).rest <:+ rest) :
    (resume d value next).rest <:+ src := by
  obtain ⟨result, rest⟩ := d
  cases result with
  | ok v => exact (hn v rest).trans hd
  | error e => exact hd

end Decoded

theorem LeavesSuffix.decoded {read : Bytes → Outcome α} (h : LeavesSuffix read) (src : Bytes) :
    (Decoded.ofOutcome (read src)).2 <:+ src := by
  rw [Decoded.ofOutcome_rest]
  exact h src

/-! ## Scalars -/

namespace Groups

/-- The bytes looked at and those that are left make up the input. -/
def Scan.Leaves (src : Bytes) : Scan → Prop
  | .ended chain rest => src = chain ++ rest
  | .short => True
  | .tooLong rest => rest <:+ src

theorem Scan.Leaves.cons {s : Scan} {src : Bytes} (h : s.Leaves src) (b : UInt8) :
    (s.cons b).Leaves (b :: src) := by
  cases s with
  | ended chain rest => exact congrArg (b :: ·) h
  | short => trivial
  | tooLong rest => exact List.IsSuffix.trans h (List.suffix_cons _ _)

theorem scan_leaves (max : Nat) (src : Bytes) : (scan max src).Leaves src := by
  induction max generalizing src with
  | zero => exact List.suffix_rfl
  | succ max ih =>
    cases src with
    | nil => trivial
    | cons b bs =>
      unfold scan
      split
      · rfl
      · exact (ih bs).cons b

end Groups

theorem IntField.checked_rest (f : IntField) (rest : Bytes) : (f.checked rest).rest = rest := by
  unfold IntField.checked
  split <;> rfl

theorem IntField.read_suffix (f : IntField) : LeavesSuffix f.read := by
  intro src
  unfold IntField.read
  split
  · exact withBytes_suffix fun taken rest => suffix_of_eq (IntField.checked_rest _ rest)
  · rename_i min max _ _
    have hscan := Groups.scan_leaves max src
    split <;> rename_i heq
    · exact List.nil_suffix
    · rw [heq] at hscan
      exact hscan
    · rename_i chain rest
      rw [heq] at hscan
      have hr : rest <:+ src := ⟨chain, hscan.symm⟩
      dsimp only
      split
      · split
        · rwa [IntField.checked_rest]
        · exact hr
      · exact hr

theorem EnumField.checked_rest (f : EnumField) (storage : IntField) (rest : Bytes) :
    (f.checked storage rest).rest = rest := by
  unfold EnumField.checked
  dsimp only
  split <;> rfl

theorem EnumField.read_suffix (f : EnumField) : LeavesSuffix f.read := fun src => by
  rw [EnumField.read_eq]
  exact Outcome.andThen_suffix (f.storage.read_suffix src) fun s rest =>
    suffix_of_eq (f.checked_rest s rest)

theorem BitmaskField.read_suffix (f : BitmaskField) : LeavesSuffix f.read := fun _ =>
  withBytes_suffix fun taken rest => by dsimp only; split <;> exact List.suffix_rfl

theorem FloatField.read_suffix (f : FloatField) : LeavesSuffix f.read := fun _ =>
  withBytes_suffix fun _ _ => List.suffix_rfl

theorem Bitfield.read_suffix (f : Bitfield) : LeavesSuffix f.read := fun _ =>
  withBytes_suffix fun _ _ => List.suffix_rfl

theorem SizePolicy.readSize_suffix (p : IntField) (src : Bytes) :
    (SizePolicy.readSize p src).2 <:+ src := by
  rw [readSize_eq]
  refine Decoded.andThen_suffix (p.read_suffix.decoded src) fun n rest => ?_
  split <;> exact List.suffix_rfl

theorem ByteField.readData_suffix (f : ByteField) (n : Nat) : LeavesSuffix (f.readData n) :=
  fun _ => withBytes_suffix fun _ _ => List.suffix_rfl

theorem ByteField.read_suffix (f : ByteField) : LeavesSuffix f.read := by
  intro src
  cases hp : f.size.sizeField? with
  | some p =>
    rw [f.read_sized hp]
    exact Decoded.resume_suffix (SizePolicy.readSize_suffix p src) f.readData_suffix
  | none =>
    obtain ⟨size, data⟩ := f
    cases size with
    | remainder => exact List.nil_suffix
    | fixed n => exact readData_suffix _ n src
    | count p | length p => cases hp

/-! ## Lists -/

namespace ListOf

variable {readOne : Bytes → Outcome φ} (h : LeavesSuffix readOne)
include h

omit h in
theorem readRegion_suffix (length : IntField) (src : Bytes) :
    (readRegion readOne length src).2 <:+ src := by
  unfold readRegion
  split
  · exact List.suffix_rfl
  · cases ht : Bytes.take? length.value.toInt.toNat src with
    | error missing => exact List.suffix_rfl
    | ok p =>
      obtain ⟨hs, -⟩ := Bytes.take?_ok ht
      have hp : p.2 <:+ src := ⟨p.1, hs.symm⟩
      dsimp only
      split <;> exact hp

theorem readElement_suffix (elemLength : Option IntField) (src : Bytes) :
    (readElement readOne elemLength src).2 <:+ src := by
  cases elemLength with
  | none =>
    rw [readElement_none]
    exact Decoded.andThen_suffix (h.decoded src) fun v rest => List.suffix_rfl
  | some p =>
    rw [readElement_some]
    exact Decoded.andThen_suffix (p.read_suffix.decoded src) readRegion_suffix

theorem readMany_suffix (elemLength : Option IntField) (n : Nat) (before : List (φ × Bytes))
    (src : Bytes) : (readMany readOne elemLength n before src).2 <:+ src := by
  induction n generalizing before src with
  | zero => exact List.suffix_rfl
  | succ n ih =>
    rw [readMany_succ]
    exact Decoded.andThen_suffix (readElement_suffix h elemLength src) fun e rest => ih _ rest

theorem readUpTo_suffix (elemLength : Option IntField) (limit : Nat)
    (before : List (φ × Bytes)) (src : Bytes) :
    (readUpTo readOne elemLength limit before src).2 <:+ src := by
  induction limit generalizing before src with
  | zero => cases src <;> exact List.suffix_rfl
  | succ n ih =>
    cases src with
    | nil => exact List.suffix_rfl
    | cons b bs =>
      have he := readElement_suffix h elemLength (b :: bs)
      unfold readUpTo
      split <;> rename_i heq <;> rw [heq] at he
      · exact (ih _ _).trans he
      · exact he

omit h in
theorem finish_rest (l : ListOf φ) (d : Decoded (List (φ × Bytes))) : (l.finish d).rest = d.2 := by
  unfold finish
  split <;> rfl

theorem readWith_suffix (l : ListOf φ) : LeavesSuffix (readWith readOne l) := by
  intro src
  cases hs : l.size with
  | fixed n =>
    simp only [readWith, hs, finish_rest]
    exact readMany_suffix h _ _ _ _
  | remainder =>
    simp only [readWith, hs, finish_rest]
    exact readUpTo_suffix h _ _ _ _
  | count p =>
    rw [readWith_count readOne l hs]
    refine Decoded.resume_suffix (SizePolicy.readSize_suffix p src) fun n rest => ?_
    rw [finish_rest]
    exact readMany_suffix h _ _ _ _
  | length p =>
    rw [readWith_length readOne l hs]
    exact Decoded.resume_suffix (SizePolicy.readSize_suffix p src) fun n rest =>
      withBytes_suffix fun region rest => suffix_of_eq (finish_rest _ _)

end ListOf

/-! ## Members -/

theorem readMembers_suffix {ms : List (Member Field)}
    (h : ∀ m ∈ ms, LeavesSuffix m.field.read) : LeavesSuffix (readMembers ms) := by
  induction ms with
  | nil => exact fun src => List.suffix_rfl
  | cons m ms ih =>
    intro src
    rw [readMembers_cons]
    exact Outcome.andThen_suffix (h m (.head _) src) fun _ rest =>
      ih (fun m hm => h m (.tail _ hm)) rest

theorem readTail_suffix (head : List (Member Field)) (name : String)
    (tail : List (Member Field)) (trailing : Bytes) (length : IntField) :
    LeavesSuffix (readTail head name tail trailing length) := by
  intro src
  unfold readTail
  dsimp only
  split
  · exact List.suffix_rfl
  · refine withBytes_suffix fun region rest => ?_
    split <;> exact List.suffix_rfl

theorem readBundle_suffix {b : Bundle Field} (h : ∀ m ∈ b.members, LeavesSuffix m.field.read) :
    LeavesSuffix (readBundle b) := by
  intro src
  cases b with
  | plain ms =>
    rw [readBundle]
    exact readMembers_suffix h src
  | measured head name length tail trailing =>
    rw [readBundle_measured]
    refine Outcome.andThen_suffix
      (readMembers_suffix (fun m hm => h m (List.mem_append_left _ hm)) src) fun hs rest => ?_
    exact Outcome.andThen_suffix (length.read_suffix rest) fun n rest =>
      readTail_suffix hs name tail trailing n rest

theorem readChoice_suffix {cs : List (Choice Field)}
    (h : ∀ c ∈ cs, LeavesSuffix (readBundle c.bundle)) (i : Nat) :
    LeavesSuffix (readChoice cs i) := by
  intro src
  induction cs generalizing i with
  | nil => exact List.suffix_rfl
  | cons c cs ih =>
    cases i with
    | zero =>
      unfold readChoice
      exact h c (.head _) src
    | succ i =>
      unfold readChoice
      exact ih (fun c hc => h c (.tail _ hc)) i

/-! ## Fields and messages -/

/-- **Reading a field leaves an end of the input**, also when it fails. -/
theorem Field.read_suffix (f : Field) : LeavesSuffix f.read := by
  intro src
  induction f generalizing src with
  | int f => exact f.read_suffix src
  | enumeration f => exact f.read_suffix src
  | bitmask f => exact f.read_suffix src
  | float f => exact f.read_suffix src
  | text f => exact f.read_suffix src
  | bytes f => exact f.read_suffix src
  | list l ih _ =>
    unfold Field.read
    exact ListOf.readWith_suffix ih l src
  | bitfield b => exact b.read_suffix src
  | bundle b ih =>
    unfold Field.read
    exact readBundle_suffix ih src
  | optional o ih _ =>
    rw [Field.read_optional]
    split
    · exact List.suffix_rfl
    · exact Outcome.andThen_suffix (ih src) fun _ _ => List.suffix_rfl
  | variant v ih =>
    unfold Field.read
    split
    · exact List.suffix_rfl
    · exact readChoice_suffix (fun c hc => readBundle_suffix (ih c hc)) _ src
  | unknown data => exact List.nil_suffix

theorem readFields_suffix (rules : List PresenceRule) (version : UInt64)
    (before ms : List (Member Field)) : LeavesSuffix (readFields rules version before ms) := by
  intro src
  induction ms generalizing before src with
  | nil => exact List.suffix_rfl
  | cons m ms ih =>
    rw [readFields_cons]
    exact Outcome.andThen_suffix (Field.read_suffix _ src) fun _ rest => ih _ rest

/-- **Reading a message leaves an end of the input**, also when it fails. -/
theorem Message.read_suffix (m : Message) : LeavesSuffix m.read := fun src =>
  readFields_suffix m.rules m.version [] m.fields src

end WireProtocol
