import WireProtocol.Message

/-!
# Reading in order

The composed readers read a part, stop if that failed, and go on with the input that it left.
`Outcome.andThen` is this step, and `Decoded.andThen` is the one of the decoders that keep no state
after a failure. The equations (`readMembers_cons`, `readBundle_measured`, `readElement_some`, …)
write each composed reader with them, so that a property of reading is proved once for the step and
then holds along every sequence of parts.
-/

set_option autoImplicit false

namespace WireProtocol

variable {α β : Type}

namespace Outcome

/-- Goes on with `next` after a read that succeeded. After one that failed its error stands, in the
state that `failed` makes of what was reached. -/
def andThen (o : Outcome α) (failed : α → β) (next : α → Bytes → Outcome β) : Outcome β :=
  match o.error with
  | some e => .fail (failed o.value) o.rest e
  | none => next o.value o.rest

theorem andThen_of_some {o : Outcome α} {failed : α → β} {next : α → Bytes → Outcome β}
    {e : CodecError} (h : o.error = some e) :
    o.andThen failed next = .fail (failed o.value) o.rest e := by
  unfold andThen
  rw [h]

theorem andThen_of_none {o : Outcome α} {failed : α → β} {next : α → Bytes → Outcome β}
    (h : o.error = none) : o.andThen failed next = next o.value o.rest := by
  unfold andThen
  rw [h]

/-- A sequence succeeds only if both of its steps do. -/
theorem andThen_ok {o : Outcome α} {failed : α → β} {next : α → Bytes → Outcome β}
    (h : (o.andThen failed next).error = none) :
    o.error = none ∧ o.andThen failed next = next o.value o.rest := by
  cases he : o.error with
  | none => exact ⟨rfl, andThen_of_none he⟩
  | some e =>
    rw [andThen_of_some he] at h
    cases h

end Outcome

namespace Decoded

/-- What a reader found, without the state after a failure. -/
def ofOutcome (o : Outcome α) : Decoded α :=
  match o.error with
  | some e => (.error e, o.rest)
  | none => (.ok o.value, o.rest)

/-- Goes on with `next` after a result; an error stands. -/
def andThen (d : Decoded α) (next : α → Bytes → Decoded β) : Decoded β :=
  match d with
  | (.ok v, rest) => next v rest
  | (.error e, rest) => (.error e, rest)

/-- Goes on with the reader `next` after a result; after an error the state is `value`. -/
def resume (d : Decoded α) (value : β) (next : α → Bytes → Outcome β) : Outcome β :=
  match d with
  | (.ok v, rest) => next v rest
  | (.error e, rest) => .fail value rest e

theorem ofOutcome_andThen (o : Outcome α) (next : α → Bytes → Decoded β) :
    andThen (.ofOutcome o) next =
      match o.error with
      | some e => (.error e, o.rest)
      | none => next o.value o.rest := by
  unfold andThen ofOutcome
  cases h : o.error <;> simp only

theorem ofOutcome_ok {o : Outcome α} {v : α} {rest : Bytes} (h : ofOutcome o = (.ok v, rest)) :
    o.error = none ∧ o.value = v ∧ o.rest = rest := by
  unfold ofOutcome at h
  split at h
  · cases h
  · rename_i he
    cases h
    exact ⟨he, rfl, rfl⟩

/-- A sequence has a result only if both of its steps do. -/
theorem andThen_ok {d : Decoded α} {next : α → Bytes → Decoded β} {w : β} {rest : Bytes}
    (h : andThen d next = (.ok w, rest)) :
    ∃ v mid, d = (.ok v, mid) ∧ next v mid = (.ok w, rest) := by
  obtain ⟨result, mid⟩ := d
  cases result with
  | ok v => exact ⟨v, mid, rfl, h⟩
  | error e => cases h

theorem andThen_error {d : Decoded α} {next : α → Bytes → Decoded β} {e : CodecError}
    (h : d.1 = .error e) : (andThen d next).1 = .error e := by
  obtain ⟨result, rest⟩ := d
  cases h
  rfl

theorem resume_error {d : Decoded α} {value : β} {next : α → Bytes → Outcome β} {e : CodecError}
    (h : d.1 = .error e) : (resume d value next).error = some e := by
  obtain ⟨result, rest⟩ := d
  cases h
  rfl

theorem resume_ok {d : Decoded α} {value : β} {next : α → Bytes → Outcome β}
    (h : (resume d value next).error = none) :
    ∃ v mid, d = (.ok v, mid) ∧ resume d value next = next v mid := by
  obtain ⟨result, mid⟩ := d
  cases result with
  | ok v => exact ⟨v, mid, rfl, rfl⟩
  | error e => cases h

end Decoded

theorem Bytes.take?_ok {n : Nat} {src taken rest : Bytes} (h : take? n src = .ok (taken, rest)) :
    src = taken ++ rest ∧ taken.length = n := by
  rw [take?_eq] at h
  split at h
  · cases h
  · cases h
    refine ⟨(List.take_append_drop n src).symm, ?_⟩
    rw [List.length_take]
    omega

/-- Bytes are handed on only if none is missing. -/
theorem withBytes_ok {n : Nat} {src : Bytes} {value : α} {next : Bytes → Bytes → Outcome α}
    (h : (withBytes n src value next).error = none) :
    ∃ taken rest, src = taken ++ rest ∧ taken.length = n ∧
      withBytes n src value next = next taken rest := by
  unfold withBytes at h ⊢
  cases ht : Bytes.take? n src with
  | error missing =>
    rw [ht] at h
    cases h
  | ok p =>
    obtain ⟨hs, hl⟩ := Bytes.take?_ok ht
    exact ⟨p.1, p.2, hs, hl, rfl⟩

/-! ## The composed readers -/

/-- The storage of an enumeration as read, checked if the enumeration is strict. -/
def EnumField.checked (f : EnumField) (storage : IntField) (rest : Bytes) : Outcome EnumField :=
  let g := { f with storage }
  if g.strict && !g.isValid then .fail g rest (.invalidData (.unknownEnumValue g.value))
  else .done g rest

theorem EnumField.read_eq (f : EnumField) (src : Bytes) :
    f.read src = (f.storage.read src).andThen (fun s => { f with storage := s }) f.checked := rfl

theorem SizePolicy.readSize_eq (p : IntField) (src : Bytes) :
    readSize p src = Decoded.andThen (.ofOutcome (p.read src)) fun n rest =>
      if n.value < 0 then (.error (.invalidData (.negativeSize n.value)), rest)
      else (.ok n.value.toInt.toNat, rest) := by
  rw [Decoded.ofOutcome_andThen]
  rfl

theorem ByteField.read_sized (f : ByteField) {p : IntField} (h : f.size.sizeField? = some p)
    (src : Bytes) :
    f.read src = Decoded.resume (SizePolicy.readSize p src) f fun n rest => f.readData n rest := by
  obtain ⟨size, data⟩ := f
  cases size with
  | remainder => cases h
  | fixed n => cases h
  | count q | length q =>
    cases h
    unfold ByteField.read Decoded.resume
    dsimp only
    split <;> rename_i heq <;> rw [heq]

namespace ListOf

variable {φ : Type} (readOne : Bytes → Outcome φ)

theorem readElement_none (src : Bytes) :
    readElement readOne none src =
      Decoded.andThen (.ofOutcome (readOne src)) fun v rest => (.ok (v, []), rest) := by
  rw [Decoded.ofOutcome_andThen]
  unfold readElement
  cases h : (readOne src).error <;> simp only [h]

/-- Reads an element in the region that a length announces. -/
def readRegion (length : IntField) (src : Bytes) : Decoded (φ × Bytes) :=
  if length.value < 0 then (.error (.invalidData (.negativeElementLength length.value)), src)
  else
    match Bytes.take? length.value.toInt.toNat src with
    | .error missing => (.error (.notEnoughData missing), src)
    | .ok (region, rest) =>
      let o := readOne region
      match o.error with
      | none => (.ok (o.value, o.rest), rest)
      | some e => (.error (e.bounded .element), rest)

theorem readElement_some (p : IntField) (src : Bytes) :
    readElement readOne (some p) src =
      Decoded.andThen (.ofOutcome (p.read src)) (readRegion readOne) := by
  rw [Decoded.ofOutcome_andThen]
  rfl

theorem readMany_succ (elemLength : Option IntField) (n : Nat) (before : List (φ × Bytes))
    (src : Bytes) :
    readMany readOne elemLength (n + 1) before src =
      Decoded.andThen (readElement readOne elemLength src) fun e rest =>
        readMany readOne elemLength n (e :: before) rest := by
  conv => lhs; unfold readMany
  unfold Decoded.andThen
  split <;> rename_i heq <;> rw [heq]

theorem finish_eq (l : ListOf φ) (d : Decoded (List (φ × Bytes))) :
    l.finish d = Decoded.resume d l fun elements rest => .done { l with elements } rest := by
  unfold finish Decoded.resume
  split <;> rfl

/-- Reads the elements of a list in a region of `n` bytes. -/
def readBounded (l : ListOf φ) (n : Nat) (src : Bytes) : Outcome (ListOf φ) :=
  withBytes n src l fun region rest =>
    l.finish ((readAll readOne l.elemLength region).1.mapError (·.bounded .list), rest)

theorem readWith_count (l : ListOf φ) {p : IntField} (h : l.size = .count p) (src : Bytes) :
    readWith readOne l src = Decoded.resume (SizePolicy.readSize p src) l fun n rest =>
      l.finish (readMany readOne l.elemLength n [] rest) := by
  unfold readWith Decoded.resume
  rw [h]
  dsimp only
  split <;> rename_i heq <;> rw [heq]

theorem readWith_length (l : ListOf φ) {p : IntField} (h : l.size = .length p) (src : Bytes) :
    readWith readOne l src =
      Decoded.resume (SizePolicy.readSize p src) l (readBounded readOne l) := by
  unfold readWith Decoded.resume
  rw [h]
  dsimp only
  split
  · rename_i heq
    rw [heq]
  · rename_i heq
    rw [heq]
    rfl

end ListOf

theorem readMembers_cons (m : Member Field) (ms : List (Member Field)) (src : Bytes) :
    readMembers (m :: ms) src =
      (m.field.read src).andThen (fun v => { m with field := v } :: ms) fun v rest =>
        (readMembers ms rest).map ({ m with field := v } :: ·) := by
  rw [readMembers]
  rfl

/-- Reads what a length member of a bundle announces, after the members in front of it. -/
def readTail (head : List (Member Field)) (name : String) (tail : List (Member Field))
    (trailing : Bytes) (length : IntField) (src : Bytes) : Outcome (Bundle Field) :=
  let unread := Bundle.measured head name length tail trailing
  if length.value < 0 then .fail unread src (.invalidData (.negativeRemainingLength length.value))
  else
    withBytes length.value.toInt.toNat src unread fun region rest =>
      let t := readMembers tail region
      match t.error with
      | some e => .fail (.measured head name length t.value trailing) rest (e.bounded .bundle)
      | none => .done (.measured head name length t.value t.rest) rest

theorem readBundle_measured (head : List (Member Field)) (name : String) (length : IntField)
    (tail : List (Member Field)) (trailing src : Bytes) :
    readBundle (.measured head name length tail trailing) src =
      (readMembers head src).andThen (fun hs => .measured hs name length tail trailing)
        fun hs rest =>
          (length.read rest).andThen (fun n => .measured hs name n tail trailing) fun n rest =>
            readTail hs name tail trailing n rest := by
  rw [readBundle]
  rfl

theorem Field.read_optional (o : Optional Field) (src : Bytes) :
    (Field.optional o).read src =
      if o.mode == .missing || o.mode == .tentative && src.isEmpty then
        .done (.optional ⟨o.default, o.default, .missing⟩) src
      else
        (o.inner.read src).andThen (fun v => .optional { o with inner := v }) fun v rest =>
          .done (.optional ⟨v, o.default, .present⟩) rest := by
  rw [Field.read]
  split
  · rfl
  · cases h : (o.inner.read src).error with
    | none => rw [Outcome.andThen_of_none h]; simp only [h]
    | some e => rw [Outcome.andThen_of_some h]; simp only [h]

theorem readFields_cons (rules : List PresenceRule) (version : UInt64)
    (before : List (Member Field)) (m : Member Field) (ms : List (Member Field)) (src : Bytes) :
    readFields rules version before (m :: ms) src =
      ((m.field.inMode (requiredMode rules version before)).1.read src).andThen
        (fun v => before ++ { m with field := v } :: ms) fun v rest =>
          readFields rules version (before ++ [{ m with field := v }]) ms rest := by
  rw [readFields]
  rfl

end WireProtocol
