import WireProtocol.Proofs.Field.Integer
import WireProtocol.Proofs.Field.Writing

/-!
# The predicted length is exact

`Field.length` is a recursion of its own that writes nothing. If a field could be written, it is the
count of its bytes (`Field.length_write`), in any state of the field: sizes and lengths that are
sent are derived from the same counts on both sides. The same holds of messages
(`Message.length_exact`).
-/

set_option autoImplicit false

namespace WireProtocol

theorem ByteField.length_write {f : ByteField} {b : Bytes} (h : f.write = .ok b) :
    b.length = f.length := by
  cases hp : f.size.sizeField? with
  | some p =>
    obtain ⟨c, hc, rfl⟩ := write_sized_ok hp h
    have hl : f.size.sizeLength f.data.length = c.length := by
      rw [IntField.length_write hc, SizePolicy.sizeLength, hp]
    obtain ⟨size, data⟩ := f
    cases size with
    | remainder => cases hp
    | fixed n => cases hp
    | count q | length q =>
      rw [List.length_append, ← hl]
      rfl
  | none =>
    obtain ⟨size, data⟩ := f
    cases size with
    | fixed n =>
      cases h
      exact Bytes.length_resize n data
    | remainder =>
      cases h
      exact (Nat.zero_add _).symm
    | count q | length q => cases hp

/-! ## Lists -/

/-- The count of bytes of an element, with the length in front of it if that is sent. -/
def framedLength (elemLength : Option IntField) (n : Nat) : Nat :=
  match elemLength with
  | none => n
  | some p => (p.withCount n).length + n

/-- The count of bytes of elements in order. -/
def framedLengths (elemLength : Option IntField) : List (Field × Bytes) → Nat
  | [] => 0
  | e :: es => framedLength elemLength (e.1.length + e.2.length) + framedLengths elemLength es

theorem framedLengths_append (elemLength : Option IntField) (es fs : List (Field × Bytes)) :
    framedLengths elemLength (es ++ fs) =
      framedLengths elemLength es + framedLengths elemLength fs := by
  induction es with
  | nil => exact (Nat.zero_add _).symm
  | cons e es ih => rw [List.cons_append, framedLengths, framedLengths, ih, Nat.add_assoc]

theorem framedLengths_replicate (elemLength : Option IntField) (n : Nat) (e : Field × Bytes) :
    framedLengths elemLength (List.replicate n e) =
      n * framedLength elemLength (e.1.length + e.2.length) := by
  induction n with
  | zero => exact (Nat.zero_mul _).symm
  | succ n ih => rw [List.replicate_succ, framedLengths, ih, Nat.succ_mul, Nat.add_comm]

/-- The count of bytes of what announces the elements of a list. -/
def prefixLength (size : SizePolicy) (count length : Nat) : Nat :=
  match size with
  | .count _ => size.sizeLength count
  | .length _ => size.sizeLength length
  | .fixed _ | .remainder => 0

theorem elementsLength_eq (elemLength : Option IntField) (n sum : Nat)
    (es : List (Field × Bytes)) :
    elementsLength (framedLength elemLength) n sum es =
      sum + framedLengths elemLength (es.take n) := by
  induction es generalizing n sum with
  | nil =>
    rw [List.take_nil]
    cases n <;> rw [elementsLength]
    · rfl
    · rfl
    · exact nofun
  | cons e es ih =>
    obtain ⟨field, rest⟩ := e
    cases n with
    | zero => rw [elementsLength]; rfl
    | succ n =>
      rw [elementsLength, ih, List.take_succ_cons]
      simp only [framedLengths]
      omega

theorem Field.length_list (l : ListOf Field) :
    (Field.list l).length =
      prefixLength l.size l.elements.length (framedLengths l.elemLength l.sent) +
        framedLengths l.elemLength l.sent := by
  obtain ⟨prototype, size, elemLength, elements⟩ := l
  have hall := elementsLength_eq elemLength elements.length 0 elements
  rw [List.take_length, Nat.zero_add] at hall
  cases size with
  | fixed n =>
    have hl : (Field.list ⟨prototype, .fixed n, elemLength, elements⟩).length =
        elementsLength (framedLength elemLength) n 0 elements +
          (n - elements.length) * framedLength elemLength prototype.length := by
      rw [Field.length]
      rfl
    rw [hl, elementsLength_eq]
    simp [prefixLength, ListOf.sent, framedLengths_append, framedLengths_replicate]
  | remainder =>
    simp only [Field.length]
    exact hall.trans (Nat.zero_add _).symm
  | count p =>
    simp only [Field.length]
    exact congrArg (_ + ·) hall
  | length p =>
    simp only [Field.length]
    exact congrArg (fun n => (SizePolicy.length p).sizeLength n + n) hall

/-- A field is predicted exactly. -/
def Field.Measured (f : Field) : Prop := ∀ b, f.write = .ok b → b.length = f.length

theorem Written.length_eq {elemLength : Option IntField} {es : List (Field × Bytes)} {b : Bytes}
    (h : Written elemLength es b) (hes : ∀ e ∈ es, e.1.Measured) :
    b.length = framedLengths elemLength es := by
  induction h with
  | nil => rfl
  | @cons e c es bytes he _ ih =>
    obtain ⟨content, hw, hf⟩ := writeElement_inv he
    have hc : (content ++ e.2).length = e.1.length + e.2.length := by
      rw [List.length_append, hes e (.head _) content hw]
    have hframed : c.length = framedLength elemLength (e.1.length + e.2.length) := by
      cases elemLength with
      | none =>
        cases hf
        exact hc
      | some p =>
        obtain ⟨n, hn, rfl⟩ := frameElement_some hf
        rw [List.length_append, IntField.length_write hn, hc]
        rfl
    have ih := ih fun e he => hes e (.tail _ he)
    rw [List.length_append, hframed, ih, framedLengths]

theorem length_writePrefix {size : SizePolicy} {count length : Nat} {c : Bytes}
    (h : writePrefix size count length = .ok c) : c.length = prefixLength size count length := by
  cases size with
  | fixed n | remainder =>
    cases h
    rfl
  | count p | length p => exact IntField.length_write h

theorem ListOf.sent_measured {l : ListOf Field} (hp : l.prototype.Measured)
    (hes : ∀ e ∈ l.elements, e.1.Measured) : ∀ e ∈ l.sent, e.1.Measured := by
  intro e he
  unfold sent at he
  split at he
  · rcases List.mem_append.1 he with he | he
    · exact hes e (List.mem_of_mem_take he)
    · obtain ⟨-, rfl⟩ := List.mem_replicate.1 he
      exact hp
  · exact hes e he

/-! ## Members and alternatives -/

theorem length_writeMembers {ms : List (Member Field)} (h : ∀ m ∈ ms, m.field.Measured) {b : Bytes}
    (hw : writeMembers ms = .ok b) : b.length = membersLength ms := by
  induction ms generalizing b with
  | nil =>
    cases hw
    rfl
  | cons m ms ih =>
    obtain ⟨c, d, hc, hd, rfl⟩ := writeMembers_cons_inv hw
    rw [List.length_append, h m (.head _) c hc, ih (fun m hm => h m (.tail _ hm)) hd,
      membersLength]

theorem length_writeBundle {b : Bundle Field} (h : ∀ m ∈ b.members, m.field.Measured)
    {bytes : Bytes} (hw : writeBundle b = .ok bytes) : bytes.length = bundleLength b := by
  cases b with
  | plain ms =>
    rw [writeBundle] at hw
    exact length_writeMembers h hw
  | measured head name length tail trailing =>
    obtain ⟨c, n, d, hc, hn, hd, rfl⟩ := writeBundle_measured_inv hw
    have hhead := length_writeMembers (fun m hm => h m (List.mem_append_left _ hm)) hc
    have htail := length_writeMembers
      (fun m hm => h m (List.mem_append_right _ (.tail _ hm))) hd
    rw [List.length_append, List.length_append, IntField.length_write hn, List.length_append,
      hhead, htail, bundleLength]

theorem choiceLength_eq (cs : List (Choice Field)) (i : Nat) :
    choiceLength cs i = (cs[i]?).elim 0 fun c => bundleLength c.bundle := by
  induction cs generalizing i with
  | nil => rw [choiceLength]; rfl
  | cons c cs ih =>
    cases i with
    | zero => rw [choiceLength]; rfl
    | succ i => rw [choiceLength, ih, List.getElem?_cons_succ]

/-! ## Fields -/

/-- **The predicted length of a field is exact** in every state that can be written. -/
theorem Field.measured (f : Field) : f.Measured := by
  intro b h
  induction f generalizing b with
  | int f => exact IntField.length_write h
  | enumeration f => exact IntField.length_write h
  | bitmask f =>
    cases h
    exact Bytes.length_ofNat _ _ _
  | float f =>
    cases h
    exact Bytes.length_ofNat _ _ _
  | text f => exact ByteField.length_write h
  | bytes f => exact ByteField.length_write h
  | list l hp hes =>
    obtain ⟨c, bytes, hw, hc, rfl⟩ := write_list_ok h
    rw [length_list, List.length_append, length_writePrefix hc,
      hw.length_eq (ListOf.sent_measured hp hes)]
  | bitfield b =>
    cases h
    exact Bytes.length_ofNat _ _ _
  | bundle b ih =>
    rw [Field.write] at h
    exact length_writeBundle ih h
  | optional o ih _ =>
    rw [Field.write] at h
    rw [Field.length]
    split at h
    · rename_i hm
      rw [if_pos hm]
      exact ih b h
    · rename_i hm
      cases h
      rw [if_neg hm]
      rfl
  | variant v ih =>
    rw [Field.write, writeChoice_eq] at h
    rw [Field.length, choiceLength_eq]
    cases hc : v.alternatives[v.current]? with
    | none =>
      rw [hc] at h
      cases h
      rfl
    | some c =>
      rw [hc] at h
      exact length_writeBundle (ih c (List.mem_of_getElem? hc)) h
  | unknown data =>
    cases h
    rfl

theorem Field.length_write {f : Field} {b : Bytes} (h : f.write = .ok b) : b.length = f.length :=
  f.measured b h

theorem membersLength_write {ms : List (Member Field)} {b : Bytes} (h : writeMembers ms = .ok b) :
    b.length = membersLength ms :=
  length_writeMembers (fun m _ => m.field.measured) h

/-! ## Messages -/

/-- **The predicted length is exact**, of a field of any kind and of a message, in every state: the
one that it was built in and any that edits, refreshing and reading lead to, also a reading that
failed halfway. -/
theorem Message.length_exact :
    (∀ (f : Field) (b : Bytes), f.write = .ok b → b.length = f.length) ∧
      ∀ (m : Message) (b : Bytes), m.write = .ok b → b.length = m.length :=
  ⟨fun _ _ h => Field.length_write h, fun _ _ h => membersLength_write h⟩

/-- A list of two integers, each behind its length in a chain of at least two bytes, that holds
three elements, the first of them with bytes that it did not read. -/
def overfullList : Field :=
  .list {
    prototype := .int (.ofFormat ⟨.ofBytes 2, false, .big⟩)
    size := .fixed 2
    elemLength := some (.ofFormat ⟨.var 2 3 (by decide), false, .big⟩)
    elements := [(.int (.ofFormat ⟨.ofBytes 2, false, .big⟩), [7, 8]),
      (.int (.ofFormat ⟨.ofBytes 2, false, .big⟩), []),
      (.int (.ofFormat ⟨.ofBytes 2, false, .big⟩), [])] }

/-- The list sends its first two elements. The message is read once as a whole, an element leaving
a byte of its region, and once until the input ends inside the list. -/
theorem overfullList_length_exact :
    overfullList.write = .ok [0x80, 4, 0, 0, 7, 8, 0x80, 2, 0, 0] ∧
      10 = overfullList.length ∧
      (packedMessage.read [0xa5, 1, 3, 0, 7, 9]).value.write = .ok [0xa5, 1, 3, 0, 7, 9] ∧
      6 = (packedMessage.read [0xa5, 1, 3, 0, 7, 9]).value.length ∧
      (packedMessage.read [0xff, 2, 1]).error = some (.notEnoughData 1) ∧
      (packedMessage.read [0xff, 2, 1]).value.write = .ok [0xff, 0] ∧
      2 = (packedMessage.read [0xff, 2, 1]).value.length :=
  ⟨rfl, Message.length_exact.1 overfullList [0x80, 4, 0, 0, 7, 8, 0x80, 2, 0, 0] rfl, rfl,
    Message.length_exact.2 _ [0xa5, 1, 3, 0, 7, 9] rfl, rfl, rfl,
    Message.length_exact.2 _ [0xff, 0] rfl⟩

end WireProtocol
