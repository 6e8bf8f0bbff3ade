import WireProtocol.Frame.Write
import WireProtocol.Proofs.Frame.Messages

/-!
# Transport values reach the message

A message that was given transport values shows each of them (`Supplied.giveAll_shown`), unless two
have one name or two are the version. A frame then sends them for the message as they came
(`Supplied.Shown.fieldFor`).
-/

set_option autoImplicit false

namespace WireProtocol

/-! ## Members by name -/

theorem Member.find?_cons (name : String) (m : Member Field) (ms : List (Member Field)) :
    Member.find? name (m :: ms) = if m.name = name then some m.field else Member.find? name ms := by
  unfold find?
  by_cases h : m.name = name
  · rw [if_pos h, List.find?_cons_of_pos (by simpa using h), Option.map_some]
  · rw [if_neg h, List.find?_cons_of_neg (by simpa using h)]

theorem find?_putMember_self (name : String) (field : Field) (ms : List (Member Field)) :
    Member.find? name (Message.putMember name field ms) = some field := by
  induction ms with
  | nil => rw [Message.putMember, Member.find?_cons, if_pos rfl]
  | cons m ms ih =>
    rw [Message.putMember]
    by_cases hm : m.name = name
    · rw [if_pos (by simpa using hm), Member.find?_cons, if_pos hm]
    · rw [if_neg (by simpa using hm), Member.find?_cons, if_neg hm, ih]

theorem find?_putMember_ne {name other : String} (h : name ≠ other) (field : Field)
    (ms : List (Member Field)) :
    Member.find? name (Message.putMember other field ms) = Member.find? name ms := by
  induction ms with
  | nil => rw [Message.putMember, Member.find?_cons, if_neg h.symm]
  | cons m ms ih =>
    rw [Message.putMember]
    by_cases hm : m.name = other
    · have hn : m.name ≠ name := fun hn => h (hn.symm.trans hm)
      rw [if_pos (by simpa using hm), Member.find?_cons, Member.find?_cons, if_neg hn, if_neg hn]
    · rw [if_neg (by simpa using hm), Member.find?_cons, Member.find?_cons, ih]

/-! ## Values that do not replace each other -/

/-- The name of the value that the layer supplies, and whether it is the version. -/
def Layer.supplies? (l : Layer) : Option (String × Bool) :=
  match l.kind with
  | .transport _ version => some (l.name, version)
  | _ => none

/-- The two values have different names and are not both the version. -/
def Apart (a b : String × Bool) : Prop := a.1 ≠ b.1 ∧ ¬ (a.2 = true ∧ b.2 = true)

namespace Supplied

/-- The name of the value, and whether it is the version. -/
def key (s : Supplied) : String × Bool := (s.name, s.version)

/-- A value of a new name goes to the end. -/
theorem put_of_new {s : Supplied} {supplied : List Supplied}
    (h : ∀ t ∈ supplied, t.name ≠ s.name) : put s supplied = supplied ++ [s] := by
  induction supplied with
  | nil => rfl
  | cons t ts ih =>
    have ht := h t (.head _)
    rw [put, if_neg (by simpa using ht), ih fun t ht => h t (.tail _ ht), List.cons_append]

/-- The message shows the value: it has it under its name, and as its version if it is that. -/
structure Shown (s : Supplied) (m : Message) : Prop where
  field : m.transportField? s.name = some (.int s.field)
  version : s.version = true → m.versioned = true → m.version = s.field.value.toUInt64

theorem giveTo_shown (s : Supplied) (m : Message) : s.Shown (s.giveTo m) where
  field := by
    rw [giveTo_eq]
    exact find?_putMember_self s.name (.int s.field) m.transport
  version hs hm := by
    rw [giveTo_eq] at hm ⊢
    exact if_pos ⟨hs, hm⟩

theorem Shown.giveTo {s t : Supplied} {m : Message} (h : s.Shown m) (ha : Apart s.key t.key) :
    s.Shown (t.giveTo m) where
  field := by
    rw [giveTo_eq]
    exact (find?_putMember_ne ha.1 (.int t.field) m.transport).trans h.field
  version hs hm := by
    rw [giveTo_eq] at hm ⊢
    exact (if_neg fun ht => ha.2 ⟨hs, ht.1⟩).trans (h.version hs hm)

/-- **A message shows every value that it was given.** -/
theorem giveAll_shown {supplied : List Supplied} (ha : (supplied.map key).Pairwise Apart)
    {s : Supplied} (hs : s ∈ supplied) (m : Message) :
    s.Shown (supplied.foldl Supplied.giveTo m) := by
  have hkeep : ∀ (ts : List Supplied) (m : Message), (∀ t ∈ ts, Apart s.key t.key) → s.Shown m →
      s.Shown (ts.foldl Supplied.giveTo m) := by
    intro ts
    induction ts with
    | nil => exact fun m _ h => h
    | cons t ts ih =>
      intro m hts h
      exact ih _ (fun t ht => hts t (.tail _ ht)) (h.giveTo (hts t (.head _)))
  induction supplied generalizing m with
  | nil => cases hs
  | cons t ts ih =>
    obtain ⟨ht, hts⟩ := List.pairwise_cons.1 ha
    rcases List.mem_cons.1 hs with rfl | hs
    · exact hkeep ts _ (fun t h => ht _ (List.mem_map_of_mem h)) (giveTo_shown s m)
    · exact ih hts hs _

/-- Reading a message leaves what it shows. -/
theorem Shown.read {s : Supplied} {m x : Message} {src rest : Bytes} (h : s.Shown m)
    (hr : m.read src = .done x rest) : s.Shown x := by
  obtain rfl : (m.read src).value = x := by rw [hr]; rfl
  exact ⟨h.field, h.version⟩

/-- A value that a message shows is sent for it again. -/
theorem Shown.fieldFor {name : String} {field : IntField} {version : Bool} {v : Int64}
    {m : Message} (h : Shown ⟨name, field.withValue v, version⟩ m) :
    transportFieldFor name field version m = field.withValue v := by
  unfold transportFieldFor
  split
  · rename_i hv
    obtain ⟨hs, hm⟩ := Bool.and_eq_true_iff.1 hv
    rw [h.version hs hm]
    exact congrArg field.withValue (Int64.toInt64_toUInt64 v)
  · have hf : (m.transportField? name).bind (·.value.int?) = some v := by
      rw [h.field]
      rfl
    rw [hf]

end Supplied

end WireProtocol
