import WireProtocol.Frame.Read
import WireProtocol.Proofs.Field.Kind
import WireProtocol.Proofs.Field.Settled
import WireProtocol.Proofs.Frame.WellFormed

/-!
# The messages that frames carry

A property of messages that reading and transport values keep holds of every message read from a
frame if it holds of the types (`readLayers_carries`). Reading keeps the kinds of fields
(`Message.read_kinds`), so a frame without a size layer, whose messages have no opaque field, never
gives a message that looks like garbage (`readOne_ne_garbage`).
-/

set_option autoImplicit false

namespace WireProtocol

namespace LayerRead

/-- The message of the result, if there is one, has the property. -/
def Carries (P : Message → Prop) : LayerRead → Prop
  | .done m _ => ∀ x ∈ m, P x
  | .mismatch _ _ m _ => ∀ x ∈ m, P x
  | .failed _ => True

variable {P : Message → Prop} {r : LayerRead}

theorem Carries.seenFrom (h : r.Carries P) (src rest : Bytes) :
    (r.seenFrom src rest).Carries P := by
  cases r <;> exact h

theorem Carries.inRegion (h : r.Carries P) (len : Nat) : (r.inRegion len).Carries P := by
  cases r with
  | done m n => exact h
  | mismatch computed received m n => exact h
  | failed e => cases e <;> trivial

theorem carries_compare {computed received : UInt64} {m : Option Message} {consumed : Nat}
    (h : ∀ x ∈ m, P x) : (compare computed received m consumed).Carries P := by
  unfold compare
  split <;> exact h

end LayerRead

open LayerRead

section
variable {P : Message → Prop}

theorem withInt_carries {field : IntField} {src : Bytes} {next : IntField → Bytes → LayerRead}
    (h : ∀ f rest, (next f rest).Carries P) : (withInt field src next).Carries P := by
  unfold withInt
  dsimp only
  split
  · trivial
  · exact h _ _

theorem dispatch_carries {id : UInt64} {attempt : Message → LayerRead} {types : List Message}
    (h : ∀ m ∈ types, (attempt m).Carries P) : (dispatch id attempt types).Carries P := by
  induction types with
  | nil => trivial
  | cons m ms ih =>
    cases ms with
    | nil => exact h m (.head _)
    | cons m' ms =>
      unfold dispatch
      split
      · exact ih fun x hx => h x (.tail _ hx)
      · exact h m (.head _)

variable (hgive : ∀ m s, P m → P (Supplied.giveTo m s))
  (hread : ∀ (m : Message) src, P m → P (m.read src).value)
include hgive hread

theorem readPayload_carries (supplied : List Supplied) {message : Option Message}
    (hm : ∀ m ∈ message, P m) (src : Bytes) : (readPayload supplied message src).Carries P := by
  have hall : ∀ (m : Message), P m → P (supplied.foldl Supplied.giveTo m) := by
    induction supplied with
    | nil => exact fun m h => h
    | cons s ss ih => exact fun m h => ih _ (hgive m s h)
  unfold readPayload
  split
  · trivial
  · rename_i m
    dsimp only
    split
    · trivial
    · intro x hx
      cases hx
      exact hread _ _ (hall m (hm m rfl))

/-- **A property of all message types**, and of raw data where a size layer allows it, holds of
the message that the layers carry. -/
theorem readLayers_carries {registry : Registry} {sized : Bool}
    (hreg : ∀ m ∈ registry.prototypes, P m) (hraw : sized = true → ∀ id, P (.rawData id))
    (ls : List Layer) (supplied : List Supplied) {message : Option Message}
    (hm : ∀ m ∈ message, P m) (src : Bytes) :
    (readLayers registry sized ls supplied message src).Carries P := by
  induction ls generalizing supplied message src with
  | nil => exact hm
  | cons l ls ih =>
    obtain ⟨name, kind⟩ := l
    cases kind with
    | sync field =>
      simp only [readLayers]
      refine withInt_carries fun f rest => ?_
      split
      · exact (ih supplied hm rest).seenFrom _ _
      · trivial
    | size field max =>
      simp only [readLayers]
      refine withInt_carries fun f rest => ?_
      split
      · trivial
      split
      · trivial
      split
      · trivial
      · exact ((ih supplied hm _).inRegion _).seenFrom _ _
    | id field =>
      simp only [readLayers]
      split
      · trivial
      split
      · split
        · rename_i hs
          exact (ih supplied (by rintro _ ⟨⟩; exact hraw hs _) _).seenFrom _ _
        · trivial
      · refine Carries.seenFrom (dispatch_carries fun m hm => ?_) _ _
        exact ih supplied (by rintro _ ⟨⟩; exact hreg m (List.mem_filter.1 hm).1) _
    | transport field version =>
      simp only [readLayers]
      exact withInt_carries fun f rest => (ih _ hm rest).seenFrom _ _
    | payload =>
      simp only [readLayers]
      exact readPayload_carries hgive hread supplied hm src
    | checksum field algorithm placement =>
      cases placement with
      | after =>
        have h := ih supplied hm src
        simp only [readLayers]
        split
        · rename_i m n heq
          rw [heq] at h
          exact withInt_carries fun f rest => carries_compare h
        · exact h
      | before =>
        simp only [readLayers]
        refine withInt_carries fun f rest => ?_
        have h := ih supplied hm rest
        split
        · rename_i m n heq
          rw [heq] at h
          exact carries_compare h
        · exact h.seenFrom _ _

end

/-- The message of a frame, with a right or a wrong checksum, has the fields of what the layers
carry. -/
theorem readOne_fields {P : Message → Prop} {f : Frame} {src : Bytes} {m : Message} {n : Nat}
    (hc : (readLayers f.registry f.sized f.layers [] none src).Carries P)
    (hr : f.readOne src = .message m n ∨ f.readOne src = .checksumFailure m n) :
    ∃ x, P x ∧ m.fields = x.fields := by
  unfold Frame.readOne at hr
  rcases hr with hr | hr <;>
  · split at hr <;> cases hr
    rename_i heq
    rw [heq] at hc
    exact ⟨_, hc _ rfl, rfl⟩

/-! ## Transport values -/

/-- What a transport value changes in a message. -/
theorem Supplied.giveTo_eq (m : Message) (s : Supplied) : s.giveTo m =
    { m with
      transport := Message.putMember s.name (.int s.field) m.transport
      version := if s.version = true ∧ m.versioned = true then s.field.value.toUInt64
        else m.version } := by
  unfold giveTo Message.setVersion Message.setTransportField
  dsimp only
  by_cases hs : s.version = true
  · by_cases hm : m.versioned = true
    · rw [if_pos hs, if_pos hm, if_pos ⟨hs, hm⟩]
    · rw [if_pos hs, if_neg hm, if_neg fun h => hm h.2]
  · rw [if_neg hs, if_neg fun h => hs h.1]

theorem Supplied.giveTo_fields (m : Message) (s : Supplied) : (s.giveTo m).fields = m.fields := by
  rw [giveTo_eq]

theorem Supplied.giveAll_fields (supplied : List Supplied) (m : Message) :
    (supplied.foldl giveTo m).fields = m.fields := by
  induction supplied generalizing m with
  | nil => rfl
  | cons s ss ih => rw [List.foldl_cons, ih, giveTo_fields]

/-! ## Kinds of fields -/

/-- Reading keeps the kinds of the fields of a message. -/
theorem Message.read_kinds (m : Message) (src : Bytes) :
    (m.read src).value.fields.map (·.field.kind) = m.fields.map (·.field.kind) :=
  readFields_map Field.read_kind Field.inMode_kind m.rules m.version [] m.fields src

/-- A field that does not read to the end is not opaque. -/
theorem Field.kind_ne_unknown {f : Field} (h : f.readsToEnd = false) : f.kind ≠ .unknown := by
  cases f with
  | unknown data =>
    rw [Field.readsToEnd] at h
    cases h
  | _ =>
    intro hk
    cases hk

/-! ## Frames without a size layer -/

/-- No field is opaque. -/
def Message.Transparent (m : Message) : Prop := FieldKind.unknown ∉ m.fields.map (·.field.kind)

theorem Message.transparent_of_readsToEnd {m : Message} (h : m.readsToEnd = false) :
    m.Transparent := by
  intro hm
  obtain ⟨x, hx, hk⟩ := List.mem_map.1 hm
  exact Field.kind_ne_unknown (membersReadToEnd_eq_false.1 h x hx) hk

/-- **Without a size layer no message looks like garbage**, not even one with a wrong checksum. -/
theorem readOne_ne_garbage {f : Frame} (h : f.sized = false) {src : Bytes} {m : Message} {n : Nat}
    (hr : f.readOne src = .message m n ∨ f.readOne src = .checksumFailure m n) (bs : Bytes) :
    m ≠ .invalid .garbage bs := by
  have hc : (readLayers f.registry f.sized f.layers [] none src).Carries Message.Transparent := by
    refine readLayers_carries (fun m s hm => ?_) (fun m src hm => ?_) (fun m hm => ?_) ?_
      _ _ nofun _
    · unfold Message.Transparent
      rw [Supplied.giveTo_fields]
      exact hm
    · unfold Message.Transparent
      rw [Message.read_kinds]
      exact hm
    · exact Message.transparent_of_readsToEnd (f.messages_bounded h m hm)
    · intro hs
      rw [h] at hs
      cases hs
  obtain ⟨x, hx, hf⟩ := readOne_fields hc hr
  rintro rfl
  unfold Message.Transparent at hx
  rw [← hf] at hx
  exact hx (List.mem_singleton_self _)

end WireProtocol
