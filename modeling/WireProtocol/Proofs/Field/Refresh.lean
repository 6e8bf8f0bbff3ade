import WireProtocol.Field.Refresh
import WireProtocol.Proofs.Field.Induction

/-!
# Refreshing settles derived values

A field is fresh if refreshing it changes nothing. In a fresh field the length member of every
bundle that is sent holds the count of the bytes behind it (`Field.Fresh.measured`), and refreshing
any field makes it fresh (`Field.refresh_fresh`).
-/

set_option autoImplicit false

namespace WireProtocol

/-! ## The parts -/

section

-- the equations of all parts are made here once: they are slow, and every proof below needs them
attribute [local simp] refreshMembers refreshElements refreshChoice refreshBundle Field.refresh

theorem refreshMembers_eq (ms : List (Member Field)) :
    refreshMembers ms =
      (ms.map fun m => { m with field := m.field.refresh.1 }, ms.any fun m => m.field.refresh.2) := by
  induction ms with
  | nil => rfl
  | cons m ms ih =>
    obtain ⟨name, field⟩ := m
    simp [ih]

theorem refreshElements_eq (before es : List (Field × Bytes)) (changed : Bool) :
    refreshElements before changed es =
      (before.reverse ++ es.map fun e => (e.1.refresh.1, e.2),
        changed || es.any fun e => e.1.refresh.2) := by
  induction es generalizing before changed with
  | nil => simp
  | cons e es ih =>
    obtain ⟨field, rest⟩ := e
    simp [ih, Bool.or_assoc]

theorem refreshChoice_eq (cs : List (Choice Field)) (i : Nat) :
    refreshChoice cs i =
      (cs.modify i fun c => { c with bundle := (refreshBundle c.bundle).1 },
        (cs[i]?).any fun c => (refreshBundle c.bundle).2) := by
  induction cs generalizing i with
  | nil => simp
  | cons c cs ih =>
    cases i with
    | zero => rfl
    | succ i => simp [ih, onFirst]

end

/-! ## Fresh fields -/

/-- Refreshing the field changes nothing. -/
def Field.Fresh (f : Field) : Prop := f.refresh.2 = false

/-- Refreshing the bundle changes nothing. -/
def Bundle.Fresh (b : Bundle Field) : Prop := (refreshBundle b).2 = false

theorem refreshMembers_fresh {ms : List (Member Field)} :
    (refreshMembers ms).2 = false ↔ ∀ m ∈ ms, m.field.Fresh := by
  rw [refreshMembers_eq]
  simp [Field.Fresh]

theorem Field.fresh_list {l : ListOf Field} :
    (Field.list l).Fresh ↔ ∀ e ∈ l.elements, e.1.Fresh := by
  obtain ⟨prototype, size, elemLength, elements⟩ := l
  simp [Fresh, refresh, refreshElements_eq, onFirst]

theorem Field.fresh_bundle {b : Bundle Field} : (Field.bundle b).Fresh ↔ b.Fresh := by
  simp only [Fresh, refresh, onFirst, Bundle.Fresh]

theorem Field.fresh_optional {o : Optional Field} :
    (Field.optional o).Fresh ↔ (o.mode = .present → o.inner.Fresh) := by
  obtain ⟨inner, default, mode⟩ := o
  cases mode <;> simp [Fresh, refresh, onFirst]

theorem Field.fresh_variant {v : Variant Field} :
    (Field.variant v).Fresh ↔ ∀ c, v.current? = some c → c.bundle.Fresh := by
  obtain ⟨alternatives, current⟩ := v
  simp only [Fresh, refresh, refreshChoice_eq, onFirst, Variant.current?, Bundle.Fresh]
  cases alternatives[current]? <;> simp

theorem Bundle.fresh_plain {ms : List (Member Field)} :
    (Bundle.plain ms).Fresh ↔ ∀ m ∈ ms, m.field.Fresh := by
  rw [← refreshMembers_fresh]
  simp only [Fresh, refreshBundle, onFirst]

/-- The length is checked against members that are refreshed themselves. -/
theorem Bundle.fresh_measured {head tail : List (Member Field)} {name : String}
    {length : IntField} {trailing : Bytes} :
    (Bundle.measured head name length tail trailing).Fresh ↔
      (∀ m ∈ head, m.field.Fresh) ∧ (∀ m ∈ tail, m.field.Fresh) ∧
        length.value =
          Int64.ofNat (membersLength (refreshMembers tail).1 + trailing.length) := by
  rw [← refreshMembers_fresh, ← refreshMembers_fresh]
  simp only [Fresh, refreshBundle, IntField.refreshed]
  generalize membersLength (refreshMembers tail).1 + trailing.length = n
  split <;> simp_all

theorem Bundle.Fresh.member {b : Bundle Field} (h : b.Fresh) : ∀ m ∈ b.members, m.field.Fresh := by
  cases b with
  | plain ms => exact fresh_plain.1 h
  | measured head name length tail trailing =>
    obtain ⟨hh, ht, -⟩ := fresh_measured.1 h
    intro m hm
    rcases List.mem_append.1 hm with hm | hm
    · exact hh m hm
    · rcases List.mem_cons.1 hm with rfl | hm
      · rfl
      · exact ht m hm

/-! ## A fresh field stays as it is -/

theorem refreshMembers_of_eq {ms : List (Member Field)}
    (h : ∀ m ∈ ms, m.field.refresh.1 = m.field) : (refreshMembers ms).1 = ms := by
  have hid : ∀ m ∈ ms, { m with field := m.field.refresh.1 } = m := fun m hm => by rw [h m hm]
  rw [refreshMembers_eq]
  exact (List.map_congr_left hid).trans (List.map_id' ms)

theorem Bundle.Fresh.refresh_eq {b : Bundle Field} (hb : b.Fresh)
    (h : ∀ m ∈ b.members, m.field.refresh.1 = m.field) : (refreshBundle b).1 = b := by
  cases b with
  | plain ms =>
    have hms : (refreshMembers ms).1 = ms := refreshMembers_of_eq h
    simp only [refreshBundle, onFirst, hms]
  | measured head name length tail trailing =>
    obtain ⟨-, -, hl⟩ := fresh_measured.1 hb
    have hhead := refreshMembers_of_eq fun m hm => h m (List.mem_append_left _ hm)
    have htail := refreshMembers_of_eq fun m hm => h m (List.mem_append_right _ (.tail _ hm))
    rw [htail] at hl
    simp only [refreshBundle, IntField.refreshed, hhead, htail, if_pos hl]

/-- **A fresh field stays as it is.** -/
theorem Field.Fresh.refresh_eq {f : Field} (h : f.Fresh) : f.refresh.1 = f := by
  induction f with
  | list l _ ih =>
    have hes : ∀ e ∈ l.elements, (e.1.refresh.1, e.2) = e := fun e he => by
      rw [ih e he (fresh_list.1 h e he)]
    obtain ⟨prototype, size, elemLength, elements⟩ := l
    simp only [refresh, refreshElements_eq, onFirst, List.reverse_nil, List.nil_append]
    rw [(List.map_congr_left hes).trans (List.map_id' elements)]
  | bundle b ih =>
    have hb := fresh_bundle.1 h
    simp only [refresh, onFirst, hb.refresh_eq fun m hm => ih m hm (hb.member m hm)]
  | optional o ih _ =>
    have ho := fresh_optional.1 h
    obtain ⟨inner, default, mode⟩ := o
    cases mode with
    | present =>
      have hi : inner.refresh.1 = inner := ih (ho rfl)
      simp [refresh, onFirst, hi]
    | missing => rfl
    | tentative => rfl
  | variant v ih =>
    have hv := fresh_variant.1 h
    obtain ⟨alternatives, current⟩ := v
    simp only [refresh, refreshChoice_eq, onFirst]
    congr 2
    refine List.ext_getElem? fun i => ?_
    rw [List.getElem?_modify]
    split
    · subst current
      cases hc : alternatives[i]? with
      | none => rfl
      | some c =>
        have hb := hv c hc
        have hm := ih c (List.mem_of_getElem? hc)
        show some { c with bundle := (refreshBundle c.bundle).1 } = some c
        rw [hb.refresh_eq fun m hmem => hm m hmem (hb.member m hmem)]
    · simp
  | _ => rfl

/-- The length member of a fresh bundle holds the count of the bytes behind it. -/
theorem Bundle.Fresh.measured {head tail : List (Member Field)} {name : String}
    {length : IntField} {trailing : Bytes}
    (h : (Bundle.measured head name length tail trailing).Fresh) :
    length.value = Int64.ofNat (membersLength tail + trailing.length) := by
  obtain ⟨-, ht, hl⟩ := fresh_measured.1 h
  rwa [refreshMembers_of_eq fun m hm => (ht m hm).refresh_eq] at hl

/-! ## Refreshing makes fresh -/

theorem IntField.refreshed_eq (f : IntField) (count : Nat) :
    (f.refreshed count).1 = f.withCount count := by
  unfold refreshed
  split
  · rename_i h
    rw [withCount, ← h]
  · rfl

theorem refreshMembers_member {ms : List (Member Field)}
    (h : ∀ m ∈ ms, m.field.refresh.1.Fresh) : ∀ m ∈ (refreshMembers ms).1, m.field.Fresh := by
  rw [refreshMembers_eq]
  intro m hm
  obtain ⟨m, hms, rfl⟩ := List.mem_map.1 hm
  exact h m hms

theorem refreshBundle_fresh {b : Bundle Field} (h : ∀ m ∈ b.members, m.field.refresh.1.Fresh) :
    (refreshBundle b).1.Fresh := by
  cases b with
  | plain ms => exact Bundle.fresh_plain.2 (refreshMembers_member h)
  | measured head name length tail trailing =>
    have hhead := refreshMembers_member fun m hm => h m (List.mem_append_left _ hm)
    have htail := refreshMembers_member fun m hm => h m (List.mem_append_right _ (.tail _ hm))
    refine Bundle.fresh_measured.2 ⟨hhead, htail, ?_⟩
    rw [refreshMembers_of_eq fun m hm => (htail m hm).refresh_eq, IntField.refreshed_eq]
    rfl

/-- **Refreshing a field makes it fresh.** -/
theorem Field.refresh_fresh (f : Field) : f.refresh.1.Fresh := by
  induction f with
  | list l _ ih =>
    obtain ⟨prototype, size, elemLength, elements⟩ := l
    simp only [refresh, refreshElements_eq, onFirst, List.reverse_nil, List.nil_append]
    refine fresh_list.2 fun e he => ?_
    obtain ⟨e, hes, rfl⟩ := List.mem_map.1 he
    exact ih e hes
  | bundle b ih => exact fresh_bundle.2 (refreshBundle_fresh ih)
  | optional o ih _ =>
    obtain ⟨inner, default, mode⟩ := o
    cases mode with
    | present => exact fresh_optional.2 fun _ => ih
    | missing => rfl
    | tentative => rfl
  | variant v ih =>
    obtain ⟨alternatives, current⟩ := v
    simp only [refresh, refreshChoice_eq, onFirst]
    refine fresh_variant.2 fun c hc => ?_
    rw [Variant.current?, List.getElem?_modify_eq] at hc
    obtain ⟨c, hi, rfl⟩ := Option.map_eq_some_iff.1 hc
    exact refreshBundle_fresh (ih c (List.mem_of_getElem? hi))
  | _ => rfl

end WireProtocol
