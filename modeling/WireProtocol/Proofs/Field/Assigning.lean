import WireProtocol.Field.View
import WireProtocol.Proofs.Field.Kind

/-!
# Assigning part by part

A bundle and a bitfield take a bundle value in the same way: each item goes to the first member of
its name, up to the first item that does not fit. `Field.assignNamed` does so with the members in
order, whatever they are held in, and assigning to the field is that (`Field.assign_named`). An
optional field hands on all but an absent value (`Field.assign_optional`), and a variant what is
meant for its alternative (`Field.assign_variant`).
-/

set_option autoImplicit false

namespace WireProtocol

/-! ## Named members -/

/-- A member of a bitfield as a member of a bundle. -/
def BitMember.toMember (m : BitMember) : Member Field := ⟨m.name, m.field.toField⟩

/-- The members that the items of a bundle value are assigned to, in order. -/
def Field.namedMembers? : Field → Option (List (Member Field))
  | .bundle b => some b.members
  | .bitfield b => some (b.members.map BitMember.toMember)
  | _ => none

/-- A member as it is shown in the value of the whole. -/
def Member.item (m : Member Field) : String × Value := (m.name, m.field.value)

theorem memberValues_eq (ms : List (Member Field)) : memberValues ms = ms.map Member.item := by
  induction ms with
  | nil => rw [memberValues]; rfl
  | cons m ms ih => rw [memberValues, ih]; rfl

theorem Packable.toField_value (p : Packable) : p.toField.value = p.value := by
  cases p <;> rfl

theorem Field.value_named {f : Field} {ms : List (Member Field)} (h : f.namedMembers? = some ms) :
    f.value = .bundle (ms.map Member.item) := by
  cases f with
  | bundle b =>
    cases h
    cases b with
    | plain ms => simp only [value, bundleValues, memberValues_eq, Bundle.members]
    | measured head name length tail trailing =>
      simp only [value, bundleValues, memberValues_eq, Bundle.members, List.map_append,
        List.map_cons]
      rfl
  | bitfield b =>
    cases h
    simp only [value, List.map_map]
    congr 1
    refine List.map_congr_left fun m _ => ?_
    simp [Member.item, BitMember.toMember, Packable.toField_value]
  | _ => cases h

/-- Assigns to members by name, up to the first item without a member or that its member refuses. -/
def Field.assignNamed : List (String × Value) → List (Member Field) → List (Member Field) × Bool
  | [], ms => (ms, true)
  | (name, v) :: items, ms =>
    match Member.modifyFirst? name (fun f => some (Field.assign v f)) ms with
    | none => (ms, false)
    | some (ms, true) => Field.assignNamed items ms
    | some (ms, false) => (ms, false)

theorem Member.modifyFirst?_append {φ ρ : Type} (name : String) (g : φ → Option (φ × ρ))
    (as bs : List (Member φ)) :
    modifyFirst? name g (as ++ bs) =
      if as.any (·.name == name) then (modifyFirst? name g as).map fun r => (r.1 ++ bs, r.2)
      else (modifyFirst? name g bs).map fun r => (as ++ r.1, r.2) := by
  induction as with
  | nil => simp
  | cons a as ih =>
    simp only [List.cons_append, modifyFirst?, List.any_cons]
    by_cases ha : (a.name == name) = true
    · simp [ha, Function.comp_def]
    · rw [if_neg ha, ih]
      simp only [ha, Bool.false_or]
      split <;> simp [Function.comp_def]

theorem Member.forall_name_ne {φ : Type} {name : String} {as : List (Member φ)}
    (h : name ∉ as.map (·.name)) : ∀ a ∈ as, ¬(a.name == name) = true := by
  rintro a ha heq
  exact h (beq_iff_eq.1 heq ▸ List.mem_map_of_mem ha)

/-- Members of other names in front are passed over. -/
theorem Member.modifyFirst?_skip {φ ρ : Type} {name : String} (g : φ → Option (φ × ρ))
    {as : List (Member φ)} (h : name ∉ as.map (·.name)) (m : Member φ) (bs : List (Member φ))
    (hm : m.name = name) :
    modifyFirst? name g (as ++ m :: bs) =
      (g m.field).map fun r => (as ++ { m with field := r.1 } :: bs, r.2) := by
  have hany : as.any (·.name == name) = false := List.any_eq_false.2 (forall_name_ne h)
  rw [modifyFirst?_append, hany, modifyFirst?]
  simp [hm, Function.comp_def]

theorem Member.length_modifyFirst? {φ ρ : Type} {name : String} {g : φ → Option (φ × ρ)}
    {ms ms' : List (Member φ)} {r : ρ} (h : modifyFirst? name g ms = some (ms', r)) :
    ms'.length = ms.length := by
  induction ms generalizing ms' with
  | nil => cases h
  | cons m ms ih =>
    rw [modifyFirst?] at h
    split at h
    · obtain ⟨_, -, heq⟩ := Option.map_eq_some_iff.1 h
      cases heq
      rfl
    · obtain ⟨⟨new, _⟩, hnew, heq⟩ := Option.map_eq_some_iff.1 h
      cases heq
      rw [List.length_cons, List.length_cons, ih hnew]

/-! ## Members as they are held -/

section
variable {change : Field → Field × Bool} (hk : ∀ f, (change f).1.kind = f.kind)
include hk

/-- A change that keeps the kind of a field changes an integer into an integer. -/
theorem IntField.modify_eq (f : IntField) :
    ∃ f', f.modify (fun f => some (change f)) = some (f', (change (.int f)).2) ∧
      (change (.int f)).1 = .int f' := by
  have hkind := hk (.int f)
  unfold modify
  cases hc : change (.int f) with
  | mk new r =>
    rw [hc] at hkind
    cases new with
    | int f' => exact ⟨f', by simp [hc], rfl⟩
    | _ => cases hkind

theorem Bundle.modify_eq (b : Bundle Field) :
    ∃ b', b.modify (fun f => some (change f)) = some (b', (change (.bundle b)).2) ∧
      (change (.bundle b)).1 = .bundle b' := by
  have hkind := hk (.bundle b)
  unfold modify
  cases hc : change (.bundle b) with
  | mk new r =>
    rw [hc] at hkind
    cases new with
    | bundle b' => exact ⟨b', by simp [hc], rfl⟩
    | _ => cases hkind

theorem Packable.change_eq (p : Packable) :
    ∃ q : Packable, (change p.toField).1 = q.toField ∧
      (change p.toField).1.packable?.getD p = q := by
  have hkind := hk p.toField
  cases hc : change p.toField with
  | mk new r =>
    rw [hc] at hkind
    cases p with
    | int f =>
      cases new with
      | int f' => exact ⟨.int f', rfl, rfl⟩
      | _ => cases hkind
    | enumeration f =>
      cases new with
      | enumeration f' => exact ⟨.enumeration f', rfl, rfl⟩
      | _ => cases hkind
    | bitmask f =>
      cases new with
      | bitmask f' => exact ⟨.bitmask f', rfl, rfl⟩
      | _ => cases hkind

theorem Bundle.modifyFirst?_members (name : String) (b : Bundle Field) :
    (b.modifyFirst? name fun f => some (change f)).map (fun r => (r.1.members, r.2)) =
      Member.modifyFirst? name (fun f => some (change f)) b.members := by
  cases b with
  | plain ms =>
    rw [modifyFirst?, members]
    cases Member.modifyFirst? name (fun f => some (change f)) ms <;> rfl
  | measured head lengthName length tail trailing =>
    obtain ⟨length', hmodify, hchange⟩ := IntField.modify_eq hk length
    rw [modifyFirst?, members, Member.modifyFirst?_append]
    split
    · simp [members, Function.comp_def]
    · rw [Member.modifyFirst?]
      split
      · simp [hmodify, hchange, members]
      · simp [members, Function.comp_def]

theorem BitMember.modifyFirst?_toMember (name : String) (ms : List BitMember) :
    (modifyFirst? name (fun f => some (change f)) ms).map
        (fun r => (r.1.map toMember, r.2)) =
      Member.modifyFirst? name (fun f => some (change f)) (ms.map toMember) := by
  induction ms with
  | nil => rfl
  | cons m ms ih =>
    rw [List.map_cons, modifyFirst?, Member.modifyFirst?, ← ih]
    by_cases hm : (m.name == name) = true
    · obtain ⟨q, hq, hp⟩ := Packable.change_eq hk m.field
      have hm' : (m.toMember.name == name) = true := hm
      rw [if_pos hm, if_pos hm']
      simp only [Option.map_some, hp, List.map_cons]
      simp only [toMember, hq]
    · have hm' : ¬ (m.toMember.name == name) = true := hm
      rw [if_neg hm, if_neg hm', Option.map_map, Option.map_map]
      rfl

theorem Choice.modifyAt?_eq {cs : List (Choice Field)} {i : Nat} {c : Choice Field}
    (hc : cs[i]? = some c) :
    ∃ b, (change (.bundle c.bundle)).1 = .bundle b ∧
      modifyAt? (fun f => some (change f)) i cs =
        some (cs.set i { c with bundle := b }, (change (.bundle c.bundle)).2) := by
  induction cs generalizing i with
  | nil => cases hc
  | cons a cs ih =>
    cases i with
    | zero =>
      cases hc
      obtain ⟨b, hmodify, hb⟩ := Bundle.modify_eq hk c.bundle
      exact ⟨b, hb, by rw [modifyAt?, hmodify]; rfl⟩
    | succ i =>
      obtain ⟨b, hb, hmodify⟩ := ih hc
      exact ⟨b, hb, by rw [modifyAt?, hmodify]; rfl⟩

end

/-- A bundle is its members, where its length stands among them, and what trails. -/
theorem Bundle.ext_members {b b' : Bundle Field} (hm : b'.members = b.members)
    (hi : b'.lengthIndex? = b.lengthIndex?) (ht : b'.trailing = b.trailing) : b' = b := by
  cases b with
  | plain ms =>
    cases b' with
    | plain ms' => exact congrArg Bundle.plain hm
    | measured => cases hi
  | measured head name length tail trailing =>
    cases b' with
    | plain ms' => cases hi
    | measured head' name' length' tail' trailing' =>
      obtain ⟨hhead, hrest⟩ := List.append_inj hm (Option.some.inj hi)
      cases hhead
      cases hrest
      cases ht
      rfl

theorem Bundle.modifyFirst?_frame {ρ : Type} {name : String} {g : Field → Option (Field × ρ)}
    {b b' : Bundle Field} {r : ρ} (h : b.modifyFirst? name g = some (b', r)) :
    b'.lengthIndex? = b.lengthIndex? ∧ b'.trailing = b.trailing := by
  cases b with
  | plain ms =>
    obtain ⟨_, -, heq⟩ := Option.map_eq_some_iff.1 h
    cases heq
    exact ⟨rfl, rfl⟩
  | measured head lengthName length tail trailing =>
    rw [modifyFirst?] at h
    split at h
    · obtain ⟨⟨new, _⟩, hnew, heq⟩ := Option.map_eq_some_iff.1 h
      cases heq
      exact ⟨congrArg some (Member.length_modifyFirst? hnew), rfl⟩
    · split at h
      all_goals
        obtain ⟨_, -, heq⟩ := Option.map_eq_some_iff.1 h
        cases heq
        exact ⟨rfl, rfl⟩

theorem BitMember.modifyFirst?_bits {ρ : Type} {name : String} {g : Field → Option (Field × ρ)}
    {ms ms' : List BitMember} {r : ρ} (h : modifyFirst? name g ms = some (ms', r)) :
    ms'.map (·.bits) = ms.map (·.bits) := by
  induction ms generalizing ms' with
  | nil => cases h
  | cons m ms ih =>
    rw [modifyFirst?] at h
    split at h
    · obtain ⟨_, -, heq⟩ := Option.map_eq_some_iff.1 h
      cases heq
      rfl
    · obtain ⟨⟨new, _⟩, hnew, heq⟩ := Option.map_eq_some_iff.1 h
      cases heq
      rw [List.map_cons, List.map_cons, ih hnew]

theorem Packable.toField_injective {p q : Packable} (h : p.toField = q.toField) : p = q := by
  cases p <;> cases q <;> cases h <;> rfl

theorem BitMember.ext_toMember {ms ms' : List BitMember} (hm : ms'.map toMember = ms.map toMember)
    (hb : ms'.map (·.bits) = ms.map (·.bits)) : ms' = ms := by
  induction ms generalizing ms' with
  | nil => exact List.map_eq_nil_iff.1 hm
  | cons m ms ih =>
    cases ms' with
    | nil => cases hm
    | cons m' ms' =>
      obtain ⟨name, bits, field⟩ := m
      obtain ⟨name', bits', field'⟩ := m'
      simp only [List.map_cons, List.cons.injEq, toMember, Member.mk.injEq] at hm hb
      obtain ⟨⟨rfl, hfield⟩, hm⟩ := hm
      obtain ⟨rfl, hb⟩ := hb
      rw [Packable.toField_injective hfield, ih hm hb]

theorem assignMembers_named (items : List (String × Value)) (b : Bundle Field) :
    ((assignMembers items b).1.members, (assignMembers items b).2) =
        Field.assignNamed items b.members ∧
      (assignMembers items b).1.lengthIndex? = b.lengthIndex? ∧
      (assignMembers items b).1.trailing = b.trailing := by
  induction items generalizing b with
  | nil =>
    rw [assignMembers]
    exact ⟨rfl, rfl, rfl⟩
  | cons item items ih =>
    obtain ⟨name, v⟩ := item
    have hmembers := Bundle.modifyFirst?_members (Field.assign_kind v) name b
    rw [assignMembers, Field.assignNamed, ← hmembers]
    cases hmodify : b.modifyFirst? name fun f => some (f.assign v) with
    | none => exact ⟨rfl, rfl, rfl⟩
    | some r =>
      obtain ⟨b', done⟩ := r
      obtain ⟨hindex, htrailing⟩ := Bundle.modifyFirst?_frame hmodify
      cases done with
      | false => exact ⟨rfl, hindex, htrailing⟩
      | true =>
        obtain ⟨hm, hi, ht⟩ := ih b'
        exact ⟨hm, hi.trans hindex, ht.trans htrailing⟩

theorem assignBitMembers_named (items : List (String × Value)) (ms : List BitMember) :
    ((assignBitMembers items ms).1.map BitMember.toMember, (assignBitMembers items ms).2) =
        Field.assignNamed items (ms.map BitMember.toMember) ∧
      (assignBitMembers items ms).1.map (·.bits) = ms.map (·.bits) := by
  induction items generalizing ms with
  | nil =>
    rw [assignBitMembers]
    exact ⟨rfl, rfl⟩
  | cons item items ih =>
    obtain ⟨name, v⟩ := item
    have hmembers := BitMember.modifyFirst?_toMember (Field.assign_kind v) name ms
    rw [assignBitMembers, Field.assignNamed, ← hmembers]
    cases hmodify : BitMember.modifyFirst? name (fun f => some (f.assign v)) ms with
    | none => exact ⟨rfl, rfl⟩
    | some r =>
      obtain ⟨ms', done⟩ := r
      have hbits := BitMember.modifyFirst?_bits hmodify
      cases done with
      | false => exact ⟨rfl, hbits⟩
      | true =>
        obtain ⟨hm, hb⟩ := ih ms'
        exact ⟨hm, hb.trans hbits⟩

/-! ## Fields -/

namespace Field

/-- **Items go to the members in order**, in a bundle and in a bitfield alike, and nothing else of
the field changes. -/
theorem assign_named {f : Field} {ms : List (Member Field)} (h : f.namedMembers? = some ms)
    (items : List (String × Value)) :
    (f.assign (.bundle items)).1.namedMembers? = some (assignNamed items ms).1 ∧
      (f.assign (.bundle items)).2 = (assignNamed items ms).2 ∧
      ((assignNamed items ms).1 = ms → (f.assign (.bundle items)).1 = f) := by
  cases f with
  | bundle b =>
    cases h
    have hassign : (Field.bundle b).assign (.bundle items) =
      (.bundle (assignMembers items b).1, (assignMembers items b).2) := by simp only [assign]; rfl
    obtain ⟨hm, hi, ht⟩ := assignMembers_named items b
    rw [hassign, ← hm]
    exact ⟨rfl, rfl, fun heq => congrArg Field.bundle (Bundle.ext_members heq hi ht)⟩
  | bitfield b =>
    cases h
    have hassign : (Field.bitfield b).assign (.bundle items) =
      (.bitfield { b with members := (assignBitMembers items b.members).1 },
        (assignBitMembers items b.members).2) := by simp only [assign]; rfl
    obtain ⟨hm, hb⟩ := assignBitMembers_named items b.members
    rw [hassign, ← hm]
    exact ⟨rfl, rfl, fun heq => by simp only [BitMember.ext_toMember heq hb]⟩
  | _ => cases h

/-- An optional field hands on all but an absent value, and is there from then on. -/
theorem assign_optional (o : Optional Field) {v : Value} (hv : v ≠ .missing) :
    (Field.optional o).assign v =
      (.optional ⟨(o.inner.assign v).1, o.default, .present⟩, (o.inner.assign v).2) := by
  cases v with
  | missing => exact absurd rfl hv
  | _ => simp only [assign, assignInside]

theorem assign_optional_missing (o : Optional Field) :
    (Field.optional o).assign .missing = (.optional { o with mode := .missing }, true) := by
  rw [assign]

/-- The first alternative of the name is chosen, and its bundle takes the inner value. -/
theorem assign_variant (v : Variant Field) {name : String} {i : Nat} {c : Choice Field}
    (hi : v.alternatives.findIdx? (·.name == name) = some i) (hc : v.alternatives[i]? = some c)
    (inner : Value) :
    ∃ b, ((Field.bundle c.bundle).assign inner).1 = .bundle b ∧
      (Field.variant v).assign (.variant name inner) =
        (.variant ⟨v.alternatives.set i { c with bundle := b }, i⟩,
          ((Field.bundle c.bundle).assign inner).2) := by
  obtain ⟨b, hb, hmodify⟩ := Choice.modifyAt?_eq (Field.assign_kind inner) hc
  refine ⟨b, hb, ?_⟩
  have hlt : i < v.alternatives.length := (List.getElem?_eq_some_iff.1 hc).1
  simp only [assign, assignInside, Variant.selectWhere, hi, Variant.select, if_pos hlt, hmodify]
  rfl

theorem assign_variant_unnamed (v : Variant Field) {name : String}
    (hi : v.alternatives.findIdx? (·.name == name) = none) (inner : Value) :
    (Field.variant v).assign (.variant name inner) = (.variant v, false) := by
  simp [assign, assignInside, Variant.selectWhere, hi]

end Field

end WireProtocol
