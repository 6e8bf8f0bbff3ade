import WireProtocol.Proofs.Field.Assigning
import WireProtocol.Proofs.Field.Induction
import WireProtocol.Proofs.Field.RoundTrip

/-!
# Rejected assignments

An assignment that is rejected is not taken back: items in front of the one that does not fit have
reached their members, an optional field is there, and a variant has changed its alternative.
`Field.Declines` says of a value that the field refuses it before anything has changed. Then the
field is as it was, and for values that name no member twice this is the only way for a rejected
assignment to leave it so (`Field.assign_rejected`). A value that the field does not take apart, such
as all items of a list together, is assigned as a whole or not at all (`Field.assign_whole`).
-/

set_option autoImplicit false

namespace WireProtocol

/-! ## Members by name -/

section
variable {φ : Type} {name : String} {as bs ms : List (Member φ)}

theorem Member.find?_eq_some {f : φ} (h : find? name ms = some f) :
    ∃ as bs, ms = as ++ ⟨name, f⟩ :: bs ∧ name ∉ as.map (·.name) := by
  obtain ⟨m, hfind, rfl⟩ := Option.map_eq_some_iff.1 h
  obtain ⟨hname, as, bs, rfl, has⟩ := List.find?_eq_some_iff_append.1 hfind
  obtain rfl : m.name = name := beq_iff_eq.1 hname
  refine ⟨as, bs, rfl, fun hmem => ?_⟩
  obtain ⟨a, ha, heq⟩ := List.mem_map.1 hmem
  simpa [heq] using has a ha

theorem Member.find?_middle (f : φ) (h : name ∉ as.map (·.name)) :
    find? name (as ++ ⟨name, f⟩ :: bs) = some f := by
  have has : as.find? (·.name == name) = none := List.find?_eq_none.2 (forall_name_ne h)
  simp [find?, List.find?_append, has]

/-- Members of other names are found whatever the field in between. -/
theorem Member.find?_middle_ne {other : String} (hne : name ≠ other) (f g : φ)
    (as bs : List (Member φ)) :
    find? other (as ++ ⟨name, f⟩ :: bs) = find? other (as ++ ⟨name, g⟩ :: bs) := by
  have hbeq : (name == other) = false := beq_eq_false_iff_ne.2 hne
  simp [find?, List.find?_append, hbeq]

theorem Member.modifyFirst?_eq_none {ρ : Type} {g : φ → Option (φ × ρ)}
    (h : find? name ms = none) : modifyFirst? name g ms = none := by
  induction ms with
  | nil => rfl
  | cons m ms ih =>
    simp only [find?, Option.map_eq_none_iff, List.find?_eq_none] at h ih
    rw [modifyFirst?, if_neg (h m (.head _)), ih fun m hm => h m (.tail _ hm)]
    rfl

end

/-! ## Up to the first item that does not fit -/

namespace Field

section
variable {name : String} {v : Value} {items : List (String × Value)}
variable {ms : List (Member Field)}

theorem assignNamed_unnamed (h : Member.find? name ms = none) :
    assignNamed ((name, v) :: items) ms = (ms, false) := by
  rw [assignNamed, Member.modifyFirst?_eq_none h]

theorem assignNamed_member {f : Field} {as bs : List (Member Field)}
    (h : name ∉ as.map (·.name)) :
    assignNamed ((name, v) :: items) (as ++ ⟨name, f⟩ :: bs) =
      if (f.assign v).2 then assignNamed items (as ++ ⟨name, (f.assign v).1⟩ :: bs)
      else (as ++ ⟨name, (f.assign v).1⟩ :: bs, false) := by
  rw [assignNamed, Member.modifyFirst?_skip _ h ⟨name, f⟩ bs rfl]
  cases hassign : f.assign v with
  | mk new done => cases done <;> rfl

theorem assignNamed_append {before : List (String × Value)} {new : List (Member Field)}
    (h : assignNamed before ms = (new, true)) (after : List (String × Value)) :
    assignNamed (before ++ after) ms = assignNamed after new := by
  induction before generalizing ms with
  | nil =>
    cases h
    rfl
  | cons item before ih =>
    obtain ⟨name, v⟩ := item
    cases hfind : Member.find? name ms with
    | none =>
      rw [assignNamed_unnamed hfind] at h
      cases h
    | some f =>
      obtain ⟨as, bs, rfl, hname⟩ := Member.find?_eq_some hfind
      rw [assignNamed_member hname] at h
      rw [List.cons_append, assignNamed_member hname]
      split at h
      · rename_i hdone
        rw [if_pos hdone, ih h]
      · cases h

/-- Members that no item names stay. -/
theorem find?_assignNamed (h : name ∉ items.map (·.1)) :
    Member.find? name (assignNamed items ms).1 = Member.find? name ms := by
  induction items generalizing ms with
  | nil => rfl
  | cons item items ih =>
    obtain ⟨other, w⟩ := item
    simp only [List.map_cons, List.mem_cons, not_or] at h
    cases hfind : Member.find? other ms with
    | none => rw [assignNamed_unnamed hfind]
    | some f =>
      obtain ⟨as, bs, rfl, hother⟩ := Member.find?_eq_some hfind
      have hkeep := Member.find?_middle_ne (Ne.symm h.1) (f.assign w).1 f as bs
      rw [assignNamed_member hother]
      split
      · rw [ih h.2, hkeep]
      · exact hkeep

/-- **Items are assigned up to the first that does not fit**, which has no member, or one that
rejects it and is then what that has made of it. -/
theorem assignNamed_rejected {new : List (Member Field)}
    (h : assignNamed items ms = (new, false)) :
    ∃ before name v after done, items = before ++ (name, v) :: after ∧
      assignNamed before ms = (done, true) ∧
      (Member.find? name done = none ∧ new = done ∨
        ∃ f as bs, done = as ++ ⟨name, f⟩ :: bs ∧ name ∉ as.map (·.name) ∧
          (f.assign v).2 = false ∧ new = as ++ ⟨name, (f.assign v).1⟩ :: bs) := by
  induction items generalizing ms with
  | nil => cases h
  | cons item items ih =>
    obtain ⟨name, v⟩ := item
    cases hfind : Member.find? name ms with
    | none =>
      rw [assignNamed_unnamed hfind] at h
      cases h
      exact ⟨[], name, v, items, _, rfl, rfl, .inl ⟨hfind, rfl⟩⟩
    | some f =>
      obtain ⟨as, bs, rfl, hname⟩ := Member.find?_eq_some hfind
      rw [assignNamed_member hname] at h
      split at h
      · rename_i hdone
        obtain ⟨before, name', v', after, done, rfl, hbefore, hitem⟩ := ih h
        refine ⟨(name, v) :: before, name', v', after, done, rfl, ?_, hitem⟩
        rw [assignNamed_member hname, if_pos hdone, hbefore]
      · rename_i hdone
        cases h
        exact ⟨[], name, v, items, _, rfl, rfl,
          .inr ⟨f, as, bs, rfl, hname, Bool.eq_false_iff.2 hdone, rfl⟩⟩

/-- If no member is named twice, items that leave all members leave each of them. -/
theorem assignNamed_unchanged (hn : (items.map (·.1)).Nodup)
    (h : assignNamed items ms = (ms, false)) :
    ∃ before name v after, items = before ++ (name, v) :: after ∧
      assignNamed before ms = (ms, true) ∧
      (Member.find? name ms = none ∨
        ∃ f, Member.find? name ms = some f ∧ f.assign v = (f, false)) := by
  obtain ⟨before, name, v, after, done, rfl, hbefore, hitem⟩ := assignNamed_rejected h
  refine ⟨before, name, v, after, rfl, ?_⟩
  rcases hitem with ⟨hfind, rfl⟩ | ⟨f, as, bs, rfl, hname, hrejected, rfl⟩
  · exact ⟨hbefore, .inl hfind⟩
  -- the member is untouched by the items in front, so it is the one that the last item leaves
  have hnot : name ∉ before.map (·.1) := by
    rw [List.map_append, List.map_cons, List.nodup_append] at hn
    exact fun hmem => hn.2.2 name hmem name (.head _) rfl
  have hkeep : Member.find? name (assignNamed before (as ++ ⟨name, (f.assign v).1⟩ :: bs)).1 = _ :=
    find?_assignNamed hnot
  rw [hbefore, Member.find?_middle _ hname, Member.find?_middle _ hname] at hkeep
  have hf : (f.assign v).1 = f := (Option.some.inj hkeep).symm
  rw [hf] at hbefore ⊢
  exact ⟨hbefore, .inr ⟨f, Member.find?_middle _ hname, Prod.ext hf hrejected⟩⟩

end

/-! ## Values that are not taken apart -/

/-- Parts of the value are assigned to parts of the field. -/
def TakesApart : Field → Value → Prop
  | .optional _, .missing => False
  | .optional _, _ => True
  | .bundle _, .bundle _ => True
  | .bitfield _, .bundle _ => True
  | .variant _, .variant _ _ => True
  | _, _ => False

theorem assignScalar_rejected {f : Field} {v : Value} (h : (f.assignScalar v).2 = false) :
    (f.assignScalar v).1 = f := by
  cases f with
  | enumeration e =>
    cases v with
    | text s =>
      simp only [assignScalar, EnumField.setByName] at h ⊢
      cases hvalue : e.valueOf? s with
      | none => rfl
      | some n => simp [hvalue] at h
    | _ => first | rfl | cases h
  | _ => cases v <;> first | rfl | cases h

/-- **A value that is not taken apart changes the field as a whole or not at all.** -/
theorem assign_whole {f : Field} {v : Value} (ht : ¬ f.TakesApart v)
    (h : (f.assign v).2 = false) : f.assign v = (f, false) := by
  refine Prod.ext ?_ h
  cases v with
  | missing => cases f <;> first | rfl | cases h
  | list items =>
    cases f with
    | optional o => exact absurd trivial ht
    | list l =>
      simp only [assign, assignInside] at h ⊢
      split at h
      · cases h
      · rfl
    | _ => rfl
  | bundle items => cases f <;> first | rfl | exact absurd trivial ht
  | variant name inner => cases f <;> first | rfl | exact absurd trivial ht
  | int n | float x | bits n | text s | bytes bs =>
    cases f with
    | optional o => exact absurd trivial ht
    | _ =>
      simp only [assign, assignInside] at h ⊢
      exact assignScalar_rejected h

/-! ## Fields that decline -/

/-- The field refuses the value before anything has changed: the items in front of the one that does
not fit leave the field, an optional field is there already, and a variant has the alternative
already. -/
inductive Declines : Value → Field → Prop
  | whole {f : Field} {v : Value} : ¬ f.TakesApart v → (f.assign v).2 = false → Declines v f
  | inner {o : Optional Field} {v : Value} : v ≠ .missing → o.mode = .present →
    Declines v o.inner → Declines v (.optional o)
  | unnamed {f : Field} {ms : List (Member Field)} (before : List (String × Value))
    {after : List (String × Value)} {name : String} {v : Value} : f.namedMembers? = some ms →
    f.assign (.bundle before) = (f, true) → Member.find? name ms = none →
    Declines (.bundle (before ++ (name, v) :: after)) f
  | member {f g : Field} {ms : List (Member Field)} (before : List (String × Value))
    {after : List (String × Value)} {name : String} {v : Value} : f.namedMembers? = some ms →
    f.assign (.bundle before) = (f, true) → Member.find? name ms = some g → Declines v g →
    Declines (.bundle (before ++ (name, v) :: after)) f
  | unknownAlternative {a : Variant Field} {name : String} {inner : Value} :
    a.alternatives.findIdx? (·.name == name) = none → Declines (.variant name inner) (.variant a)
  | alternative {a : Variant Field} {c : Choice Field} {name : String} {inner : Value} :
    a.alternatives.findIdx? (·.name == name) = some a.current →
    a.alternatives[a.current]? = some c → Declines inner (.bundle c.bundle) →
    Declines (.variant name inner) (.variant a)

theorem assign_named_unchanged {f : Field} {ms : List (Member Field)}
    (hf : f.namedMembers? = some ms) {items : List (String × Value)} {done : Bool} :
    f.assign (.bundle items) = (f, done) ↔ assignNamed items ms = (ms, done) := by
  obtain ⟨hmembers, hdone, hsame⟩ := assign_named hf items
  constructor
  · intro h
    rw [h] at hmembers hdone
    exact Prod.ext (Option.some.inj (hmembers.symm.trans hf)) hdone.symm
  · intro h
    exact Prod.ext (hsame (by rw [h])) (hdone.trans (by rw [h]))

theorem Declines.assign_eq {f : Field} {v : Value} (h : f.Declines v) :
    f.assign v = (f, false) := by
  induction h with
  | whole ht h => exact assign_whole ht h
  | @inner o v hv hmode _ ih =>
    rw [assign_optional o hv, ih, ← hmode]
  | unnamed before hf hbefore hfind =>
    rw [assign_named_unchanged hf] at hbefore ⊢
    rw [assignNamed_append hbefore, assignNamed_unnamed hfind]
  | @member f g ms before after name v hf hbefore hfind _ ih =>
    rw [assign_named_unchanged hf] at hbefore ⊢
    obtain ⟨as, bs, rfl, hname⟩ := Member.find?_eq_some hfind
    rw [assignNamed_append hbefore, assignNamed_member hname, ih]
    rfl
  | unknownAlternative h => exact assign_variant_unnamed _ h _
  | @alternative a c name inner hi hc _ ih =>
    obtain ⟨b, hb, hassign⟩ := assign_variant a hi hc inner
    rw [ih] at hb hassign
    cases hb
    obtain ⟨hlt, rfl⟩ := List.getElem?_eq_some_iff.1 hc
    rw [hassign, List.set_getElem_self]

end Field

/-! ## Values that name a member once -/

/-- `w` is the value or lies somewhere inside it, outside lists. -/
inductive Value.Within (w : Value) : Value → Prop
  | self : Within w w
  | item {items : List (String × Value)} {item : String × Value} : item ∈ items →
    Within w item.2 → Within w (.bundle items)
  | inner {name : String} {v : Value} : Within w v → Within w (.variant name v)

/-- No bundle value names a member twice. -/
def Value.NamesOnce (v : Value) : Prop :=
  ∀ items, Within (.bundle items) v → (items.map (·.1)).Nodup

namespace Field

/-- Items that leave a field with named members are declined, if the members decline what they
refuse. -/
theorem declines_named {f : Field} {ms : List (Member Field)} (hf : f.namedMembers? = some ms)
    (ih : ∀ m ∈ ms, ∀ v : Value, v.NamesOnce → m.field.assign v = (m.field, false) →
      m.field.Declines v)
    {items : List (String × Value)} (hn : Value.NamesOnce (.bundle items))
    (h : f.assign (.bundle items) = (f, false)) : f.Declines (.bundle items) := by
  rw [assign_named_unchanged hf] at h
  obtain ⟨before, name, v, after, rfl, hbefore, hitem⟩ := assignNamed_unchanged (hn _ .self) h
  rw [← assign_named_unchanged hf] at hbefore
  rcases hitem with hfind | ⟨g, hfind, hg⟩
  · exact .unnamed before hf hbefore hfind
  obtain ⟨as, bs, rfl, -⟩ := Member.find?_eq_some hfind
  have hv : v.NamesOnce := fun items hw =>
    hn items (.item (List.mem_append_right _ (.head _)) hw)
  exact .member before hf hbefore hfind
    (ih ⟨name, g⟩ (List.mem_append_right _ (.head _)) v hv hg)

theorem declines_bundle {b : Bundle Field}
    (ih : ∀ m ∈ b.members, ∀ v : Value, v.NamesOnce → m.field.assign v = (m.field, false) →
      m.field.Declines v)
    {v : Value} (hn : v.NamesOnce) (h : (Field.bundle b).assign v = (.bundle b, false)) :
    (Field.bundle b).Declines v := by
  cases v with
  | bundle items => exact declines_named rfl ih hn h
  | _ => exact .whole id (by rw [h])

/-- A field that a rejected value leaves as it was declines the value. -/
theorem declines_of_assign {f : Field} {v : Value} (hn : v.NamesOnce)
    (h : f.assign v = (f, false)) : f.Declines v := by
  induction f generalizing v with
  | bundle b ih => exact declines_bundle (fun m hm _ => ih m hm) hn h
  | bitfield b =>
    cases v with
    | bundle items =>
      refine declines_named rfl (fun m hm w _ hrejected => .whole ?_ (by rw [hrejected])) hn h
      -- what is packed into bits is a number, which no value is taken apart for
      obtain ⟨⟨name, bits, p⟩, -, rfl⟩ := List.mem_map.1 hm
      cases p <;> cases w <;> exact id
    | _ => exact .whole id (by rw [h])
  | optional o ih =>
    by_cases hv : v = .missing
    · subst hv
      exact .whole id (by rw [h])
    rw [assign_optional o hv, Prod.mk.injEq, optional.injEq] at h
    obtain ⟨ho, hrejected⟩ := h
    have hinner : (o.inner.assign v).1 = o.inner := congrArg Optional.inner ho
    exact .inner hv (congrArg Optional.mode ho).symm (ih hn (Prod.ext hinner hrejected))
  | variant a ih =>
    cases v with
    | variant name inner =>
      cases hi : a.alternatives.findIdx? (·.name == name) with
      | none => exact .unknownAlternative hi
      | some i =>
        have hlt : i < a.alternatives.length := (List.findIdx?_eq_some_iff_getElem.1 hi).1
        have hc := List.getElem?_eq_getElem hlt
        obtain ⟨b, hb, hassign⟩ := assign_variant a hi hc inner
        rw [hassign, Prod.mk.injEq, variant.injEq] at h
        obtain ⟨ha, hrejected⟩ := h
        obtain rfl : i = a.current := congrArg Variant.current ha
        have hsame : b = a.alternatives[a.current].bundle := by
          have hset := congrArg (·[a.current]?) (congrArg Variant.alternatives ha)
          simp only [List.getElem?_set_self hlt, hc] at hset
          exact congrArg Choice.bundle (Option.some.inj hset)
        subst hsame
        have hinner : inner.NamesOnce := fun items hw => hn items (.inner hw)
        exact .alternative hi hc (declines_bundle
          (fun m hm _ => ih _ (List.getElem_mem hlt) m hm) hinner (Prod.ext hb hrejected))
    | _ => exact .whole id (by rw [h])
  | _ => exact .whole (by cases v <;> exact id) (by rw [h])

/-- **What a rejected assignment leaves.** A value that is not taken apart leaves the field as it
was if it is rejected. In general a field that declines the value stays as it was, and for a value
that names no member twice it stays so in no other case. -/
theorem assign_rejected (f : Field) (v : Value) :
    (¬ f.TakesApart v → (f.assign v).2 = false → f.assign v = (f, false)) ∧
      (f.Declines v → f.assign v = (f, false)) ∧
      (v.NamesOnce → f.assign v = (f, false) → f.Declines v) :=
  ⟨assign_whole, Declines.assign_eq, declines_of_assign⟩

end Field

/-- Items that the field has already, and a label whose text is none. -/
def untextedLabel : Value :=
  .bundle [("items", .list [.int 7]),
    ("shape", .variant "label" (.bundle [("tag", .int 2), ("text", .int 0)]))]

theorem untextedLabel_namesOnce : untextedLabel.NamesOnce := by
  intro items hw
  cases hw with
  | self => decide
  | item hmem hw =>
    rcases hmem with _ | ⟨_, _ | ⟨_, ⟨⟩⟩⟩
    · cases hw
    · cases hw with
      | inner hw =>
        cases hw with
        | self => decide
        | item hmem hw => rcases hmem with _ | ⟨_, _ | ⟨_, ⟨⟩⟩⟩ <;> cases hw

/-- A label of that text is there already, so nothing is changed before the text is refused. -/
theorem labelled_assign_rejected :
    (Field.int (octet 3)).assign (.text "three") = (.int (octet 3), false) ∧
      (labelled 1 [104] 4 [7]).Declines untextedLabel ∧
      (labelled 1 [104] 4 [7]).assign untextedLabel = (labelled 1 [104] 4 [7], false) := by
  have hdeclines : (labelled 1 [104] 4 [7]).Declines untextedLabel :=
    (Field.assign_rejected _ _).2.2 untextedLabel_namesOnce rfl
  exact ⟨(Field.assign_rejected _ _).1 id rfl, hdeclines, (Field.assign_rejected _ _).2.1 hdeclines⟩

/-- Two octets by name. -/
def octetPair (a b : Int64) : Field :=
  .bundle (.plain [⟨"a", .int ((octet 0).withValue a)⟩, ⟨"b", .int ((octet 0).withValue b)⟩])

/-- The second item has no member. The assignment is rejected, and the first member has taken its
item. -/
theorem octetPair_assign_partly :
    (octetPair 0 0).assign (.bundle [("a", .int 1), ("c", .int 2)]) = (octetPair 1 0, false) ∧
      (octetPair 1 0).value ≠ (octetPair 0 0).value ∧
      (octetPair 1 0).write ≠ (octetPair 0 0).write :=
  ⟨rfl, by simp [octetPair, Field.value, bundleValues, memberValues, IntField.withValue], by decide⟩

end WireProtocol
