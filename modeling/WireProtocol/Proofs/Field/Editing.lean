import WireProtocol.Field.Edit
import WireProtocol.Proofs.Field.Alike

/-!
# Edits lead to other states

Editing parts of a field, other than by reading, leads to states of that field and to nothing else
(`Field.Edited.alike`): no edit changes a kind, a name, a size or a format, and elements of lists
stay states of their prototype. A change of a part leads to a state of the whole if it leads to a
state of the part (`Field.KeptBy.modifyChild?`).
-/

set_option autoImplicit false

namespace WireProtocol

variable {ρ : Type}

/-- Modes that may differ. -/
def anyMode (_ _ : OptionalMode) : Prop := True

/-- The change leads from states of the field to states of it. -/
def Field.KeptBy (g : Field → Option (Field × ρ)) (p : Field) : Prop :=
  ∀ ⦃f f' r⦄, p.Alike anyMode f → g f = some (f', r) → p.Alike anyMode f'

/-! ## Changes of a part -/

theorem Field.keptBy_some {p : Field} {change : Field → Field × ρ}
    (h : ∀ f, p.Alike anyMode f → p.Alike anyMode (change f).1) :
    p.KeptBy fun f => some (change f) := by
  intro f f' r hf hr
  have hf' : (change f).1 = f' := congrArg Prod.fst (Option.some.inj hr)
  rw [← hf']
  exact h f hf

section
variable {g : Field → Option (Field × ρ)} {r : ρ}

theorem membersAlike_modifyFirst? {name : String} {ms ms' new : List (Member Field)}
    (h : List.Forall₂ (Member.Alike (Field.Alike anyMode)) ms ms')
    (hk : ∀ m ∈ ms, m.field.KeptBy g) (hm : Member.modifyFirst? name g ms' = some (new, r)) :
    List.Forall₂ (Member.Alike (Field.Alike anyMode)) ms new := by
  induction h generalizing new r with
  | nil => cases hm
  | cons hmm hms ih =>
    cases hmm with
    | mk n hf =>
      rw [Member.modifyFirst?] at hm
      split at hm
      · obtain ⟨⟨f, r⟩, hg, heq⟩ := Option.map_eq_some_iff.1 hm
        cases heq
        exact .cons (.mk n (hk _ (.head _) hf hg)) hms
      · obtain ⟨⟨ms, r⟩, hg, heq⟩ := Option.map_eq_some_iff.1 hm
        cases heq
        exact .cons (.mk n hf) (ih (fun m hm => hk m (.tail _ hm)) hg)

theorem IntField.modify_alike {f new : IntField} {v : Int64} (hk : (Field.int f).KeptBy g)
    (hm : (f.withValue v).modify g = some (new, r)) : ∃ w, new = f.withValue w := by
  obtain ⟨⟨f', r'⟩, hg, heq⟩ := Option.map_eq_some_iff.1 hm
  have h := hk (.int f v) hg
  cases h with
  | int _ w =>
    cases heq
    exact ⟨w, rfl⟩

theorem Bundle.Alike.modifyFirst? {name : String} {b b' new : Bundle Field}
    (h : b.Alike (Field.Alike anyMode) b') (hk : ∀ m ∈ b.members, m.field.KeptBy g)
    (hm : b'.modifyFirst? name g = some (new, r)) : b.Alike (Field.Alike anyMode) new := by
  cases h with
  | plain h =>
    obtain ⟨⟨ms, r⟩, hg, heq⟩ := Option.map_eq_some_iff.1 hm
    cases heq
    exact .plain (membersAlike_modifyFirst? h hk hg)
  | measured n length v trailing trailing' hh ht =>
    have hhead := fun m hm => hk m (List.mem_append_left _ hm)
    have htail := fun m hm => hk m (List.mem_append_right _ (.tail _ hm))
    rw [Bundle.modifyFirst?] at hm
    split at hm
    · obtain ⟨⟨ms, r⟩, hg, heq⟩ := Option.map_eq_some_iff.1 hm
      cases heq
      exact .measured n length v trailing trailing' (membersAlike_modifyFirst? hh hhead hg) ht
    split at hm
    · obtain ⟨⟨l, r⟩, hg, heq⟩ := Option.map_eq_some_iff.1 hm
      cases heq
      obtain ⟨w, rfl⟩ := IntField.modify_alike (hk _ (List.mem_append_right _ (.head _))) hg
      exact .measured n length w trailing trailing' hh ht
    · obtain ⟨⟨ms, r⟩, hg, heq⟩ := Option.map_eq_some_iff.1 hm
      cases heq
      exact .measured n length v trailing trailing' hh (membersAlike_modifyFirst? ht htail hg)

theorem choicesAlike_modifyAt? {cs cs' new : List (Choice Field)} {i : Nat}
    (h : List.Forall₂ (Choice.Alike (Field.Alike anyMode)) cs cs')
    (hk : ∀ c ∈ cs, (Field.bundle c.bundle).KeptBy g)
    (hm : Choice.modifyAt? g i cs' = some (new, r)) :
    List.Forall₂ (Choice.Alike (Field.Alike anyMode)) cs new := by
  induction h generalizing i new r with
  | nil => cases i <;> cases hm
  | cons hc hcs ih =>
    cases i with
    | zero =>
      obtain ⟨⟨b, r⟩, hg, heq⟩ := Option.map_eq_some_iff.1 hm
      cases heq
      obtain ⟨⟨f, r⟩, hg, heq⟩ := Option.map_eq_some_iff.1 hg
      cases hc with
      | mk name tag hb =>
        have h := hk _ (.head _) (.bundle hb) hg
        cases h with
        | bundle h =>
          cases heq
          exact .cons (.mk name tag h) hcs
    | succ i =>
      obtain ⟨⟨cs, r⟩, hg, heq⟩ := Option.map_eq_some_iff.1 hm
      cases heq
      exact .cons hc (ih (fun c hc => hk c (.tail _ hc)) hg)

/-- The fields that a step can lead to from a field. -/
def Field.parts : Field → List Field
  | .list l => [l.prototype]
  | .bundle b => b.members.map (·.field)
  | .optional o => [o.inner]
  | .variant v => v.alternatives.map (.bundle ·.bundle)
  | _ => []

theorem Field.KeptBy.modifyChild? {p : Field} (hk : ∀ q ∈ p.parts, q.KeptBy g) (step : PathStep) :
    p.KeptBy (Field.modifyChild? step g) := by
  intro f f' r h hm
  cases h with
  | list l hes hrest =>
    cases step with
    | index i =>
      simp only [Field.modifyChild?] at hm
      split at hm
      · cases hm
      · rename_i e he
        obtain ⟨⟨f, r⟩, hg, heq⟩ := Option.map_eq_some_iff.1 hm
        cases heq
        have hnew := hk _ (.head _) (hes e (List.mem_of_getElem? he)) hg
        refine .list l (fun e he => ?_) fun _ e he => ?_
        · rcases List.mem_or_eq_of_mem_set he with hold | rfl
          · obtain ⟨e, hmem, rfl⟩ := List.mem_map.1 hold
            exact hes e hmem
          · exact hnew
        · rcases List.mem_or_eq_of_mem_set he with hold | rfl
          · obtain ⟨e, -, rfl⟩ := List.mem_map.1 hold
            rfl
          · rfl
    | _ => cases hm
  | bundle hb =>
    cases step with
    | member name =>
      obtain ⟨⟨b, r⟩, hg, heq⟩ := Option.map_eq_some_iff.1 hm
      cases heq
      exact .bundle (hb.modifyFirst? (fun m hm => hk _ (List.mem_map_of_mem hm)) hg)
    | _ => cases hm
  | optional o hi hmode =>
    cases step with
    | inner =>
      obtain ⟨⟨f, r⟩, hg, heq⟩ := Option.map_eq_some_iff.1 hm
      cases heq
      exact .optional o (hk _ (.head _) hi hg) hmode
    | _ => cases hm
  | variant v hcs hlt =>
    cases step with
    | current =>
      obtain ⟨⟨cs, r⟩, hg, heq⟩ := Option.map_eq_some_iff.1 hm
      cases heq
      have hnew := choicesAlike_modifyAt? hcs
        (fun c hc => hk _ (List.mem_map.2 ⟨c, hc, rfl⟩)) hg
      refine .variant v hnew ?_
      rw [← hnew.length_eq, hcs.length_eq]
      exact hlt
    | _ => cases hm
  | _ => cases step <;> cases hm

end

/-! ## Fields that are states of themselves -/

/-- The field and the fields inside it are states of themselves: their patterns and byte strings
have the sizes that they should have, and variants have a chosen alternative. -/
def Field.Regular (p : Field) : Prop := ∀ q, Field.Within q p → q.Alike anyMode q

namespace Field.Regular

theorem self {p : Field} (h : p.Regular) : p.Alike anyMode p := h p .self

theorem child {p c : Field} (h : p.Regular) (hc : c ∈ p.children) : c.Regular :=
  fun q hq => h q (.child hc hq)

end Field.Regular

theorem choicesAlike_self {cs : List (Choice Field)} {c : Choice Field} {R : Field → Field → Prop}
    (h : List.Forall₂ (Choice.Alike R) cs cs) (hc : c ∈ cs) : c.Alike R c := by
  obtain ⟨i, hi, rfl⟩ := List.mem_iff_getElem.1 hc
  exact (List.forall₂_iff_get.1 h).2 i hi hi

theorem Field.Regular.part {p q : Field} (h : p.Regular) (hq : q ∈ p.parts) : q.Regular := by
  cases p with
  | list l =>
    rcases hq with _ | ⟨_, ⟨⟩⟩
    exact h.child (.head _)
  | bundle b => exact h.child hq
  | optional o =>
    rcases hq with _ | ⟨_, ⟨⟩⟩
    exact h.child (.head _)
  | variant v =>
    obtain ⟨c, hc, rfl⟩ := List.mem_map.1 hq
    intro q hq
    cases hq with
    | self =>
      have hv := h.self
      cases hv with
      | variant _ hcs _ =>
        have hcc := choicesAlike_self hcs hc
        cases hcc with
        | mk name tag hb => exact .bundle hb
    | child hm hq =>
      exact h.child (List.mem_flatMap.2 ⟨c, hc, hm⟩) q hq
  | _ => cases hq

/-! ## Assigning -/

theorem ByteField.withData_eq (f : ByteField) (old data : Bytes) :
    ∃ new, ({ f with data := old } : ByteField).withData data = { f with data := new } ∧
      ({ f with data := new } : ByteField).isValid = true := by
  obtain ⟨size, _⟩ := f
  cases size with
  | fixed n => exact ⟨data.resize n, rfl, by simp [isValid]⟩
  | _ => exact ⟨data, rfl, rfl⟩

theorem EnumField.setByName_eq (f : EnumField) (v : Int64) (name : String) :
    ∃ w, ((f.withValue v).setByName name).1 = f.withValue w := by
  unfold setByName
  split
  · exact ⟨_, rfl⟩
  · exact ⟨v, rfl⟩

theorem BitmaskField.setBit_eq (f : BitmaskField) (v : UInt64) (i : Nat) (on : Bool) :
    ∃ w, ({ f with value := v } : BitmaskField).setBit i on = { f with value := w } := by
  unfold setBit
  split
  · exact ⟨v, rfl⟩
  · exact ⟨_, rfl⟩

theorem FloatPrecision.toBits_lt (p : FloatPrecision) (x : Binary64) :
    (p.toBits x).toNat < 256 ^ p.bytes := by
  cases p with
  | single =>
    have h := x.narrow.toNat_lt
    simp only [toBits, bytes, UInt32.toNat_toUInt64]
    omega
  | double =>
    have h := x.bits.toNat_lt
    simp only [toBits, bytes]
    omega

/-- Assigning to a scalar changes its value alone. -/
theorem Field.Alike.assignScalar {p g : Field} (h : p.Alike anyMode g) (v : Value) :
    p.Alike anyMode (g.assignScalar v).1 := by
  cases h with
  | int f w =>
    cases v with
    | int n | bits n | float x => exact .int f _
    | _ => exact .int f w
  | enumeration f w =>
    cases v with
    | int n | bits n => exact .enumeration f _
    | text s =>
      obtain ⟨w', hw⟩ := f.setByName_eq w s
      have hs : (Field.enumeration (f.withValue w)).assignScalar (.text s) =
        (.enumeration ((f.withValue w).setByName s).1, ((f.withValue w).setByName s).2) := rfl
      rw [hs, hw]
      exact .enumeration f w'
    | _ => exact .enumeration f w
  | bitmask f w =>
    cases v with
    | int n | bits n => exact .bitmask f _
    | _ => exact .bitmask f w
  | float f hbits =>
    cases v with
    | int n | float x => exact .float f (FloatPrecision.toBits_lt f.precision _)
    | _ => exact .float f hbits
  | @text f data hv =>
    cases v with
    | text s =>
      obtain ⟨new, hnew, hvalid⟩ := f.withData_eq data (Utf8.encode s)
      have hs : (Field.text { f with data }).assignScalar (.text s) =
        (.text (({ f with data } : ByteField).withData (Utf8.encode s)), true) := rfl
      rw [hs, hnew]
      exact .text f hvalid
    | _ => exact .text f hv
  | @bytes f data hv =>
    cases v with
    | bytes bs =>
      obtain ⟨new, hnew, hvalid⟩ := f.withData_eq data bs
      have hs : (Field.bytes { f with data }).assignScalar (.bytes bs) =
        (.bytes (({ f with data } : ByteField).withData bs), true) := rfl
      rw [hs, hnew]
      exact .bytes f hvalid
    | _ => exact .bytes f hv
  | list l hes hrest => cases v <;> exact .list l hes hrest
  | bundle hb => cases v <;> exact .bundle hb
  | optional o hi hm => cases v <;> exact .optional o hi hm
  | variant w hcs hlt => cases v <;> exact .variant w hcs hlt

/-- Assigning inside optional fields leads to states if assigning to what is inside does. -/
theorem Field.Alike.assignInside {set : Field → Field × Bool} {p g : Field} (hp : p.Regular)
    (hset : ∀ {p g : Field}, p.Regular → p.Alike anyMode g → p.Alike anyMode (set g).1)
    (h : p.Alike anyMode g) : p.Alike anyMode (g.assignInside set).1 := by
  induction g generalizing p with
  | optional o ih _ =>
    cases h with
    | optional o' hi hm =>
      exact .optional o' (ih (hp.child (.head _)) hi) trivial
  | _ => exact hset hp h

theorem Variant.select_eq (v : Variant Field) (i : Nat) (h : v.current < v.alternatives.length) :
    ∃ j, (v.select i).1 = { v with current := j } ∧ j < v.alternatives.length := by
  unfold select
  split
  · exact ⟨i, rfl, ‹_›⟩
  · exact ⟨v.current, rfl, h⟩

theorem Variant.selectWhere_eq (v : Variant Field) (p : Choice Field → Bool)
    (h : v.current < v.alternatives.length) :
    ∃ j, (v.selectWhere p).1 = { v with current := j } ∧ j < v.alternatives.length := by
  unfold selectWhere
  split
  · exact v.select_eq _ h
  · exact ⟨v.current, rfl, h⟩

mutual

/-- **Assigning a value leads to a state of the field.** -/
theorem Field.Alike.assign (v : Value) {p g : Field} (hp : p.Regular) (h : p.Alike anyMode g) :
    p.Alike anyMode (g.assign v).1 := by
  cases v with
  | missing =>
    cases h with
    | optional o hi _ =>
      rw [Field.assign]
      exact .optional o hi trivial
    | _ =>
      rw [Field.assign]
      · constructor <;> assumption
      · intro o ho
        cases ho
  | list items =>
    rw [Field.assign]
    refine h.assignInside hp fun hp h => ?_
    cases h with
    | list l hes hrest =>
      dsimp only
      split
      · rename_i elements heq
        have hnew := assignElements_alike items (hp.child (.head _)) (fun e he => by cases he) heq
        exact .list l (fun e he => (hnew e he).1) fun _ e he => (hnew e he).2
      · exact .list l hes hrest
    | _ => constructor <;> assumption
  | bundle items =>
    rw [Field.assign]
    refine h.assignInside hp fun hp h => ?_
    cases h with
    | bundle hb =>
      exact .bundle (assignMembers_alike items (fun m hm => hp.child (List.mem_map_of_mem hm)) hb)
    | _ => constructor <;> assumption
  | variant name inner =>
    rw [Field.assign]
    refine h.assignInside hp fun hp h => ?_
    cases h with
    | @variant w alternatives current hcs hlt =>
      obtain ⟨i, hselect, hi⟩ :=
        Variant.selectWhere_eq ⟨alternatives, current⟩ (·.name == name) hlt
      have hk : ∀ c ∈ w.alternatives, (Field.bundle c.bundle).KeptBy fun c =>
          some (c.assign inner) := fun c hc => Field.keptBy_some fun f hf =>
        Field.Alike.assign inner (hp.part (List.mem_map.2 ⟨c, hc, rfl⟩)) hf
      dsimp only
      split
      · rw [hselect]
        dsimp only
        split
        · rename_i new done heq
          have hnew := choicesAlike_modifyAt? hcs hk heq
          refine .variant w hnew ?_
          rw [← hnew.length_eq, hcs.length_eq]
          exact hi
        · exact .variant w hcs hi
      · exact .variant w hcs hlt
    | _ => constructor <;> assumption
  | int n =>
    rw [Field.assign]
    exact h.assignInside hp fun _ h => h.assignScalar (.int n)
  | float x =>
    rw [Field.assign]
    exact h.assignInside hp fun _ h => h.assignScalar (.float x)
  | bits n =>
    rw [Field.assign]
    exact h.assignInside hp fun _ h => h.assignScalar (.bits n)
  | text s =>
    rw [Field.assign]
    exact h.assignInside hp fun _ h => h.assignScalar (.text s)
  | bytes bs =>
    rw [Field.assign]
    exact h.assignInside hp fun _ h => h.assignScalar (.bytes bs)

theorem assignElements_alike (items : List Value) {p : Field} {before es : List (Field × Bytes)}
    (hp : p.Regular) (hb : ∀ e ∈ before, p.Alike anyMode e.1 ∧ e.2 = [])
    (h : assignElements p before items = some es) :
    ∀ e ∈ es, p.Alike anyMode e.1 ∧ e.2 = [] := by
  cases items with
  | nil =>
    rw [assignElements] at h
    cases h
    exact fun e he => hb e (List.mem_reverse.1 he)
  | cons v vs =>
    have hv := Field.Alike.assign v hp hp.self
    rw [assignElements] at h
    split at h
    · rename_i e heq
      rw [heq] at hv
      refine assignElements_alike vs hp (fun e he => ?_) h
      rcases List.mem_cons.1 he with rfl | he
      · exact ⟨hv, rfl⟩
      · exact hb e he
    · cases h

theorem assignMembers_alike (items : List (String × Value)) {b b' : Bundle Field}
    (hp : ∀ m ∈ b.members, m.field.Regular) (h : b.Alike (Field.Alike anyMode) b') :
    b.Alike (Field.Alike anyMode) (assignMembers items b').1 := by
  cases items with
  | nil =>
    rw [assignMembers]
    exact h
  | cons item items =>
    obtain ⟨name, v⟩ := item
    have hk : ∀ m ∈ b.members, m.field.KeptBy fun f => some (f.assign v) := fun m hm =>
      Field.keptBy_some fun f hf => Field.Alike.assign v (hp m hm) hf
    rw [assignMembers]
    split
    · exact h
    · rename_i new heq
      exact assignMembers_alike items hp (h.modifyFirst? hk heq)
    · rename_i new heq
      exact h.modifyFirst? hk heq

end

/-! ## Edits -/

theorem Bundle.Alike.clearTrailing {R : Field → Field → Prop} {b b' : Bundle Field}
    (h : b.Alike R b') : b.Alike R b'.clearTrailing := by
  cases h with
  | plain h => exact .plain h
  | measured name length v trailing trailing' hh ht =>
    exact .measured name length v trailing [] hh ht

/-- An edit of a field, other than reading it, leads to a state of it. -/
theorem Field.Alike.edit {p g : Field} (hp : p.Regular) (h : p.Alike anyMode g) {e : Edit}
    (he : ∀ src, e ≠ .read src) : p.Alike anyMode (g.edit e).1 := by
  cases e with
  | read src => exact absurd rfl (he src)
  | assign v => exact h.assign v hp
  | refresh => exact h.refresh
  | setScaled x =>
    cases h with
    | int f w => exact .int f _
    | _ => constructor <;> assumption
  | setByName name =>
    cases h with
    | enumeration f w =>
      obtain ⟨w', hw⟩ := f.setByName_eq w name
      simp only [Field.edit, hw]
      exact .enumeration f w'
    | _ => constructor <;> assumption
  | setBit i on =>
    cases h with
    | bitmask f w =>
      obtain ⟨w', hw⟩ := f.setBit_eq w i on
      simp only [Field.edit, hw]
      exact .bitmask f w'
    | _ => constructor <;> assumption
  | push =>
    cases h with
    | list l hes hrest =>
      refine .list l (fun e he => ?_) fun hn e he => ?_
      · rcases List.mem_append.1 he with he | he
        · exact hes e he
        · cases List.mem_singleton.1 he
          exact (hp.child (.head _)).self
      · rcases List.mem_append.1 he with he | he
        · exact hrest hn e he
        · cases List.mem_singleton.1 he
          rfl
    | _ => constructor <;> assumption
  | truncate n =>
    cases h with
    | list l hes hrest =>
      refine .list l (fun e he => ?_) fun _ e he => ?_
      · obtain ⟨e, hmem, rfl⟩ := List.mem_map.1 he
        exact hes e (List.mem_of_mem_take hmem)
      · obtain ⟨e, -, rfl⟩ := List.mem_map.1 he
        rfl
    | _ => constructor <;> assumption
  | clearTrailing =>
    cases h with
    | bundle hb => exact .bundle hb.clearTrailing
    | _ => constructor <;> assumption
  | setMode mode =>
    cases h with
    | optional o hi _ => exact .optional o hi trivial
    | _ => constructor <;> assumption
  | select i =>
    cases h with
    | @variant w alternatives current hcs hlt =>
      obtain ⟨j, hselect, hj⟩ := Variant.select_eq ⟨alternatives, current⟩ i hlt
      simp only [Field.edit, hselect]
      exact .variant w hcs hj
    | _ => constructor <;> assumption
  | selectByName name =>
    cases h with
    | @variant w alternatives current hcs hlt =>
      obtain ⟨j, hselect, hj⟩ :=
        Variant.selectWhere_eq ⟨alternatives, current⟩ (·.name == name) hlt
      simp only [Field.edit, hselect]
      exact .variant w hcs hj
    | _ => constructor <;> assumption
  | selectByTag tag =>
    cases h with
    | @variant w alternatives current hcs hlt =>
      obtain ⟨j, hselect, hj⟩ :=
        Variant.selectWhere_eq ⟨alternatives, current⟩ (·.tag == tag) hlt
      simp only [Field.edit, hselect]
      exact .variant w hcs hj
    | _ => constructor <;> assumption

/-- Editing a part leads to a state of the whole. -/
theorem Field.Regular.keptBy_editAt? {e : Edit} (he : ∀ src, e ≠ .read src) (path : List PathStep)
    {p : Field} (hp : p.Regular) : p.KeptBy (Field.editAt? path e) := by
  induction path generalizing p with
  | nil => exact Field.keptBy_some fun f hf => hf.edit hp he
  | cons step path ih => exact Field.KeptBy.modifyChild? (fun q hq => ih (hp.part hq)) step

/-- The second field is reached from the first one by edits of its parts other than reading. -/
inductive Field.Edited (p : Field) : Field → Prop
  | start : Edited p p
  | edit {g g' : Field} {path : List PathStep} {e : Edit} {reply : Option Reply} : Edited p g →
    (∀ src, e ≠ .read src) → g.editAt? path e = some (g', reply) → Edited p g'

/-- **Edits lead from a field to states of it.** -/
theorem Field.Edited.alike {p g : Field} (hp : p.Regular) (h : p.Edited g) :
    p.Alike anyMode g := by
  induction h with
  | start => exact hp.self
  | edit _ he hr ih => exact hp.keptBy_editAt? he _ ih hr

end WireProtocol
