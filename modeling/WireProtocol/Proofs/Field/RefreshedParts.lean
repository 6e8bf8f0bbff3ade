import WireProtocol.Proofs.Field.Remnants
import WireProtocol.Proofs.Message.Presence

/-!
# What refreshing leaves inside a field

Refreshing gives length members their values and leaves everything else where it is: the fields
directly inside a refreshed field are those of the field, some of them refreshed
(`Field.refresh_children`). So the same bitfields are inside (`Field.within_bitfield_refresh`).
-/

set_option autoImplicit false

namespace WireProtocol

/-- The second field is the first one as refreshing a field around it may leave it. -/
inductive Field.Refreshed : Field → Field → Prop
  | kept (f : Field) : Refreshed f f
  | refresh (f : Field) : Refreshed f f.refresh.1
  /-- The length member of a bundle takes its value. -/
  | length (f : IntField) (v : Int64) : Refreshed (.int f) (.int (f.withValue v))

theorem Bundle.refresh_members (b : Bundle Field) :
    List.Forall₂ (Member.Alike Field.Refreshed) b.members (refreshBundle b).1.members :=
  (Bundle.Alike.refresh (Bundle.alike_self fun m _ => .refresh m.field)).members .length

/-- Members that are related one by one have fields that are. -/
theorem membersAlike_fields {R : Field → Field → Prop} {ms ms' : List (Member Field)}
    (h : List.Forall₂ (Member.Alike R) ms ms') :
    List.Forall₂ R (ms.map (·.field)) (ms'.map (·.field)) := by
  induction h with
  | nil => exact .nil
  | cons hm _ ih =>
    cases hm with
    | mk name hr => exact .cons hr ih

theorem membersAlike_names {R : Field → Field → Prop} {ms ms' : List (Member Field)}
    (h : List.Forall₂ (Member.Alike R) ms ms') : ms'.map (·.name) = ms.map (·.name) := by
  induction h with
  | nil => rfl
  | cons hm _ ih =>
    cases hm with
    | mk name hr => exact congrArg (name :: ·) ih

theorem refreshChoice_refreshed (cs : List (Choice Field)) (i : Nat) :
    List.Forall₂ (Choice.Alike Field.Refreshed) cs (refreshChoice cs i).1 :=
  choicesAlike_refresh
    (List.forall₂_same.2 fun c _ => .mk c.name c.tag (Bundle.alike_self fun m _ => .kept m.field))
    (List.forall₂_same.2 fun c _ => .mk c.name c.tag (Bundle.alike_self fun m _ => .refresh m.field))

/-- **The fields inside a refreshed field are those of the field**, some of them refreshed. -/
theorem Field.refresh_children (f : Field) :
    List.Forall₂ Refreshed f.children f.refresh.1.children := by
  have hkept (fs : List Field) : List.Forall₂ Refreshed fs fs :=
    List.forall₂_same.2 fun f _ => .kept f
  cases f with
  | list l =>
    obtain ⟨prototype, size, elemLength, elements⟩ := l
    simp only [refresh, refreshElements_eq, onFirst, children, List.reverse_nil, List.nil_append,
      List.map_map]
    refine .cons (.kept prototype) ?_
    rw [List.forall₂_map_left_iff, List.forall₂_map_right_iff]
    exact List.forall₂_same.2 fun e _ => .refresh e.1
  | bundle b => exact membersAlike_fields b.refresh_members
  | optional o =>
    obtain ⟨inner, default, mode⟩ := o
    cases mode with
    | present => exact .cons (.refresh inner) (hkept [default])
    | missing | tentative => exact hkept _
  | variant v =>
    obtain ⟨alternatives, current⟩ := v
    refine List.rel_flatMap (refreshChoice_refreshed alternatives current) fun c c' hc => ?_
    cases hc with
    | mk name tag hb => exact membersAlike_fields (hb.members .length)
  | _ => exact .nil

/-! ## Everything inside -/

theorem forall₂_mem_left {α β : Type} {R : α → β → Prop} {as : List α} {bs : List β} {a : α}
    (h : List.Forall₂ R as bs) (ha : a ∈ as) : ∃ b ∈ bs, R a b := by
  induction h with
  | nil => cases ha
  | cons hab _ ih =>
    rcases List.mem_cons.1 ha with rfl | ha
    · exact ⟨_, .head _, hab⟩
    · obtain ⟨b, hb, hr⟩ := ih ha
      exact ⟨b, .tail _ hb, hr⟩

theorem forall₂_mem_right {α β : Type} {R : α → β → Prop} {as : List α} {bs : List β} {b : β}
    (h : List.Forall₂ R as bs) (hb : b ∈ bs) : ∃ a ∈ as, R a b :=
  forall₂_mem_left h.flip hb

theorem Field.refresh_eq_bitfield {f : Field} {b : Bitfield} :
    f.refresh.1 = .bitfield b ↔ f = .bitfield b := by
  cases f with
  | optional o =>
    obtain ⟨inner, default, mode⟩ := o
    cases mode <;> exact ⟨nofun, nofun⟩
  | list l | bundle b | variant v => exact ⟨nofun, nofun⟩
  | _ => rfl

theorem Field.Within.trans {f g h : Field} (hf : Within f g) (hg : Within g h) : Within f h := by
  induction hg with
  | self => exact hf
  | child hc _ ih => exact .child hc ih

/-- A field without other fields inside. -/
def Field.isScalar : Field → Bool
  | .int _ => true
  | .enumeration _ => true
  | .bitmask _ => true
  | .float _ => true
  | .text _ => true
  | .bytes _ => true
  | _ => false

theorem Field.children_of_isScalar {f : Field} (h : f.isScalar = true) : f.children = [] := by
  cases f with
  | list | bitfield | bundle | optional | variant | unknown => cases h
  | _ => rfl

theorem Field.not_within_scalar {f : Field} (h : f.isScalar = true) {b : Bitfield} :
    ¬ Within (.bitfield b) f := by
  rw [within_iff, children_of_isScalar h]
  rintro (rfl | ⟨_, hc, -⟩)
  · cases h
  · cases hc

/-- Nothing is inside an integer, enumeration or bitmask. -/
theorem Field.not_within_packable {f : Field} (h : f.packable?.isSome = true) {b : Bitfield} :
    ¬ Within (.bitfield b) f := by
  cases f with
  | int f | enumeration f | bitmask f => exact not_within_scalar rfl
  | _ => cases h

theorem Field.not_within_int {f : IntField} {b : Bitfield} : ¬ Within (.bitfield b) (.int f) :=
  not_within_packable rfl

/-- **Refreshing keeps the bitfields inside.** -/
theorem Field.within_bitfield_refresh {f : Field} {b : Bitfield} :
    Within (.bitfield b) f.refresh.1 ↔ Within (.bitfield b) f := by
  induction f using Field.inductionOnChildren with
  | step f ih =>
  -- a field inside and what refreshing makes of it hold the same bitfields
  have hparts {c c' : Field} (hc : c ∈ f.children) (hr : c.Refreshed c') :
      Within (.bitfield b) c' ↔ Within (.bitfield b) c := by
    cases hr with
    | kept => rfl
    | refresh => exact ih c hc
    | length => exact iff_of_false not_within_int not_within_int
  rw [within_iff, within_iff, refresh_eq_bitfield]
  refine or_congr Iff.rfl ⟨?_, ?_⟩
  · rintro ⟨c', hc', h⟩
    obtain ⟨c, hc, hr⟩ := forall₂_mem_right f.refresh_children hc'
    exact ⟨c, hc, (hparts hc hr).1 h⟩
  · rintro ⟨c, hc, h⟩
    obtain ⟨c', hc', hr⟩ := forall₂_mem_left f.refresh_children hc
    exact ⟨c', hc', (hparts hc hr).2 h⟩

theorem Field.Refreshed.within_bitfield {f g : Field} (h : f.Refreshed g) {b : Bitfield} :
    Within (.bitfield b) g ↔ Within (.bitfield b) f := by
  cases h with
  | kept => rfl
  | refresh => exact within_bitfield_refresh
  | length => exact iff_of_false not_within_int not_within_int

/-! ## Modes -/

theorem Field.inMode_children (mode : Option OptionalMode) (f : Field) :
    (f.inMode mode).1.children = f.children := by
  cases mode with
  | none => cases f <;> rfl
  | some mode =>
    cases f with
    | optional o =>
      rw [inMode_optional]
      rfl
    | _ => rfl

end WireProtocol
