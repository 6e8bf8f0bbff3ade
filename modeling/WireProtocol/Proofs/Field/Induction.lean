import WireProtocol.Field.Basic

/-!
# Induction over fields

The composed kinds hold fields inside lists and structures, so `Field` is a nested inductive type
and `induction` does not apply to it as it is. `Field.inductionOn` is the principle that does: in
the case of a composed kind the property may be assumed of every field directly inside it.
`Field.Within g f` says that `g` is `f` itself or lies somewhere inside it, and `f.Everywhere P` that
all such fields have a property.
-/

set_option autoImplicit false

namespace WireProtocol

/-! ## Sizes of the fields inside -/

theorem Member.sizeOf_lt {ms : List (Member Field)} {m : Member Field} (h : m ∈ ms) :
    sizeOf m.field < sizeOf ms := by
  have hm := List.sizeOf_lt_of_mem h
  obtain ⟨name, field⟩ := m
  simp only [Member.mk.sizeOf_spec] at hm ⊢
  omega

theorem Bundle.sizeOf_member_lt {b : Bundle Field} {m : Member Field} (h : m ∈ b.members) :
    sizeOf m.field < sizeOf (Field.bundle b) := by
  cases b with
  | plain ms =>
    have : sizeOf m.field < sizeOf ms := Member.sizeOf_lt h
    simp only [Field.bundle.sizeOf_spec, Bundle.plain.sizeOf_spec]
    omega
  | measured head name length tail trailing =>
    simp only [Field.bundle.sizeOf_spec, Bundle.measured.sizeOf_spec]
    rcases List.mem_append.1 h with h | h
    · have := Member.sizeOf_lt h
      omega
    · rcases List.mem_cons.1 h with rfl | h
      · simp only [Field.int.sizeOf_spec]
        have : 0 < sizeOf head := by
          cases head <;> simp only [List.nil.sizeOf_spec, List.cons.sizeOf_spec] <;> omega
        omega
      · have := Member.sizeOf_lt h
        omega

theorem ListOf.sizeOf_element_lt {l : ListOf Field} {e : Field × Bytes} (h : e ∈ l.elements) :
    sizeOf e.1 < sizeOf (Field.list l) := by
  have he := List.sizeOf_lt_of_mem h
  cases e
  cases l
  simp only [Field.list.sizeOf_spec, ListOf.mk.sizeOf_spec, Prod.mk.sizeOf_spec] at *
  omega

theorem Variant.sizeOf_choice_lt {v : Variant Field} {c : Choice Field}
    (h : c ∈ v.alternatives) : sizeOf (Field.bundle c.bundle) < sizeOf (Field.variant v) := by
  have hc := List.sizeOf_lt_of_mem h
  cases c
  cases v
  simp only [Field.bundle.sizeOf_spec, Field.variant.sizeOf_spec, Variant.mk.sizeOf_spec,
    Choice.mk.sizeOf_spec] at *
  omega

/-! ## The principle -/

/-- **Induction over fields**: the property holds of a composed field if it holds of the fields
directly inside it. -/
@[elab_as_elim, induction_eliminator]
theorem Field.inductionOn {motive : Field → Prop}
    (int : ∀ f, motive (.int f))
    (enumeration : ∀ f, motive (.enumeration f))
    (bitmask : ∀ f, motive (.bitmask f))
    (float : ∀ f, motive (.float f))
    (text : ∀ f, motive (.text f))
    (bytes : ∀ f, motive (.bytes f))
    (list : ∀ l : ListOf Field, motive l.prototype → (∀ e ∈ l.elements, motive e.1) →
      motive (.list l))
    (bitfield : ∀ b, motive (.bitfield b))
    (bundle : ∀ b : Bundle Field, (∀ m ∈ b.members, motive m.field) → motive (.bundle b))
    (optional : ∀ o : Optional Field, motive o.inner → motive o.default → motive (.optional o))
    (variant : ∀ v : Variant Field,
      (∀ c ∈ v.alternatives, ∀ m ∈ c.bundle.members, motive m.field) → motive (.variant v))
    (unknown : ∀ data, motive (.unknown data)) (f : Field) : motive f := by
  induction hn : sizeOf f using Nat.strongRecOn generalizing f with
  | ind n ih =>
  subst hn
  cases f with
  | int f => exact int f
  | enumeration f => exact enumeration f
  | bitmask f => exact bitmask f
  | float f => exact float f
  | text f => exact text f
  | bytes f => exact bytes f
  | list l =>
    refine list l (ih _ ?_ _ rfl) fun e he => ih _ (ListOf.sizeOf_element_lt he) _ rfl
    cases l
    simp only [Field.list.sizeOf_spec, ListOf.mk.sizeOf_spec]
    omega
  | bitfield b => exact bitfield b
  | bundle b => exact bundle b fun m hm => ih _ (Bundle.sizeOf_member_lt hm) _ rfl
  | optional o =>
    refine optional o (ih _ ?_ _ rfl) (ih _ ?_ _ rfl) <;>
    · cases o
      simp only [Field.optional.sizeOf_spec, Optional.mk.sizeOf_spec]
      omega
  | variant v =>
    exact variant v fun c hc m hm =>
      ih _ (Nat.lt_trans (Bundle.sizeOf_member_lt hm) (Variant.sizeOf_choice_lt hc)) _ rfl
  | unknown data => exact unknown data

/-! ## Fields inside a field -/

/-- The fields directly inside a field; a variant has those of all its alternatives. -/
def Field.children : Field → List Field
  | .list l => l.prototype :: l.elements.map (·.1)
  | .bundle b => b.members.map (·.field)
  | .optional o => [o.inner, o.default]
  | .variant v => v.alternatives.flatMap fun c => c.bundle.members.map (·.field)
  | _ => []

/-- Induction over fields where all kinds are treated alike: the property holds of a field if it
holds of the fields directly inside it. -/
@[elab_as_elim]
theorem Field.inductionOnChildren {motive : Field → Prop}
    (step : ∀ f, (∀ c ∈ f.children, motive c) → motive f) (f : Field) : motive f := by
  induction f with
  | list l hp hes =>
    exact step _ (List.forall_mem_cons.2 ⟨hp, List.forall_mem_map.2 hes⟩)
  | bundle b ih => exact step _ (List.forall_mem_map.2 ih)
  | optional o hi hd =>
    exact step _ (List.forall_mem_cons.2 ⟨hi, List.forall_mem_cons.2 ⟨hd, List.forall_mem_nil _⟩⟩)
  | variant v ih =>
    refine step _ fun c hc => ?_
    obtain ⟨a, ha, hc⟩ := List.mem_flatMap.1 hc
    obtain ⟨m, hm, rfl⟩ := List.mem_map.1 hc
    exact ih a ha m hm
  | _ => exact step _ (List.forall_mem_nil _)

/-- `g` is the field or lies somewhere inside it. -/
inductive Field.Within (g : Field) : Field → Prop
  | self : Within g g
  | child {f c : Field} : c ∈ f.children → Within g c → Within g f

theorem Field.within_iff {g f : Field} : Within g f ↔ f = g ∨ ∃ c ∈ f.children, Within g c := by
  constructor
  · intro h
    cases h with
    | self => exact .inl rfl
    | child hc h => exact .inr ⟨_, hc, h⟩
  · rintro (rfl | ⟨c, hc, h⟩)
    · exact .self
    · exact .child hc h

/-- Each field inside, the field itself included, has the property. -/
def Field.Everywhere (P : Field → Prop) (f : Field) : Prop := ∀ g, Within g f → P g

section
variable {P : Field → Prop} {f c : Field}

theorem Field.everywhere_iff : f.Everywhere P ↔ P f ∧ ∀ c ∈ f.children, c.Everywhere P := by
  constructor
  · exact fun h => ⟨h f .self, fun c hc g hg => h g (.child hc hg)⟩
  · rintro ⟨hf, hc⟩ g hg
    rcases within_iff.1 hg with rfl | ⟨c, hmem, hg⟩
    · exact hf
    · exact hc c hmem g hg

theorem Field.everywhere_int {f : IntField} (h : P (.int f)) : (Field.int f).Everywhere P :=
  everywhere_iff.2 ⟨h, nofun⟩

theorem Field.Everywhere.self (h : f.Everywhere P) : P f := h f .self

theorem Field.Everywhere.child (h : f.Everywhere P) (hc : c ∈ f.children) : c.Everywhere P :=
  (everywhere_iff.1 h).2 c hc

end

end WireProtocol
