import WireProtocol.Dump
import WireProtocol.Proofs.Field.Induction

/-!
# The parts that a dump shows

A dump gives each part of a field a line, with the lines of the parts inside of it below
(`Field.lines_node`), and an optional field is what it holds, if it is present
(`Field.lines_optional`). `Field.rows` says the same of depths and names alone, and
`Field.lines_place` that the lines are those.
-/

set_option autoImplicit false

namespace WireProtocol

/-! ## Parts -/

namespace Field

/-- The named parts that a dump shows below a field, in order. -/
def shownParts : Field → List (String × Field)
  | .list l => l.elements.zipIdx.map fun e => (s!"[{e.2}]", e.1.1)
  | .bitfield b => b.members.map fun m => (m.name, m.field.toField)
  | .bundle b => b.members.map fun m => (m.name, m.field)
  | .variant v =>
    match v.current? with
    | some c => c.bundle.members.map fun m => (m.name, m.field)
    | none => []
  | _ => []

/-- What a dump says of a field behind its name. -/
def caption : Field → String
  | .int f => f.text
  | .enumeration f => f.text
  | .bitmask f => f.text
  | .float f => f.text
  | .text f => Text.quoted f.text
  | .bytes f => bytesText f.data
  | .list l => if l.elements.isEmpty then "[]" else s!"[{l.elements.length}]"
  | .bitfield _ => ""
  | .bundle _ => ""
  | .optional _ => "<missing>"
  | .variant v => (v.current?.map (·.name)).getD "<none>"
  | .unknown data => bytesText data

theorem sizeOf_shownPart_lt {f : Field} {p : String × Field} (h : p ∈ f.shownParts) :
    sizeOf p.2 < sizeOf f := by
  cases f with
  | list l =>
    obtain ⟨e, he, rfl⟩ := List.mem_map.1 h
    exact ListOf.sizeOf_element_lt (List.fst_mem_of_mem_zipIdx he)
  | bitfield b =>
    obtain ⟨m, hm, rfl⟩ := List.mem_map.1 h
    have hsize := List.sizeOf_lt_of_mem hm
    obtain ⟨bytes, bounds, order, members⟩ := b
    obtain ⟨name, bits, field⟩ := m
    cases field <;>
    · simp only [Packable.toField, int.sizeOf_spec, enumeration.sizeOf_spec, bitmask.sizeOf_spec,
        bitfield.sizeOf_spec, Bitfield.mk.sizeOf_spec, BitMember.mk.sizeOf_spec,
        Packable.int.sizeOf_spec, Packable.enumeration.sizeOf_spec,
        Packable.bitmask.sizeOf_spec] at hsize ⊢
      omega
  | bundle b =>
    obtain ⟨m, hm, rfl⟩ := List.mem_map.1 h
    exact Bundle.sizeOf_member_lt hm
  | variant v =>
    simp only [shownParts] at h
    split at h
    · rename_i c hc
      obtain ⟨m, hm, rfl⟩ := List.mem_map.1 h
      exact Nat.lt_trans (Bundle.sizeOf_member_lt hm)
        (Variant.sizeOf_choice_lt (List.mem_of_getElem? hc))
    · cases h
  | _ => cases h

theorem sizeOf_inner_lt {f : Field} {o : Optional Field} (h : f.optional? = some o) :
    sizeOf o.inner < sizeOf f := by
  cases f with
  | optional o' =>
    cases h
    cases o
    simp only [optional.sizeOf_spec, Optional.mk.sizeOf_spec]
    omega
  | _ => cases h

/-- The depth and name of each part that is shown of a field under a name, in order. A part of any
kind has a line of its own in front of those of its parts. An optional field that is present is its
inner field. -/
def rows (depth : Nat) (name : String) (f : Field) : List (Nat × String) :=
  match _h : f.optional? with
  | some o => if o.isPresent then o.inner.rows depth name else [(depth, name)]
  | none => (depth, name) :: f.shownParts.attach.flatMap fun p => p.1.2.rows (depth + 1) p.1.1
termination_by sizeOf f
decreasing_by
  · exact sizeOf_inner_lt _h
  · exact sizeOf_shownPart_lt p.2

/-- Induction along the lines of a dump. -/
theorem inductionOnShownParts {motive : Field → Prop}
    (optional : ∀ o : Optional Field, motive o.inner → motive (.optional o))
    (node : ∀ f : Field, f.optional? = none → (∀ p ∈ f.shownParts, motive p.2) → motive f)
    (f : Field) : motive f := by
  induction hn : sizeOf f using Nat.strongRecOn generalizing f with
  | ind n ih =>
    subst hn
    cases ho : f.optional? with
    | none => exact node f ho fun p hp => ih _ (sizeOf_shownPart_lt hp) _ rfl
    | some o =>
      have hsize := sizeOf_inner_lt ho
      cases f with
      | optional o' =>
        cases ho
        exact optional o (ih _ hsize _ rfl)
      | _ => cases ho

theorem rows_optional (depth : Nat) (name : String) (o : Optional Field) :
    (Field.optional o).rows depth name =
      if o.isPresent then o.inner.rows depth name else [(depth, name)] := by
  rw [rows]
  rfl

theorem rows_node {f : Field} (h : f.optional? = none) (depth : Nat) (name : String) :
    f.rows depth name =
      (depth, name) :: f.shownParts.flatMap fun p => p.2.rows (depth + 1) p.1 := by
  rw [rows]
  split
  · rename_i ho
    rw [h] at ho
    cases ho
  · rw [List.flatMap_subtype (g := fun p => p.2.rows (depth + 1) p.1) fun _ _ => rfl,
      List.unattach_attach]

end Field

/-! ## Lines of composed fields -/

theorem memberLines_eq (depth : Nat) (ms : List (Member Field)) :
    memberLines depth ms = ms.flatMap fun m => m.field.lines depth m.name := by
  induction ms with
  | nil => rfl
  | cons m ms ih => rw [memberLines, ih, List.flatMap_cons]

theorem bundleLines_eq (depth : Nat) (b : Bundle Field) :
    bundleLines depth b = b.members.flatMap fun m => m.field.lines depth m.name := by
  cases b with
  | plain ms => exact memberLines_eq depth ms
  | measured head name length tail trailing =>
    rw [bundleLines, memberLines_eq, memberLines_eq, Bundle.members, List.flatMap_append,
      List.flatMap_cons]
    rfl

theorem elementLines_eq (depth i : Nat) (before : List Line) (es : List (Field × Bytes)) :
    elementLines depth i before es =
      before.reverse ++ (es.zipIdx i).flatMap fun e => e.1.1.lines depth s!"[{e.2}]" := by
  induction es generalizing i before with
  | nil => simp [elementLines]
  | cons e es ih =>
    rw [elementLines, ih, List.zipIdx_cons, List.flatMap_cons, List.reverse_append,
      List.reverse_reverse, List.append_assoc]

theorem choiceLines_eq (depth : Nat) (name : String) (cs : List (Choice Field)) (i : Nat) :
    choiceLines depth name cs i =
      match cs[i]? with
      | some c => ⟨depth, name, c.name⟩ :: bundleLines (depth + 1) c.bundle
      | none => [⟨depth, name, "<none>"⟩] := by
  induction cs generalizing i with
  | nil => rfl
  | cons c cs ih =>
    cases i with
    | zero => rfl
    | succ i => exact ih i

namespace Field

theorem lines_toField (p : Packable) (depth : Nat) (name : String) :
    p.toField.lines depth name = [p.line depth name] := by
  cases p <;> rfl

/-- **A field that is not optional has a line of its own and the lines of its parts below it.** -/
theorem lines_node {f : Field} (h : f.optional? = none) (depth : Nat) (name : String) :
    f.lines depth name =
      ⟨depth, name, f.caption⟩ :: f.shownParts.flatMap fun p => p.2.lines (depth + 1) p.1 := by
  cases f with
  | list l =>
    obtain ⟨prototype, size, elemLength, elements⟩ := l
    rw [lines, caption, shownParts, List.flatMap_map]
    split
    · rename_i hempty
      rw [List.isEmpty_iff.1 hempty]
      rfl
    · rw [elementLines_eq]
      rfl
  | bitfield b =>
    rw [lines, shownParts, List.flatMap_map, List.map_eq_flatMap]
    simp only [lines_toField]
    rfl
  | bundle b =>
    rw [lines, bundleLines_eq, shownParts, List.flatMap_map]
    rfl
  | optional o => cases h
  | variant v =>
    obtain ⟨alternatives, current⟩ := v
    rw [lines, choiceLines_eq]
    simp only [caption, shownParts, Variant.current?]
    cases alternatives[current]? with
    | none => rfl
    | some c =>
      simp only [bundleLines_eq, List.flatMap_map]
      rfl
  | _ => rfl

theorem lines_optional (o : Optional Field) (depth : Nat) (name : String) :
    (Field.optional o).lines depth name =
      if o.isPresent then o.inner.lines depth name
      else [⟨depth, name, (Field.optional o).caption⟩] :=
  rfl

end Field

/-- Where a line stands: its depth and the name of what it shows. -/
def Line.place (l : Line) : Nat × String := (l.depth, l.name)

theorem Field.lines_place (f : Field) (depth : Nat) (name : String) :
    (f.lines depth name).map Line.place = f.rows depth name := by
  induction f using inductionOnShownParts generalizing depth name with
  | optional o ih =>
    rw [lines_optional, rows_optional]
    split
    · exact ih depth name
    · rfl
  | node f h ih =>
    rw [lines_node h, rows_node h, List.map_cons, List.map_flatMap, List.flatMap_def,
      List.flatMap_def, List.map_congr_left fun p hp => ih p hp _ _]
    rfl

end WireProtocol
