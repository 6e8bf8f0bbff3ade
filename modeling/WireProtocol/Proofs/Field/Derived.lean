import WireProtocol.Proofs.Field.Ready
import WireProtocol.Proofs.Field.Refresh

/-!
# Derived lengths of the parts that are sent

A field is fresh if all length members that it sends hold the count of the bytes behind them, at
any depth (`Field.fresh_iff`). So what refreshing finds to do, and what it says that it has changed,
can be read off the values of these members: `Field.LengthAt` leads to one of them by the indices of
the parts on the way, and refreshing reports a change exactly if a length at some place is another
one afterwards (`Field.refresh_changed`).
-/

set_option autoImplicit false

namespace WireProtocol

/-! ## Bundles of a field -/

/-- The bundle that a field is or, if it is a variant, that it has chosen. -/
def Field.bundle? : Field → Option (Bundle Field)
  | .bundle b => some b
  | .variant v => v.current?.map (·.bundle)
  | _ => none

/-- The length member of a bundle. -/
def Bundle.length? : Bundle Field → Option IntField
  | .plain _ => none
  | .measured _ _ length _ _ => some length

/-- The length member holds the count of the bytes that follow it, as they are predicted and, if the
members behind it can be written, as they are written. -/
def Bundle.LengthExact : Bundle Field → Prop
  | .plain _ => True
  | .measured _ _ length tail trailing =>
    length.value = Int64.ofNat (membersLength tail + trailing.length) ∧
      ∀ bytes, writeMembers tail = .ok bytes →
        length.value = Int64.ofNat (bytes ++ trailing).length

/-- The length member of the field's own bundle, if it has one, is exact. -/
def Field.LengthExact (f : Field) : Prop := ∀ b, f.bundle? = some b → b.LengthExact

theorem Field.lengthExact_of_none {f : Field} (h : f.bundle? = none) : f.LengthExact := by
  intro b hb
  cases h.symm.trans hb

theorem Field.sentParts_of_bundle? {f : Field} {b : Bundle Field} (h : f.bundle? = some b) :
    f.sentParts = b.members.map (·.field) := by
  cases f with
  | bundle b' =>
    cases h
    rfl
  | variant v =>
    obtain ⟨c, hc, rfl⟩ := Option.map_eq_some_iff.1 h
    simp only [sentParts, hc, Option.elim_some]
  | _ => cases h

/-- The predicted count decides, as it is the written one. -/
theorem Bundle.lengthExact_measured {head tail : List (Member Field)} {name : String}
    {length : IntField} {trailing : Bytes} :
    (Bundle.measured head name length tail trailing).LengthExact ↔
      length.value = Int64.ofNat (membersLength tail + trailing.length) := by
  refine ⟨fun h => h.1, fun h => ⟨h, fun bytes hw => ?_⟩⟩
  rw [List.length_append, membersLength_write hw]
  exact h

theorem Field.mem_children_of_sentParts {f c : Field} (h : c ∈ f.sentParts) : c ∈ f.children := by
  cases f with
  | list l => exact .tail _ h
  | bundle b => exact h
  | optional o =>
    obtain ⟨inner, default, mode⟩ := o
    cases mode with
    | present =>
      rcases h with _ | ⟨_, ⟨⟩⟩
      exact .head _
    | missing | tentative => cases h
  | variant v =>
    simp only [sentParts] at h
    cases hc : v.current? with
    | none =>
      rw [hc] at h
      cases h
    | some c' =>
      rw [hc] at h
      exact List.mem_flatMap.2 ⟨c', List.mem_of_getElem? hc, h⟩
  | _ => cases h

/-! ## Fresh fields -/

theorem Bundle.fresh_iff {b : Bundle Field} :
    b.Fresh ↔ b.LengthExact ∧ ∀ m ∈ b.members, m.field.Fresh := by
  refine ⟨fun h => ⟨?_, h.member⟩, fun ⟨hl, hms⟩ => ?_⟩
  · cases b with
    | plain ms => trivial
    | measured head name length tail trailing => exact lengthExact_measured.2 h.measured
  · cases b with
    | plain ms => exact fresh_plain.2 hms
    | measured head name length tail trailing =>
      have hhead : ∀ m ∈ head, m.field.Fresh := fun m hm => hms m (List.mem_append_left _ hm)
      have htail : ∀ m ∈ tail, m.field.Fresh := fun m hm =>
        hms m (List.mem_append_right _ (.tail _ hm))
      refine fresh_measured.2 ⟨hhead, htail, ?_⟩
      rw [refreshMembers_of_eq fun m hm => (htail m hm).refresh_eq]
      exact lengthExact_measured.1 hl

/-- A field is fresh if its own length is exact and the parts that it sends are fresh. -/
theorem Field.fresh_iff_sentParts {f : Field} :
    f.Fresh ↔ f.LengthExact ∧ ∀ c ∈ f.sentParts, c.Fresh := by
  cases f with
  | list l =>
    rw [fresh_list]
    exact ⟨fun h => ⟨lengthExact_of_none rfl, List.forall_mem_map.2 h⟩,
      fun h => List.forall_mem_map.1 h.2⟩
  | bundle b =>
    rw [fresh_bundle, Bundle.fresh_iff]
    refine and_congr ⟨?_, fun h => h b rfl⟩ List.forall_mem_map.symm
    rintro h _ ⟨⟩
    exact h
  | optional o =>
    rw [fresh_optional]
    obtain ⟨inner, default, mode⟩ := o
    cases mode with
    | present => exact ⟨fun h => ⟨lengthExact_of_none rfl, List.forall_mem_singleton.2 (h rfl)⟩,
        fun h _ => List.forall_mem_singleton.1 h.2⟩
    | missing | tentative => exact ⟨fun _ => ⟨lengthExact_of_none rfl, List.forall_mem_nil _⟩,
        fun _ => nofun⟩
  | variant v =>
    rw [fresh_variant]
    cases hc : v.current? with
    | none => simp [LengthExact, Field.bundle?, sentParts, hc]
    | some c => simp [LengthExact, Field.bundle?, sentParts, hc, Bundle.fresh_iff]
  | _ => exact ⟨fun _ => ⟨lengthExact_of_none rfl, List.forall_mem_nil _⟩, fun _ => rfl⟩

/-- **A field is fresh exactly if all lengths that it sends are exact.** -/
theorem Field.fresh_iff {f : Field} : f.Fresh ↔ ∀ g, Field.Sends g f → g.LengthExact := by
  constructor
  · intro h g hg
    induction hg with
    | self => exact (fresh_iff_sentParts.1 h).1
    | part hc _ ih => exact ih ((fresh_iff_sentParts.1 h).2 _ hc)
  · intro h
    induction f using Field.inductionOnChildren with
    | step f ih =>
      refine fresh_iff_sentParts.2 ⟨h f .self, fun c hc => ?_⟩
      exact ih c (mem_children_of_sentParts hc) fun g hg => h g (.part hc hg)

/-! ## Lengths that refreshing changes -/

/-- The length member that the indices of parts lead to has that value. -/
inductive Field.LengthAt (v : Int64) : Field → List Nat → Prop
  | own {f : Field} {b : Bundle Field} {p : IntField} : f.bundle? = some b → b.length? = some p →
    p.value = v → LengthAt v f []
  | part {f c : Field} {i : Nat} {path : List Nat} : f.sentParts[i]? = some c →
    LengthAt v c path → LengthAt v f (i :: path)

/-- A length at some place is another one in the second field. -/
def Field.LengthChanged (f f' : Field) : Prop :=
  ∃ path v v', v ≠ v' ∧ f.LengthAt v path ∧ f'.LengthAt v' path

theorem Field.LengthAt.unique {f : Field} {v v' : Int64} {path : List Nat} (h : f.LengthAt v path)
    (h' : f.LengthAt v' path) : v = v' := by
  induction h with
  | own hb hp hv =>
    cases h' with
    | own hb' hp' hv' =>
      cases hb.symm.trans hb'
      cases hp.symm.trans hp'
      exact hv.symm.trans hv'
  | part hc _ ih =>
    cases h' with
    | part hc' h' =>
      cases hc.symm.trans hc'
      exact ih h'

theorem Field.bundle?_refresh (f : Field) :
    f.refresh.1.bundle? = f.bundle?.map fun b => (refreshBundle b).1 := by
  cases f with
  | optional o =>
    obtain ⟨inner, default, mode⟩ := o
    cases mode <;> rfl
  | variant v =>
    obtain ⟨alternatives, current⟩ := v
    simp only [Field.refresh, refreshChoice_eq, onFirst, Field.bundle?, Variant.current?,
      List.getElem?_modify_eq]
    cases alternatives[current]? <;> rfl
  | _ => rfl

theorem refreshMembers_parts (ms : List (Member Field)) :
    List.Forall₂ (fun m m' => m.field.Fresh ∨ m'.field = m.field.refresh.1) ms
      (refreshMembers ms).1 := by
  rw [refreshMembers_eq]
  exact List.forall₂_map_right_iff.2 (List.forall₂_same.2 fun m _ => .inr rfl)

theorem refreshBundle_parts (b : Bundle Field) :
    List.Forall₂ (fun m m' => m.field.Fresh ∨ m'.field = m.field.refresh.1) b.members
      (refreshBundle b).1.members := by
  cases b with
  | plain ms => exact refreshMembers_parts ms
  | measured head name length tail trailing =>
    exact List.rel_append (refreshMembers_parts head)
      (.cons (.inl rfl) (refreshMembers_parts tail))

/-- The parts that a refreshed field sends are refreshed, apart from length members, which are fresh
by themselves. -/
theorem Field.refresh_sentParts (f : Field) :
    List.Forall₂ (fun c c' => c.Fresh ∨ c' = c.refresh.1) f.sentParts f.refresh.1.sentParts := by
  have hmembers {b : Bundle Field} : List.Forall₂ (fun c c' => c.Fresh ∨ c' = c.refresh.1)
      (b.members.map (·.field)) ((refreshBundle b).1.members.map (·.field)) :=
    List.forall₂_map_left_iff.2 (List.forall₂_map_right_iff.2 (refreshBundle_parts b))
  cases f with
  | list l =>
    obtain ⟨prototype, size, elemLength, elements⟩ := l
    simp only [refresh, refreshElements_eq, onFirst, sentParts, List.reverse_nil, List.nil_append,
      List.map_map]
    exact List.forall₂_map_left_iff.2 (List.forall₂_map_right_iff.2
      (List.forall₂_same.2 fun e _ => .inr rfl))
  | bundle b => exact hmembers
  | optional o =>
    obtain ⟨inner, default, mode⟩ := o
    cases mode with
    | present => exact .cons (.inr rfl) .nil
    | missing | tentative => exact .nil
  | variant v =>
    obtain ⟨alternatives, current⟩ := v
    simp only [refresh, refreshChoice_eq, onFirst, sentParts, Variant.current?,
      List.getElem?_modify_eq]
    cases alternatives[current]? with
    | none => exact .nil
    | some c => exact hmembers
  | _ => exact .nil

/-- A length that is not exact is another one in the refreshed bundle, if the members are fresh. -/
theorem Bundle.refresh_length {b : Bundle Field} (h : ¬ b.LengthExact)
    (hms : ∀ m ∈ b.members, m.field.Fresh) :
    ∃ p p', b.length? = some p ∧ (refreshBundle b).1.length? = some p' ∧ p.value ≠ p'.value := by
  cases b with
  | plain ms => exact absurd trivial h
  | measured head name length tail trailing =>
    have htail : (refreshMembers tail).1 = tail := refreshMembers_of_eq fun m hm =>
      (hms m (List.mem_append_right _ (.tail _ hm))).refresh_eq
    refine ⟨length, _, rfl, rfl, ?_⟩
    rw [htail, IntField.refreshed_eq]
    exact fun heq => h (lengthExact_measured.2 heq)

/-- **Refreshing reports a change** exactly if a length at some place is another one afterwards. -/
theorem Field.refresh_changed (f : Field) : f.refresh.2 = true ↔ f.LengthChanged f.refresh.1 := by
  constructor
  · intro h
    replace h : ¬ f.Fresh := by simp [Fresh, h]
    induction f using Field.inductionOnChildren with
    | step f ih =>
      by_cases hparts : ∀ c ∈ f.sentParts, c.Fresh
      · have hown : ¬ f.LengthExact := fun hl => h (fresh_iff_sentParts.2 ⟨hl, hparts⟩)
        obtain ⟨b, hb, hl⟩ : ∃ b, f.bundle? = some b ∧ ¬ b.LengthExact := by
          simpa [LengthExact] using hown
        have hms : ∀ m ∈ b.members, m.field.Fresh := by
          rw [sentParts_of_bundle? hb] at hparts
          exact List.forall_mem_map.1 hparts
        obtain ⟨p, p', hp, hp', hne⟩ := Bundle.refresh_length hl hms
        have hb' : f.refresh.1.bundle? = some (refreshBundle b).1 := by rw [bundle?_refresh, hb]; rfl
        exact ⟨[], _, _, hne, .own hb hp rfl, .own hb' hp' rfl⟩
      · obtain ⟨c, hc, hfresh⟩ : ∃ c ∈ f.sentParts, ¬ c.Fresh := by simpa using hparts
        obtain ⟨path, v, v', hne, hv, hv'⟩ := ih c (mem_children_of_sentParts hc) hfresh
        obtain ⟨i, hi⟩ := List.getElem?_of_mem hc
        obtain ⟨c', hi', hc'⟩ := forall₂_getElem? f.refresh_sentParts.flip hi
        rcases hc' with hc' | rfl
        · exact absurd hc' hfresh
        · exact ⟨i :: path, v, v', hne, .part hi hv, .part hi' hv'⟩
  · rintro ⟨path, v, v', hne, hv, hv'⟩
    by_contra hf
    have hfresh : f.Fresh := by simpa [Fresh] using hf
    rw [hfresh.refresh_eq] at hv'
    exact hne (hv.unique hv')

end WireProtocol
