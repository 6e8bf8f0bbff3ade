import Mathlib.Data.List.Forall2
import WireProtocol.Field.Build
import WireProtocol.Proofs.Field.RefreshedParts
import WireProtocol.Proofs.Field.Writing

/-!
# Composed fields that are accepted

What the constructors of bundles, bitfields, lists and variants check of their parts: a measured
bundle has the members it is given, with the length in place, the members of a bitfield can be
packed, and the alternatives of a variant have different tags (`Variant.ofBundles?_ok`).
-/

set_option autoImplicit false

namespace WireProtocol

/-! ## Lists of results -/

/-- Each of some inputs succeeds if they do in order, with the results one by one. -/
theorem mapM_eq_ok {ε α β : Type} {f : α → Except ε β} {as : List α} {bs : List β} :
    as.mapM f = .ok bs ↔ List.Forall₂ (fun a b => f a = .ok b) as bs := by
  induction as generalizing bs with
  | nil =>
    rw [List.mapM_nil, pure_eq_ok, List.forall₂_nil_left_iff]
    exact eq_comm
  | cons a as ih =>
    simp only [List.mapM_cons, bind_eq_ok, pure_eq_ok, ih, List.forall₂_cons_left_iff]
    constructor
    · rintro ⟨b, hb, bs, hbs, rfl⟩
      exact ⟨b, bs, hb, hbs, rfl⟩
    · rintro ⟨b, bs, hb, hbs, rfl⟩
      exact ⟨b, hb, bs, hbs, rfl⟩

theorem forall₂_comp {α β γ : Type} {R : α → β → Prop} {S : β → γ → Prop} {T : α → γ → Prop}
    (hT : ∀ a b c, R a b → S b c → T a c) {as : List α} {bs : List β} {cs : List γ}
    (hR : List.Forall₂ R as bs) (hS : List.Forall₂ S bs cs) : List.Forall₂ T as cs := by
  induction hR generalizing cs with
  | nil =>
    cases hS
    exact .nil
  | cons hr _ ih =>
    cases hS with
    | cons hs hS => exact .cons (hT _ _ _ hr hs) (ih hS)

theorem map_eq_of_forall₂ {α β γ : Type} {f : α → γ} {g : β → γ} {as : List α} {bs : List β}
    (h : List.Forall₂ (fun a b => g b = f a) as bs) : as.map f = bs.map g := by
  induction h with
  | nil => rfl
  | cons hab _ ih => rw [List.map_cons, List.map_cons, hab, ih]

/-- One more member of another name. -/
theorem nodup_names_concat {ms : List (Member Field)} {m : Member Field}
    (h : (ms.map (·.name)).Nodup) (hm : m.name ∉ ms.map (·.name)) :
    ((ms ++ [m]).map (·.name)).Nodup := by
  rw [List.map_append]
  exact (List.perm_append_singleton _ _).nodup_iff.2 (List.nodup_cons.2 ⟨hm, h⟩)

/-! ## Constructors -/

theorem Bundle.measured?_ok {members : List (Member Field)} {i : Nat} {b : Bundle Field}
    (h : Bundle.measured? members i = .ok b) :
    List.Forall₂ (Member.Alike Field.Refreshed) members b.members := by
  unfold Bundle.measured? at h
  split at h
  · cases h
  · rename_i name length tail hdrop
    cases h
    have := Bundle.refresh_members (.measured (members.take i) name length tail [])
    rwa [Bundle.members, ← hdrop, List.take_append_drop] at this
  · cases h

/-- Packing keeps the names. -/
theorem packed_names {members : List PackedMember}
    (h : ∀ m ∈ members, m.2.2.packable?.isSome = true) :
    (members.filterMap fun m => m.2.2.packable?.map (BitMember.mk m.1 m.2.1)).map (·.name) =
      members.map (·.1) := by
  induction members with
  | nil => rfl
  | cons m ms ih =>
    obtain ⟨hm, hms⟩ := List.forall_mem_cons.1 h
    obtain ⟨packed, hp⟩ := Option.isSome_iff_exists.1 hm
    simp only [List.filterMap_cons, hp, Option.map_some, List.map_cons, ih hms]

theorem Bitfield.ofMembers?_ok {name : String} {bytes : Nat} {order : ByteOrder}
    {members : List PackedMember} {b : Bitfield}
    (h : Bitfield.ofMembers? name bytes order members = .ok b) :
    b.members.map (·.name) = members.map (·.1) ∧
      ∀ m ∈ members, m.2.2.packable?.isSome = true := by
  unfold Bitfield.ofMembers? at h
  split at h
  swap
  · cases h
  split at h
  · cases h
  rename_i hpack
  rw [List.find?_eq_none] at hpack
  have hpack : ∀ m ∈ members, m.2.2.packable?.isSome = true :=
    fun m hm => Option.isSome_iff_ne_none.2 (by simpa using hpack m hm)
  refine ⟨?_, hpack⟩
  dsimp only at h
  split at h
  · cases h
  split at h
  · cases h
  split at h
  swap
  · cases h
  cases h
  exact packed_names hpack

theorem ListOf.ofPrototype_prototype (prototype : Field) (size : SizePolicy)
    (elemLength : Option IntField) :
    (ListOf.ofPrototype prototype size elemLength).prototype = prototype := by
  cases size <;> rfl

theorem ListOf.ofPrototype_size (prototype : Field) (size : SizePolicy)
    (elemLength : Option IntField) : (ListOf.ofPrototype prototype size elemLength).size = size := by
  cases size <;> rfl

/-- A new list has nothing but copies of the prototype. -/
theorem ListOf.ofPrototype_children {prototype c : Field} {size : SizePolicy}
    {elemLength : Option IntField}
    (h : c ∈ (Field.list (.ofPrototype prototype size elemLength)).children) : c = prototype := by
  cases size with
  | fixed n =>
    simp only [Field.children, ListOf.ofPrototype, List.map_replicate, List.mem_cons,
      List.mem_replicate] at h
    exact h.elim id And.right
  | _ => simpa [Field.children, ListOf.ofPrototype] using h

/-- The choice is the bundle of that name with its tag. -/
def ChoiceOf (a : String × Bundle Field) (c : Choice Field) : Prop :=
  c.name = a.1 ∧ c.bundle = a.2 ∧ a.2.tag? = some c.tag

theorem Choice.ofBundles?_ok {seen : List Int64} {bs : List (String × Bundle Field)}
    {cs : List (Choice Field)} (h : Choice.ofBundles? seen bs = .ok cs) :
    List.Forall₂ ChoiceOf bs cs ∧ (∀ c ∈ cs, c.tag ∉ seen) ∧ (cs.map (·.tag)).Nodup := by
  induction bs generalizing seen cs with
  | nil =>
    cases h
    exact ⟨.nil, List.forall_mem_nil _, List.nodup_nil⟩
  | cons a bs ih =>
    obtain ⟨name, b⟩ := a
    rw [Choice.ofBundles?] at h
    split at h
    · cases h
    rename_i tag htag
    split at h
    · cases h
    rename_i hseen
    simp only [bind_eq_ok, pure_eq_ok] at h
    obtain ⟨cs, hcs, rfl⟩ := h
    obtain ⟨hbs, hnot, hnodup⟩ := ih hcs
    refine ⟨.cons ⟨rfl, rfl, htag⟩ hbs, List.forall_mem_cons.2 ⟨hseen, fun c hc hs => ?_⟩, ?_⟩
    · exact hnot c hc (.tail _ hs)
    · refine List.nodup_cons.2 ⟨fun hmem => ?_, hnodup⟩
      obtain ⟨c, hc, htag⟩ := List.mem_map.1 hmem
      exact hnot c hc (htag ▸ .head _)

/-- The alternatives of a variant have different tags. -/
theorem Variant.ofBundles?_ok {bs : List (String × Bundle Field)} {v : Variant Field}
    (h : Variant.ofBundles? bs = .ok v) :
    List.Forall₂ ChoiceOf bs v.alternatives ∧ (v.alternatives.map (·.tag)).Nodup := by
  unfold Variant.ofBundles? at h
  split at h
  · cases h
  · simp only [bind_eq_ok, pure_eq_ok] at h
    obtain ⟨cs, hcs, rfl⟩ := h
    obtain ⟨hbs, -, hnodup⟩ := Choice.ofBundles?_ok hcs
    exact ⟨hbs, hnodup⟩

end WireProtocol
