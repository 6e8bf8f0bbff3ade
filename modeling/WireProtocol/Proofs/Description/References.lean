import Mathlib.Logic.Relation
import WireProtocol.Description.Types
import WireProtocol.Proofs.Field.Composed

/-!
# What a declared type is made of

A type names at most one declared type, and a declaration names the types of its parts. Resolving a
struct, bitfield or variant resolves each of these with one more type around it:
`TypeTable.Resolves around d f` says which declarations were resolved on the way to the field `f`,
without the bound on the depth (`TypeTable.resolves_of_composedWithin`). What holds of every field
that a description gives is shown by induction over it.
-/

set_option autoImplicit false

namespace WireProtocol

/-! ## References -/

/-- The declared type that a type names, at any depth of lists and optionals. -/
def TypeSpec.reference? : TypeSpec → Option String
  | .list elem _ _ => elem.reference?
  | .optional inner _ => inner.reference?
  | .named name => some name
  | _ => none

/-- The declared types that a declaration names. -/
def TypeDecl.references : TypeDecl → List String
  | .struct d => d.fields.filterMap (·.type.reference?)
  | .bitfield d => d.fields.filterMap (·.type.reference?)
  | .variant d => d.alternatives
  | _ => []

/-- Structs, bitfields and variants have other types inside. -/
def TypeDecl.isComposed : TypeDecl → Bool
  | .struct _ => true
  | .bitfield _ => true
  | .variant _ => true
  | _ => false

theorem TypeDecl.isComposed_of_mem {d : TypeDecl} {name : String} (h : name ∈ d.references) :
    d.isComposed = true := by
  cases d with
  | enumeration d | bitmask d => cases h
  | struct d | bitfield d | variant d => rfl

namespace TypeTable

variable (t : TypeTable)

/-- The declaration of the first name has the second one in it. -/
def RefersTo (a b : String) : Prop := ∃ d, t.find? a = some d ∧ b ∈ d.references

/-- A type leads to that name, through any number of declarations. -/
def Reaches (type : TypeSpec) (name : String) : Prop :=
  ∃ first, type.reference? = some first ∧ Relation.ReflTransGen t.RefersTo first name

variable {t}

theorem find?_name {name : String} {d : TypeDecl} (h : t.find? name = some d) : d.name = name := by
  simpa using List.find?_some h

theorem mem_of_find? {name : String} {d : TypeDecl} (h : t.find? name = some d) : d ∈ t.types :=
  List.mem_of_find?_eq_some h

/-! ## Successful steps -/

theorem inside_eq_ok {α : Type} {around : List String} {name : String}
    {go : List String → Resolved α} {a : α} :
    inside around name go = .ok a ↔ name ∉ around ∧ go (name :: around) = .ok a := by
  unfold inside
  split
  · rename_i h
    exact ⟨nofun, fun hn => absurd h hn.1⟩
  · rename_i h
    exact ⟨fun hg => ⟨h, hg⟩, fun hg => hg.2⟩

theorem reporting_eq_ok {α : Type} {result : Except DefinitionError α} {a : α} :
    reporting result = .ok a ↔ result = .ok a := by
  cases result with
  | error e => exact ⟨nofun, nofun⟩
  | ok b => simp only [reporting, Except.mapError, Except.ok.injEq]

/-- A step that only checks something. -/
theorem check_eq_ok {α : Type} {c : Prop} [Decidable c] {e : DefinitionFailure} {k : Resolved α}
    {a : α} : (if c then (.error e : Resolved PUnit) >>= fun _ => k else k) = .ok a ↔
      ¬ c ∧ k = .ok a := by
  split
  · rename_i h
    exact ⟨nofun, fun hn => absurd h hn.1⟩
  · rename_i h
    exact ⟨fun hk => ⟨h, hk⟩, fun hk => hk.2⟩

/-- The member has the name of the declaration and its field. -/
def DeclaredBy (field : String → FieldDecl → Resolved Field) (owner : String) (d : FieldDecl)
    (m : Member Field) : Prop :=
  m.name = d.name ∧ field (memberPath owner d.name) d = .ok m.field

theorem membersWith_ok {field : String → FieldDecl → Resolved Field} {owner : String}
    {ds : List FieldDecl} {members ms : List (Member Field)} {length index : Option Nat}
    (h : membersWith field owner members length ds = .ok (ms, index)) :
    ∃ new, ms = members ++ new ∧ List.Forall₂ (DeclaredBy field owner) ds new ∧
      ((members.map (·.name)).Nodup → (ms.map (·.name)).Nodup) := by
  induction ds generalizing members length with
  | nil =>
    cases h
    exact ⟨[], (List.append_nil _).symm, .nil, id⟩
  | cons d ds ih =>
    simp only [membersWith, broken, throw, throwThe, MonadExceptOf.throw, check_eq_ok,
      bind_eq_ok] at h
    obtain ⟨-, hnew, -, f, hf, h⟩ := h
    obtain ⟨new, rfl, hds, hnodup⟩ := ih h
    refine ⟨⟨d.name, f⟩ :: new, List.append_assoc _ _ _, .cons ⟨rfl, hf⟩ hds, fun hm => ?_⟩
    exact hnodup (nodup_names_concat hm (by simpa using hnew))

section
variable {composed : TypeDecl → Resolved Field}

/-- The member has the name of the declaration and its field, as refreshing the bundle leaves it. -/
def MemberOf (t : TypeTable) (composed : TypeDecl → Resolved Field) (owner : String) (d : FieldDecl)
    (m : Member Field) : Prop :=
  m.name = d.name ∧ ∃ f, t.fieldWith composed (memberPath owner d.name) d.type d.attrs = .ok f ∧
    f.Refreshed m.field

/-- A struct has the declared members, and their names differ. -/
theorem bundleWith_ok {d : StructDecl} {b : Bundle Field} (h : t.bundleWith composed d = .ok b) :
    List.Forall₂ (t.MemberOf composed d.name) d.fields b.members ∧
      (b.members.map (·.name)).Nodup := by
  simp only [bundleWith, bind_eq_ok] at h
  obtain ⟨⟨ms, index⟩, hms, h⟩ := h
  obtain ⟨_, rfl, hds, hnodup⟩ := membersWith_ok hms
  have hms : List.Forall₂ (Member.Alike Field.Refreshed) ms b.members := by
    cases index with
    | some i => exact Bundle.measured?_ok (reporting_eq_ok.1 h)
    | none =>
      cases h
      exact membersAlike_self fun m _ => .kept m.field
  refine ⟨forall₂_comp (fun d m m' hd hm => ?_) hds hms, ?_⟩
  · obtain ⟨hname, hfield⟩ := hd
    cases hm with
    | mk name hr => exact ⟨hname, _, hfield, hr⟩
  · rw [membersAlike_names hms]
    exact hnodup List.nodup_nil

/-- A bitfield has the declared members, each of a kind that can be packed. -/
theorem bitfieldWith_ok {d : BitfieldDecl} {b : Bitfield} (h : t.bitfieldWith composed d = .ok b) :
    b.members.map (·.name) = d.fields.map (·.name) ∧
      ∀ m ∈ d.fields, ∃ f, t.fieldWith composed (memberPath d.name m.name) m.type m.attrs = .ok f ∧
        f.packable?.isSome = true := by
  simp only [bitfieldWith, bind_eq_ok, mapM_eq_ok] at h
  obtain ⟨bytes, -, members, hms, h⟩ := h
  obtain ⟨hnames, hpack⟩ := Bitfield.ofMembers?_ok h
  have hms : List.Forall₂ (fun m p => p.1 = m.name ∧
      t.fieldWith composed (memberPath d.name m.name) m.type m.attrs = .ok p.2.2)
      d.fields members := by
    refine hms.imp fun m p hm => ?_
    split at hm
    · cases hm
    · simp only [bind_eq_ok, pure_eq_ok] at hm
      obtain ⟨f, hf, rfl⟩ := hm
      exact ⟨rfl, hf⟩
  refine ⟨hnames.trans (map_eq_of_forall₂ (hms.imp fun _ _ h => h.1)).symm, fun m hm => ?_⟩
  obtain ⟨p, hp, -, hf⟩ := forall₂_mem_left hms hm
  exact ⟨p.2.2, hf, hpack p hp⟩

/-- How a field comes from a type: it is a scalar, a list or optional of the field of a type, or the
field of a declared struct, bitfield or variant. -/
inductive Made (t : TypeTable) (composed : TypeDecl → Resolved Field) : TypeSpec → Field → Prop
  | scalar {type : TypeSpec} {f : Field} (scalar : f.isScalar = true)
      (reference : ∀ name, type.reference? = some name →
        ∃ d, t.find? name = some d ∧ d.isComposed = false) : Made t composed type f
  | list {elem : TypeSpec} {size : SizeSpec} {elemLength : Option IntSpec} {prototype : Field}
      {path : String} {policy : SizePolicy} (inner : Made t composed elem prototype)
      (bounded : t.size path prototype.weight size = .ok policy) :
      Made t composed (.list elem size elemLength)
        (.list (.ofPrototype prototype policy (elemLength.map t.int)))
  | optional {inner : TypeSpec} {f : Field} (mode : OptionalMode) (inside : Made t composed inner f) :
      Made t composed (.optional inner mode) (.optional (.ofField f mode))
  | composed {name : String} {d : TypeDecl} {f : Field} (declared : t.find? name = some d)
      (isComposed : d.isComposed = true) (resolved : composed d = .ok f) :
      Made t composed (.named name) f

theorem fieldWith_made {path : String} {type : TypeSpec} {a : FieldAttrs} {f : Field}
    (h : t.fieldWith composed path type a = .ok f) : t.Made composed type f := by
  induction type generalizing a f with
  | int s | float precision =>
    simp only [fieldWith, bind_eq_ok, pure_eq_ok] at h
    obtain ⟨_, -, rfl⟩ := h
    exact .scalar rfl nofun
  | text size | bytes size =>
    simp only [fieldWith, bind_eq_ok] at h
    obtain ⟨_, -, h⟩ := h
    split at h <;> cases h <;> exact .scalar rfl nofun
  | list elem size elemLength ih =>
    simp only [fieldWith, bind_eq_ok, pure_eq_ok] at h
    obtain ⟨prototype, hp, size, hsize, rfl⟩ := h
    exact .list (ih hp) hsize
  | optional inner mode ih =>
    simp only [fieldWith, bind_eq_ok, pure_eq_ok] at h
    obtain ⟨f, hf, rfl⟩ := h
    exact .optional mode (ih hf)
  | named name =>
    simp only [fieldWith] at h
    cases hd : t.find? name with
    | none =>
      rw [hd] at h
      cases h
    | some d =>
      rw [hd] at h
      cases d with
      | enumeration d | bitmask d =>
        simp only [bind_eq_ok, pure_eq_ok] at h
        obtain ⟨_, -, rfl⟩ := h
        refine .scalar rfl ?_
        rintro _ ⟨⟩
        exact ⟨_, hd, rfl⟩
      | struct d | bitfield d | variant d => exact .composed hd rfl h

/-- The field of a type is the one of the type that it names, or has it inside. -/
theorem Made.reference {type : TypeSpec} {f : Field} {name : String}
    (h : t.Made composed type f) (hr : type.reference? = some name) :
    ∃ d, t.find? name = some d ∧
      (d.isComposed = true → ∃ g, composed d = .ok g ∧ Field.Within g f) := by
  induction h with
  | scalar _ reference =>
    obtain ⟨d, hd, hnot⟩ := reference name hr
    exact ⟨d, hd, fun h => absurd (hnot.symm.trans h) Bool.false_ne_true⟩
  | list _ _ ih =>
    obtain ⟨d, hd, hc⟩ := ih hr
    refine ⟨d, hd, fun hcomposed => ?_⟩
    obtain ⟨g, hg, hw⟩ := hc hcomposed
    refine ⟨g, hg, .child ?_ hw⟩
    rw [Field.children, ListOf.ofPrototype_prototype]
    exact .head _
  | optional _ _ ih =>
    obtain ⟨d, hd, hc⟩ := ih hr
    refine ⟨d, hd, fun hcomposed => ?_⟩
    obtain ⟨g, hg, hw⟩ := hc hcomposed
    exact ⟨g, hg, .child (.head _) hw⟩
  | composed hd _ hf =>
    cases hr
    exact ⟨_, hd, fun _ => ⟨_, hf, .self⟩⟩

/-- An alternative of a variant; `bundle` gives the bundles of structs. -/
def alternativeWith (t : TypeTable) (bundle : StructDecl → Resolved (Bundle Field))
    (variant name : String) : Resolved (String × Bundle Field) :=
  match t.find? name with
  | some (.struct s) => return (name, ← bundle s)
  | some _ => broken (.notAStruct variant name)
  | none => throw (.reported (.unknownRef .struct name))

/-- The alternative of that name is the bundle of the struct that it names. -/
def AlternativeOf (t : TypeTable) (composed : TypeDecl → Resolved Field) (name : String)
    (a : String × Bundle Field) : Prop :=
  a.1 = name ∧ ∃ s, t.find? name = some (.struct s) ∧ composed (.struct s) = .ok (.bundle a.2)

end

/-! ## Everything that resolving a declaration resolves -/

/-- Resolving the declaration inside those of some names gives the field, and so does resolving
each declaration in it. -/
inductive Resolves (t : TypeTable) : List String → TypeDecl → Field → Prop
  | struct {around : List String} {d : StructDecl} {b : Bundle Field}
      {composed : TypeDecl → Resolved Field} (fresh : d.name ∉ around)
      (inner : ∀ e g, composed e = .ok g → Resolves t (d.name :: around) e g)
      (built : t.bundleWith composed d = .ok b) : Resolves t around (.struct d) (.bundle b)
  | bitfield {around : List String} {d : BitfieldDecl} {b : Bitfield}
      {composed : TypeDecl → Resolved Field} (fresh : d.name ∉ around)
      (inner : ∀ e g, composed e = .ok g → Resolves t (d.name :: around) e g)
      (built : t.bitfieldWith composed d = .ok b) : Resolves t around (.bitfield d) (.bitfield b)
  | variant {around : List String} {d : VariantDecl} {v : Variant Field}
      {bs : List (String × Bundle Field)}
      {composed : TypeDecl → Resolved Field} (fresh : d.name ∉ around)
      (inner : ∀ e g, composed e = .ok g → Resolves t (d.name :: around) e g)
      (alternatives : List.Forall₂ (t.AlternativeOf composed) d.alternatives bs)
      (built : Variant.ofBundles? bs = .ok v) : Resolves t around (.variant d) (.variant v)

theorem composedWithin_struct (depth : Nat) (around : List String) (d : StructDecl) :
    t.composedWithin depth around (.struct d) = (t.structWithin depth around d).map .bundle := by
  cases depth with
  | zero => rfl
  | succ depth =>
    simp only [composedWithin, structWithin, inside]
    split
    · rfl
    · cases t.bundleWith (t.composedWithin depth (d.name :: around)) d <;> rfl

theorem composedWithin_variant (depth : Nat) (around : List String) (d : VariantDecl) :
    t.composedWithin (depth + 1) around (.variant d) = inside around d.name fun around => do
      let alternatives ← d.alternatives.mapM
        (t.alternativeWith (t.structWithin depth around) d.name)
      return .variant (← reporting (Variant.ofBundles? alternatives)) := by
  rw [composedWithin]
  rfl

theorem alternativeWith_ok {bundle : StructDecl → Resolved (Bundle Field)} {variant name : String}
    {a : String × Bundle Field} (h : t.alternativeWith bundle variant name = .ok a) :
    a.1 = name ∧ ∃ s, t.find? name = some (.struct s) ∧ bundle s = .ok a.2 := by
  unfold alternativeWith at h
  split at h
  · rename_i s hs
    simp only [bind_eq_ok, pure_eq_ok] at h
    obtain ⟨b, hb, rfl⟩ := h
    exact ⟨rfl, s, hs, hb⟩
  · cases h
  · cases h

theorem resolves_of_composedWithin {depth : Nat} {around : List String} {d : TypeDecl} {f : Field}
    (h : t.composedWithin depth around d = .ok f) : t.Resolves around d f := by
  induction depth generalizing around d f with
  | zero =>
    rw [composedWithin] at h
    cases h
  | succ depth ih =>
    cases d with
    | enumeration d | bitmask d =>
      rw [composedWithin] at h
      · cases h
      all_goals nofun
    | struct d =>
      simp only [composedWithin, inside_eq_ok, bind_eq_ok, pure_eq_ok] at h
      obtain ⟨hd, b, hb, rfl⟩ := h
      exact .struct hd (fun _ _ => ih) hb
    | bitfield d =>
      simp only [composedWithin, inside_eq_ok, bind_eq_ok, pure_eq_ok] at h
      obtain ⟨hd, b, hb, rfl⟩ := h
      exact .bitfield hd (fun _ _ => ih) hb
    | variant d =>
      simp only [composedWithin_variant, inside_eq_ok, bind_eq_ok, pure_eq_ok, mapM_eq_ok] at h
      obtain ⟨hd, bs, hbs, v, hv, rfl⟩ := h
      refine .variant hd (fun _ _ => ih) (hbs.imp fun name a ha => ?_) (reporting_eq_ok.1 hv)
      obtain ⟨hname, s, hs, hb⟩ := alternativeWith_ok ha
      exact ⟨hname, s, hs, (composedWithin_struct _ _ s).trans (by rw [hb]; rfl)⟩

theorem Resolves.notMem {around : List String} {d : TypeDecl} {f : Field}
    (h : t.Resolves around d f) : d.name ∉ around := by
  cases h <;> assumption

/-- The name is that of a declared type, and if it is a struct, bitfield or variant, it is resolved
inside those types and its bitfields are inside the field. -/
def ResolvesIn (t : TypeTable) (around : List String) (name : String) (f : Field) : Prop :=
  ∃ d, t.find? name = some d ∧ (d.isComposed = true → ∃ g, t.Resolves around d g ∧
    ∀ b, Field.Within (.bitfield b) g → Field.Within (.bitfield b) f)

/-- A declaration that is named inside another one is resolved inside it. -/
theorem Resolves.reference {around : List String} {d : TypeDecl} {f : Field} {name : String}
    (h : t.Resolves around d f) (hn : name ∈ d.references) :
    t.ResolvesIn (d.name :: around) name f := by
  cases h with
  | struct fresh inner built =>
    obtain ⟨m, hm, hr⟩ := List.mem_filterMap.1 hn
    obtain ⟨m', hm', -, g, hg, hrefreshed⟩ := forall₂_mem_left (bundleWith_ok built).1 hm
    obtain ⟨e, he, hc⟩ := (fieldWith_made hg).reference hr
    refine ⟨e, he, fun hcomposed => ?_⟩
    obtain ⟨k, hk, hw⟩ := hc hcomposed
    refine ⟨k, inner e k hk, fun b hb => .child (List.mem_map_of_mem hm') ?_⟩
    exact hrefreshed.within_bitfield.2 (hb.trans hw)
  | bitfield fresh inner built =>
    obtain ⟨m, hm, hr⟩ := List.mem_filterMap.1 hn
    obtain ⟨g, hg, hpack⟩ := (bitfieldWith_ok built).2 m hm
    obtain ⟨e, he, hc⟩ := (fieldWith_made hg).reference hr
    refine ⟨e, he, fun hcomposed => ?_⟩
    obtain ⟨k, hk, hw⟩ := hc hcomposed
    -- what is inside an integer, enumeration or bitmask is no bitfield
    exact ⟨k, inner e k hk, fun b hb => absurd (hb.trans hw) (Field.not_within_packable hpack)⟩
  | variant fresh inner alternatives built =>
    obtain ⟨a, ha, -, s, hs, hb⟩ := forall₂_mem_left alternatives hn
    obtain ⟨c, hc, -, hbundle, -⟩ := forall₂_mem_left (Variant.ofBundles?_ok built).1 ha
    refine ⟨_, hs, fun _ => ⟨_, inner _ _ hb, fun b hw => ?_⟩⟩
    rcases Field.within_iff.1 hw with h | ⟨g, hg, hw⟩
    · cases h
    · rw [← hbundle] at hg
      exact .child (List.mem_flatMap_of_mem hc hg) hw

/-- **A type that is reached from a resolved one** is resolved inside those on the way. -/
theorem ResolvesIn.reaches {around : List String} {first name : String} {f : Field}
    (h : t.ResolvesIn around first f) (hn : Relation.ReflTransGen t.RefersTo first name) :
    ∃ inside, around ⊆ inside ∧ t.ResolvesIn inside name f := by
  induction hn with
  | refl => exact ⟨around, List.Subset.refl _, h⟩
  | tail _ hstep ih =>
    obtain ⟨inside, hsub, d, hd, hc⟩ := ih
    obtain ⟨d', hd', hnext⟩ := hstep
    obtain rfl : d = d' := Option.some.inj (hd.symm.trans hd')
    obtain ⟨g, hg, hw⟩ := hc (TypeDecl.isComposed_of_mem hnext)
    obtain ⟨e, he, hce⟩ := hg.reference hnext
    refine ⟨d.name :: inside, List.Subset.trans hsub (List.subset_cons_self _ _), e, he,
      fun hcomposed => ?_⟩
    obtain ⟨k, hk, hwk⟩ := hce hcomposed
    exact ⟨k, hk, fun b hb => hw b (hwk b hb)⟩

/-- **A type that the type of a field reaches** is resolved on the way to the field. -/
theorem field_reaches {path name : String} {type : TypeSpec} {a : FieldAttrs} {f : Field}
    (h : t.field path type a = .ok f) (hn : t.Reaches type name) :
    ∃ inside, t.ResolvesIn inside name f := by
  obtain ⟨first, hfirst, hpath⟩ := hn
  obtain ⟨d, hd, hc⟩ := (fieldWith_made h).reference hfirst
  have hin : t.ResolvesIn [] first f := by
    refine ⟨d, hd, fun hcomposed => ?_⟩
    obtain ⟨g, hg, hw⟩ := hc hcomposed
    exact ⟨g, resolves_of_composedWithin hg, fun b hb => hb.trans hw⟩
  obtain ⟨inside, -, hinside⟩ := hin.reaches hpath
  exact ⟨inside, hinside⟩

/-- **No type that the type of a field reaches has itself inside.** -/
theorem field_not_cyclic {path name : String} {type : TypeSpec} {a : FieldAttrs} {f : Field}
    (h : t.field path type a = .ok f) (hn : t.Reaches type name) :
    ¬ Relation.TransGen t.RefersTo name name := by
  intro hcycle
  obtain ⟨inside, d, hd, hc⟩ := field_reaches h hn
  obtain ⟨next, ⟨d', hd', hnext⟩, hpath⟩ := Relation.TransGen.head'_iff.1 hcycle
  obtain rfl : d = d' := Option.some.inj (hd.symm.trans hd')
  have hcomposed := TypeDecl.isComposed_of_mem hnext
  obtain ⟨g, hg, -⟩ := hc hcomposed
  -- on the way back to the type, it is one of those around it
  obtain ⟨inside', hsub, e, he, hce⟩ := (hg.reference hnext).reaches hpath
  obtain rfl : d = e := Option.some.inj (hd.symm.trans he)
  obtain ⟨g', hg', -⟩ := hce hcomposed
  exact hg'.notMem (hsub (.head _))

end TypeTable

end WireProtocol
