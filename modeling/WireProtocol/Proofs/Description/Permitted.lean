import WireProtocol.Proofs.Description.Declared

/-!
# What resolving permits

Every field of a resolved description, and every field inside it, keeps the rules that resolving
checks (`Field.Permitted`), and the bitfields inside are those of the declared bitfields that its
type reaches (`TypeTable.field_bitfields`). Neither changes when the presence rules of a message
refresh the field.
-/

set_option autoImplicit false

namespace WireProtocol

/-! ## Rules for every field inside -/

/-- The rules of resolving: a fixed number of elements is bounded by their weight, the members of a
bundle and the alternatives of a variant have different names, and no bytes are opaque. -/
def Field.Permitted : Field → Prop
  | .list l => ∀ n, l.size = .fixed n → n * l.prototype.weight ≤ fixedSizeLimit
  | .bundle b => (b.members.map (·.name)).Nodup
  | .variant v => (v.alternatives.map (·.name)).Nodup ∧
      ∀ c ∈ v.alternatives, (c.bundle.members.map (·.name)).Nodup
  | .unknown _ => False
  | _ => True

section
variable {P : Field → Prop} {f : Field}

/-- What refreshing a field keeps, it keeps for everything inside. -/
theorem Field.Everywhere.refresh (hint : ∀ f, P (.int f)) (hrefresh : ∀ f, P f → P f.refresh.1)
    (h : f.Everywhere P) : f.refresh.1.Everywhere P := by
  induction f using Field.inductionOnChildren with
  | step f ih =>
  obtain ⟨hf, hchildren⟩ := everywhere_iff.1 h
  refine everywhere_iff.2 ⟨hrefresh f hf, fun c' hc' => ?_⟩
  obtain ⟨_, hc, hr⟩ := forall₂_mem_right f.refresh_children hc'
  cases hr with
  | kept => exact hchildren _ hc
  | refresh => exact ih _ hc (hchildren _ hc)
  | length => exact everywhere_int (hint _)

end

/-! ## Refreshing -/

/-- Alternatives that are related one by one have the same names, and so have their members. -/
theorem choicesAlike_names {R : Field → Field → Prop} (hl : ∀ f v, R (.int f) (.int (f.withValue v)))
    {cs cs' : List (Choice Field)} (h : List.Forall₂ (Choice.Alike R) cs cs') :
    List.Forall₂ (fun c c' => c'.name = c.name ∧
      c'.bundle.members.map (·.name) = c.bundle.members.map (·.name)) cs cs' := by
  refine h.imp fun c c' hc => ?_
  cases hc with
  | mk name tag hb => exact ⟨rfl, membersAlike_names (hb.members hl)⟩

theorem Field.Permitted.refresh {f : Field} (h : f.Permitted) : f.refresh.1.Permitted := by
  cases f with
  | list l => exact h
  | bundle b =>
    have hnames := membersAlike_names b.refresh_members
    exact (congrArg List.Nodup hnames).mpr h
  | variant v =>
    obtain ⟨alternatives, current⟩ := v
    obtain ⟨hnames, hmembers⟩ := h
    have hcs := choicesAlike_names .length (refreshChoice_refreshed alternatives current)
    refine ⟨?_, fun c' hc' => ?_⟩
    · rwa [← map_eq_of_forall₂ (hcs.imp fun _ _ hc => hc.1)]
    · obtain ⟨c, hc, -, heq⟩ := forall₂_mem_right hcs hc'
      rw [heq]
      exact hmembers c hc
  | optional o =>
    obtain ⟨inner, default, mode⟩ := o
    cases mode <;> trivial
  | unknown data => exact h
  | _ => trivial

theorem Field.Everywhere.refresh_permitted {f : Field} (h : f.Everywhere Permitted) :
    f.refresh.1.Everywhere Permitted :=
  h.refresh (fun _ => trivial) fun _ => Permitted.refresh

theorem Field.Refreshed.everywhere_permitted {f g : Field} (hr : f.Refreshed g)
    (h : f.Everywhere Permitted) : g.Everywhere Permitted := by
  cases hr with
  | kept => exact h
  | refresh => exact h.refresh_permitted
  | length => exact everywhere_int trivial

theorem Field.everywhere_inMode {f : Field} (mode : Option OptionalMode)
    (h : f.Everywhere Permitted) : (f.inMode mode).1.Everywhere Permitted := by
  obtain ⟨hf, hc⟩ := everywhere_iff.1 h
  refine everywhere_iff.2 ⟨?_, by rwa [inMode_children]⟩
  cases mode with
  | none => cases f <;> exact hf
  | some mode =>
    cases f with
    | optional o =>
      rw [inMode_optional]
      trivial
    | _ => exact hf

theorem Field.everywhere_optional {f : Field} (mode : OptionalMode) (h : f.Everywhere Permitted) :
    (Field.optional (.ofField f mode)).Everywhere Permitted := by
  refine everywhere_iff.2 ⟨trivial, fun c hc => ?_⟩
  obtain rfl : c = f := by simpa [children, Optional.ofField] using hc
  exact h

/-- **The rules of a message keep what resolving permits.** -/
theorem Field.Becomes.everywhere_permitted {f g : Field} (hb : f.Becomes g)
    (h : f.Everywhere Permitted) : g.Everywhere Permitted := by
  induction hb with
  | kept => exact h
  | optional => exact everywhere_optional .missing h
  | refresh mode _ ih => exact (everywhere_inMode mode ih).refresh_permitted

namespace TypeTable

variable {t : TypeTable} {composed : TypeDecl → Resolved Field}

/-! ## Resolving -/

theorem size_fixed_ok {path : String} {weight n : Nat} {size : SizeSpec}
    (h : t.size path weight size = .ok (.fixed n)) : n * weight ≤ fixedSizeLimit := by
  unfold TypeTable.size at h
  split at h
  · split at h
    · cases h
    · cases h
      omega
  all_goals cases h

theorem Made.permitted (hc : ∀ d g, composed d = .ok g → g.Everywhere Field.Permitted)
    {type : TypeSpec} {f : Field} (h : t.Made composed type f) : f.Everywhere Field.Permitted := by
  induction h with
  | @scalar _ f hf _ =>
    refine Field.everywhere_iff.2 ⟨?_, by rw [Field.children_of_isScalar hf]; nofun⟩
    cases f with
    | list | bundle | variant | unknown => cases hf
    | _ => trivial
  | list _ hsize ih =>
    refine Field.everywhere_iff.2 ⟨fun n hn => ?_, fun c hc => ?_⟩
    · rw [ListOf.ofPrototype_size] at hn
      rw [ListOf.ofPrototype_prototype]
      exact size_fixed_ok (hn ▸ hsize)
    · rw [ListOf.ofPrototype_children hc]
      exact ih
  | optional mode _ ih => exact Field.everywhere_optional mode ih
  | composed _ _ hf => exact hc _ _ hf

/-- The bundle of an alternative is that of the struct of its name, so alternatives of one name
have one tag. -/
theorem alternatives_nodup {names : List String} {bs : List (String × Bundle Field)}
    (h : List.Forall₂ (t.AlternativeOf composed) names bs) (htags : (bs.map (·.2.tag?)).Nodup) :
    names.Nodup := by
  have hnames : names = bs.map (·.1) :=
    names.map_id.symm.trans (map_eq_of_forall₂ (h.imp fun _ _ ha => ha.1))
  rw [hnames, List.Nodup, List.pairwise_map]
  rw [List.Nodup, List.pairwise_map] at htags
  refine htags.imp_of_mem fun {a a'} ha ha' hne hname => hne ?_
  obtain ⟨_, -, rfl, s, hs, hb⟩ := forall₂_mem_right h ha
  obtain ⟨_, -, rfl, s', hs', hb'⟩ := forall₂_mem_right h ha'
  rw [hname, hs'] at hs
  cases hs
  have hbundle : a.2 = a'.2 := by simpa using hb.symm.trans hb'
  rw [hbundle]

/-- The alternatives of a variant have different names. -/
theorem variant_nodup {names : List String} {bs : List (String × Bundle Field)}
    {v : Variant Field} (h : List.Forall₂ (t.AlternativeOf composed) names bs)
    (hv : Variant.ofBundles? bs = .ok v) : (v.alternatives.map (·.name)).Nodup := by
  obtain ⟨hchoices, htags⟩ := Variant.ofBundles?_ok hv
  have hnames : names = v.alternatives.map (·.name) :=
    names.map_id.symm.trans (map_eq_of_forall₂
      (forall₂_comp (fun _ _ _ ha hc => hc.1.trans ha.1) h hchoices))
  have hbs : bs.map (·.2.tag?) = v.alternatives.map (some ·.tag) :=
    map_eq_of_forall₂ (hchoices.imp fun _ _ hc => hc.2.2.symm)
  rw [← hnames]
  refine alternatives_nodup h ?_
  rw [hbs, List.Nodup, List.pairwise_map]
  rw [List.Nodup, List.pairwise_map] at htags
  exact htags.imp fun hne htag => hne (Option.some.inj htag)

theorem Resolves.permitted {around : List String} {d : TypeDecl} {f : Field}
    (h : t.Resolves around d f) : f.Everywhere Field.Permitted := by
  induction h with
  | struct fresh inner built ih =>
    obtain ⟨hmembers, hnodup⟩ := bundleWith_ok built
    refine Field.everywhere_iff.2 ⟨hnodup, fun c hc => ?_⟩
    obtain ⟨m, hm, rfl⟩ := List.mem_map.1 hc
    obtain ⟨_, -, -, f, hf, hr⟩ := forall₂_mem_right hmembers hm
    exact hr.everywhere_permitted ((fieldWith_made hf).permitted ih)
  | bitfield fresh inner built => exact Field.everywhere_iff.2 ⟨trivial, List.forall_mem_nil _⟩
  | @variant _ _ v _ _ fresh inner alternatives built ih =>
    have hbundle (c : Choice Field) (hc : c ∈ v.alternatives) :
        (Field.bundle c.bundle).Everywhere Field.Permitted := by
      obtain ⟨a, ha, -, hb, -⟩ := forall₂_mem_right (Variant.ofBundles?_ok built).1 hc
      obtain ⟨_, -, -, s, -, hs⟩ := forall₂_mem_right alternatives ha
      exact ih _ _ (hb ▸ hs)
    refine Field.everywhere_iff.2 ⟨⟨variant_nodup alternatives built, fun c hc => ?_⟩,
      fun g hg => ?_⟩
    · exact (Field.everywhere_iff.1 (hbundle c hc)).1
    · obtain ⟨c, hc, hg⟩ := List.mem_flatMap.1 hg
      exact (Field.everywhere_iff.1 (hbundle c hc)).2 g hg

/-- **Every field of a description keeps the rules that resolving checks.** -/
theorem field_permitted {path : String} {type : TypeSpec} {a : FieldAttrs} {f : Field}
    (h : t.field path type a = .ok f) : f.Everywhere Field.Permitted :=
  (fieldWith_made h).permitted fun _ _ hg => (resolves_of_composedWithin hg).permitted

/-! ## Bitfields -/

/-- A bitfield inside the field of a type is inside the field of the declared type that it
names. -/
theorem Made.bitfield_within {type : TypeSpec} {f : Field} {b : Bitfield}
    (h : t.Made composed type f) (hb : Field.Within (.bitfield b) f) :
    ∃ d g, type.reference? = some d.name ∧ t.find? d.name = some d ∧ composed d = .ok g ∧
      Field.Within (.bitfield b) g := by
  induction h with
  | scalar hf _ => exact absurd hb (Field.not_within_scalar hf)
  | list _ _ ih =>
    rcases Field.within_iff.1 hb with h | ⟨c, hc, hw⟩
    · cases h
    · exact ih (ListOf.ofPrototype_children hc ▸ hw)
  | @optional _ f mode _ ih =>
    rcases Field.within_iff.1 hb with h | ⟨c, hc, hw⟩
    · cases h
    · obtain rfl : c = f := by simpa [Field.children, Optional.ofField] using hc
      exact ih hw
  | @composed name d f hd _ hf =>
    obtain rfl := find?_name hd
    exact ⟨d, f, rfl, hd, hf, hb⟩

/-- A bitfield inside the field of a declaration is one that the declaration reaches. -/
theorem Resolves.bitfield_within {around : List String} {d : TypeDecl} {f : Field} {b : Bitfield}
    (h : t.Resolves around d f) (hd : t.find? d.name = some d)
    (hb : Field.Within (.bitfield b) f) :
    ∃ e : BitfieldDecl, Relation.ReflTransGen t.RefersTo d.name e.name ∧
      t.find? e.name = some (.bitfield e) ∧ b.members.map (·.name) = e.fields.map (·.name) := by
  induction h with
  | @struct around d bundle composed fresh inner built ih =>
    rcases Field.within_iff.1 hb with h | ⟨c, hc, hw⟩
    · cases h
    obtain ⟨m, hm, rfl⟩ := List.mem_map.1 hc
    obtain ⟨x, hx, -, f, hf, hr⟩ := forall₂_mem_right (bundleWith_ok built).1 hm
    obtain ⟨e, g, hname, he, hg, hwg⟩ :=
      (fieldWith_made hf).bitfield_within (hr.within_bitfield.1 hw)
    obtain ⟨e', hpath, he', hnames⟩ := ih e g hg he hwg
    exact ⟨e', .head ⟨_, hd, List.mem_filterMap.2 ⟨x, hx, hname⟩⟩ hpath, he', hnames⟩
  | @bitfield around d b' composed fresh inner built =>
    rcases Field.within_iff.1 hb with h | ⟨c, hc, -⟩
    · cases h
      exact ⟨d, .refl, hd, (bitfieldWith_ok built).1⟩
    · cases hc
  | @variant around d v bs composed fresh inner alternatives built ih =>
    rcases Field.within_iff.1 hb with h | ⟨g, hg, hw⟩
    · cases h
    obtain ⟨c, hc, hg⟩ := List.mem_flatMap.1 hg
    obtain ⟨a, ha, -, hbundle, -⟩ := forall₂_mem_right (Variant.ofBundles?_ok built).1 hc
    obtain ⟨name, hmem, -, s, hs, hcomposed⟩ := forall₂_mem_right alternatives ha
    obtain rfl := find?_name hs
    obtain ⟨e, hpath, he, hnames⟩ := ih _ _ hcomposed hs (.child (hbundle ▸ hg) hw)
    exact ⟨e, .head ⟨_, hd, hmem⟩ hpath, he, hnames⟩

/-- **The bitfields inside a field are the declared ones that its type reaches**, with their
members. -/
theorem field_bitfields {path : String} {type : TypeSpec} {a : FieldAttrs} {f : Field}
    (h : t.field path type a = .ok f) :
    (∀ b, Field.Within (.bitfield b) f → ∃ d : BitfieldDecl, t.Reaches type d.name ∧
      t.find? d.name = some (.bitfield d) ∧ b.members.map (·.name) = d.fields.map (·.name)) ∧
    ∀ d : BitfieldDecl, t.Reaches type d.name → t.find? d.name = some (.bitfield d) →
      ∃ b, Field.Within (.bitfield b) f ∧ b.members.map (·.name) = d.fields.map (·.name) := by
  refine ⟨fun b hb => ?_, fun d hr hd => ?_⟩
  · obtain ⟨e, g, hname, he, hg, hw⟩ := (fieldWith_made h).bitfield_within hb
    obtain ⟨d, hpath, hd, hnames⟩ := (resolves_of_composedWithin hg).bitfield_within he hw
    exact ⟨d, ⟨e.name, hname, hpath⟩, hd, hnames⟩
  · obtain ⟨inside, e, he, hc⟩ := field_reaches h hr
    obtain rfl : e = .bitfield d := Option.some.inj (he.symm.trans hd)
    obtain ⟨g, hg, hw⟩ := hc rfl
    cases hg with
    | bitfield fresh inner built => exact ⟨_, hw _ .self, (bitfieldWith_ok built).1⟩

end TypeTable

/-! ## Rules of a message -/

theorem Field.Becomes.within_bitfield {f g : Field} (h : f.Becomes g) {b : Bitfield} :
    Within (.bitfield b) g ↔ Within (.bitfield b) f := by
  induction h with
  | kept => rfl
  | optional =>
    refine ⟨fun h => ?_, fun h => .child (.head _) h⟩
    rcases within_iff.1 h with h | ⟨c, hc, hw⟩
    · cases h
    · obtain rfl : c = f := by simpa [children, Optional.ofField] using hc
      exact hw
  | @refresh g mode _ ih =>
    have hmode : (g.inMode mode).1 = .bitfield b ↔ g = .bitfield b := by
      cases mode with
      | none => cases g <;> rfl
      | some mode =>
        cases g with
        | optional o =>
          rw [inMode_optional]
          simp only [reduceCtorEq]
        | _ => rfl
    rw [within_bitfield_refresh, ← ih, within_iff, within_iff (f := g), hmode, inMode_children]

/-- **Every field of a message type keeps the rules that resolving checks.** -/
theorem Description.fields_permitted {d : Description} {p : Protocol} (h : d.resolve = .ok p) :
    ∀ m ∈ p.frame.registry.prototypes, ∀ x ∈ m.fields,
      x.field.Everywhere Field.Permitted := by
  intro m hm x hx
  obtain ⟨_, -, -, hfields, -⟩ := forall₂_mem_right (Description.prototypes_declared h) hm
  obtain ⟨_, -, -, f, hf, hb⟩ := forall₂_mem_right hfields hx
  exact hb.everywhere_permitted (TypeTable.field_permitted hf)

end WireProtocol
