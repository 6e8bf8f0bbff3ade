import WireProtocol.Proofs.Description.LayerOrder
import WireProtocol.Proofs.Description.Permitted

/-!
# Names

Message types, the fields of a message, the members of a struct and the alternatives of a variant
have different names in every protocol that a description resolves to; a name that is used twice is
reported (`TypeTable.reportsDuplicates`). Nothing compares the names of the members of a bitfield or
of the layers of a frame, so a protocol has different names everywhere just if these are declared
with different names (`Description.resolve_names`).
-/

set_option autoImplicit false

namespace WireProtocol

namespace TypeTable

variable {t : TypeTable}

/-! ## Reports -/

/-- A name that is declared a second time in one place is reported, unless there is a mistake before
it. Alternatives of one name are reported for their tag. -/
structure ReportsDuplicates (t : TypeTable) : Prop where
  message : ∀ before d after ms, t.messages [] before = .ok ms → d.name ∈ before.map (·.name) →
    t.messages [] (before ++ d :: after) = .error (.reported (.duplicate (.message d.name)))
  field : ∀ (m m' : Message) before d after, before.foldlM t.addField m = .ok m' →
    d.name ∈ before.map (·.name) → (before ++ d :: after).foldlM t.addField m =
      .error (.reported (.duplicate (.field (memberPath m.name d.name))))
  member : ∀ field owner before d after r, membersWith field owner [] none before = .ok r →
    d.attrs.condition = none → d.name ∈ before.map (·.name) →
    membersWith field owner [] none (before ++ d :: after) =
      .error (.reported (.duplicate (.field (memberPath owner d.name))))
  alternative : ∀ composed names bs, List.Forall₂ (t.AlternativeOf composed) names bs →
    (∀ a ∈ bs, a.2.tag?.isSome = true) → ¬ names.Nodup →
    ∃ tag name, Variant.ofBundles? bs = .error (.duplicate (.tag tag name))

theorem messages_duplicate {seen : List String} {before after : List MessageDecl}
    {d : MessageDecl} {ms : List Message} (h : t.messages seen before = .ok ms)
    (hd : d.name ∈ seen ∨ d.name ∈ before.map (·.name)) :
    t.messages seen (before ++ d :: after) = .error (.reported (.duplicate (.message d.name))) := by
  induction before generalizing seen ms with
  | nil =>
    have hd : d.name ∈ seen := hd.resolve_right nofun
    rw [List.nil_append, messages, if_pos hd]
    rfl
  | cons b bs ih =>
    simp only [messages, throw, throwThe, MonadExceptOf.throw, check_eq_ok, bind_eq_ok] at h
    obtain ⟨hb, m, hm, ms, hms, -⟩ := h
    have hrest := ih hms (by simpa [or_assoc, or_left_comm, eq_comm] using hd)
    rw [List.cons_append, messages, if_neg hb, hm, hrest]
    rfl

theorem membersWith_duplicate {field : String → FieldDecl → Resolved Field} {owner : String}
    {members : List (Member Field)} {length : Option Nat} {before after : List FieldDecl}
    {d : FieldDecl} {r : List (Member Field) × Option Nat}
    (h : membersWith field owner members length before = .ok r) (hc : d.attrs.condition = none)
    (hd : d.name ∈ members.map (·.name) ∨ d.name ∈ before.map (·.name)) :
    membersWith field owner members length (before ++ d :: after) =
      .error (.reported (.duplicate (.field (memberPath owner d.name)))) := by
  induction before generalizing members length r with
  | nil =>
    have hany : members.any (·.name == d.name) = true := by
      obtain ⟨m, hm, hname⟩ := List.mem_map.1 (hd.resolve_right nofun)
      exact List.any_eq_true.2 ⟨m, hm, beq_iff_eq.2 hname⟩
    rw [List.nil_append, membersWith, hc, hany]
    rfl
  | cons b bs ih =>
    simp only [membersWith, broken, throw, throwThe, MonadExceptOf.throw, check_eq_ok,
      bind_eq_ok] at h
    obtain ⟨hcondition, hnew, hlength, f, hf, h⟩ := h
    have hrest := ih h (by simpa [or_assoc, or_left_comm, eq_comm] using hd)
    rw [List.cons_append, membersWith, if_neg hcondition, if_neg hnew, if_neg hlength, hf]
    exact hrest

theorem addField_duplicate {m : Message} {d : FieldDecl} (h : d.name ∈ m.fields.map (·.name)) :
    t.addField m d = .error (.reported (.duplicate (.field (memberPath m.name d.name)))) := by
  have hsome : (m.field? d.name).isSome = true := by
    simpa [Message.field?, Member.find?] using h
  rw [addField, if_pos hsome]
  rfl

theorem foldlM_addField_duplicate {m m' : Message} {before after : List FieldDecl} {d : FieldDecl}
    (h : before.foldlM t.addField m = .ok m') (hd : d.name ∈ before.map (·.name)) :
    (before ++ d :: after).foldlM t.addField m =
      .error (.reported (.duplicate (.field (memberPath m.name d.name)))) := by
  obtain ⟨new, rfl, hnew, -⟩ := foldlM_addField_ok h
  have hnames := map_eq_of_forall₂ (hnew.imp fun _ _ hx => hx.1)
  have hmem : d.name ∈ (m.fields ++ new).map (·.name) := by
    rw [List.map_append, ← hnames]
    exact List.mem_append_right _ hd
  rw [List.foldlM_append, h]
  exact congrArg (· >>= fun m => after.foldlM t.addField m) (addField_duplicate hmem)

theorem ofBundles?_duplicate (seen : List Int64) {bs : List (String × Bundle Field)}
    (htags : ∀ a ∈ bs, a.2.tag?.isSome = true)
    (h : (∃ a ∈ bs, ∃ tag ∈ seen, a.2.tag? = some tag) ∨ ¬ (bs.map (·.2.tag?)).Nodup) :
    ∃ tag name, Choice.ofBundles? seen bs = .error (.duplicate (.tag tag name)) := by
  induction bs generalizing seen with
  | nil => simp at h
  | cons a bs ih =>
    obtain ⟨name, b⟩ := a
    obtain ⟨tag, htag⟩ := Option.isSome_iff_exists.1 (htags _ (.head _))
    simp only [Choice.ofBundles?, htag]
    by_cases hseen : tag ∈ seen
    · exact ⟨tag, name, if_pos hseen⟩
    · rw [if_neg hseen]
      have hrest : ∃ tag' name', Choice.ofBundles? (tag :: seen) bs =
          .error (.duplicate (.tag tag' name')) := by
        refine ih (tag :: seen) (fun a ha => htags a (.tail _ ha)) ?_
        rcases h with ⟨a, ha, tag', htag', heq⟩ | hdup
        · rcases List.mem_cons.1 ha with rfl | ha
          · cases htag.symm.trans heq
            exact absurd htag' hseen
          · exact .inl ⟨a, ha, tag', .tail _ htag', heq⟩
        · rw [List.map_cons, List.nodup_cons, not_and_or, not_not] at hdup
          refine hdup.imp_left fun hmem => ?_
          obtain ⟨a, ha, heq⟩ := List.mem_map.1 hmem
          exact ⟨a, ha, tag, .head _, heq.trans htag⟩
      obtain ⟨tag', name', hrest⟩ := hrest
      exact ⟨tag', name', by rw [hrest]; rfl⟩

theorem reportsDuplicates (t : TypeTable) : t.ReportsDuplicates where
  message before d after ms h hd := messages_duplicate h (.inr hd)
  field m m' before d after h hd := foldlM_addField_duplicate h hd
  member field owner before d after r h hc hd := membersWith_duplicate h hc (.inr hd)
  alternative composed names bs h htags hnot := by
    have hdup : ¬ (bs.map (·.2.tag?)).Nodup := fun hn => hnot (alternatives_nodup h hn)
    obtain ⟨tag, name, herror⟩ := ofBundles?_duplicate [] htags (.inr hdup)
    refine ⟨tag, name, ?_⟩
    have hne : bs.isEmpty = false := by
      cases bs with
      | nil => exact absurd List.nodup_nil hdup
      | cons => rfl
    rw [Variant.ofBundles?, hne, herror]
    rfl

end TypeTable

/-! ## Protocols -/

/-- Names address one thing each: message types, the fields of a message, the members of the bundles
and bitfields in it, the alternatives of the variants in it, and the layers of the frame. -/
structure Protocol.NamesDistinct (p : Protocol) : Prop where
  messages : (p.frame.registry.prototypes.map (·.name)).Nodup
  fields : ∀ m ∈ p.frame.registry.prototypes, (m.fields.map (·.name)).Nodup
  bundles : ∀ m ∈ p.frame.registry.prototypes, ∀ x ∈ m.fields, ∀ b,
    Field.Within (.bundle b) x.field → (b.members.map (·.name)).Nodup
  variants : ∀ m ∈ p.frame.registry.prototypes, ∀ x ∈ m.fields, ∀ v,
    Field.Within (.variant v) x.field → (v.alternatives.map (·.name)).Nodup ∧
      ∀ c ∈ v.alternatives, (c.bundle.members.map (·.name)).Nodup
  bitfields : ∀ m ∈ p.frame.registry.prototypes, ∀ x ∈ m.fields, ∀ b,
    Field.Within (.bitfield b) x.field → (b.members.map (·.name)).Nodup
  layers : (p.frame.layers.map (·.name)).Nodup

/-- The names that nothing compares differ: those of the members of each bitfield that a message
field reaches, and those of the layers. -/
structure Description.UncheckedDistinct (d : Description) : Prop where
  bitfields : ∀ m ∈ d.messages, ∀ x ∈ m.fields, ∀ b : BitfieldDecl,
    d.table.Reaches x.type b.name → d.table.find? b.name = some (.bitfield b) →
      (b.fields.map (·.name)).Nodup
  layers : ∀ frame ∈ d.frames, (frame.layers.map (·.name)).Nodup

/-- The layers of a frame are the declared ones in some order. -/
theorem TypeTable.frameLayers_names {t : TypeTable} {d : FrameDecl} {layers : List Layer}
    (h : t.frameLayers d = .ok layers) : (layers.map (·.name)).Perm (d.layers.map (·.name)) := by
  obtain ⟨front, back, hsent, hnest⟩ := TypeTable.frameLayers_ok h
  have hperm := (TypeTable.foldlM_nest_perm hnest).map (·.name)
  rw [← List.map_append, List.map_map] at hperm
  exact hperm.trans (.of_eq (TypeTable.sentLayers_ok hsent).1)

/-- **Names in a resolved protocol are different** just if those that nothing compares are declared
to be; any other name that is used twice is reported. -/
theorem Description.resolve_names (d : Description) :
    d.table.ReportsDuplicates ∧
      ∀ p, d.resolve = .ok p → (p.NamesDistinct ↔ d.UncheckedDistinct) := by
  refine ⟨d.table.reportsDuplicates, fun p h => ?_⟩
  have hdeclared := Description.prototypes_declared h
  obtain ⟨frame, hframe, hms, hlayers⟩ := Description.resolve_ok h
  have hframes := (TypeTable.frameLayers_names hlayers).nodup_iff
  have hpermitted := Description.fields_permitted h
  constructor
  · intro hn
    refine ⟨fun md hmd xd hxd b hr hb => ?_, fun f hf => ?_⟩
    · obtain ⟨m, hm, -, hfields, -⟩ := forall₂_mem_left hdeclared hmd
      obtain ⟨x, hx, -, f, hf, hbecomes⟩ := forall₂_mem_left hfields hxd
      obtain ⟨b', hw, hnames⟩ := (TypeTable.field_bitfields hf).2 b hr hb
      rw [← hnames]
      exact hn.bitfields m hm x hx b' (hbecomes.within_bitfield.2 hw)
    · rw [hframe, List.mem_singleton] at hf
      rw [hf]
      exact hframes.1 hn.layers
  · intro hu
    refine ⟨?_, fun m hm => ?_, fun m hm x hx b hw => ?_, fun m hm x hx v hw => ?_,
      fun m hm x hx b hw => ?_, ?_⟩
    · rw [← map_eq_of_forall₂ (hdeclared.imp fun _ _ hm => hm.1)]
      exact (TypeTable.messages_ok hms).2.2
    · obtain ⟨_, -, -, -, hnodup⟩ := forall₂_mem_right hdeclared hm
      exact hnodup
    · exact hpermitted m hm x hx _ hw
    · exact hpermitted m hm x hx _ hw
    · obtain ⟨md, hmd, -, hfields, -⟩ := forall₂_mem_right hdeclared hm
      obtain ⟨xd, hxd, -, f, hf, hbecomes⟩ := forall₂_mem_right hfields hx
      obtain ⟨b', hr, hb', hnames⟩ :=
        (TypeTable.field_bitfields hf).1 b (hbecomes.within_bitfield.1 hw)
      rw [hnames]
      exact hu.bitfields md hmd xd hxd b' hr hb'
    · exact hframes.2 (hu.layers frame (by rw [hframe]; exact .head _))

/-- A message with a bitfield of two members of those names. -/
def twoNibbles (first second : String) : Description where
  bitfields := [⟨"B", ⟨.ofBytes 1, false⟩, [⟨first, .int ⟨.ofBytes 1, false⟩, { bits := some 4 }⟩,
    ⟨second, .int ⟨.ofBytes 1, false⟩, { bits := some 4 }⟩]⟩]
  frames := [⟨"F", [⟨"id", .id (.int ⟨.ofBytes 1, false⟩)⟩, ⟨"payload", .payload⟩]⟩]
  messages := [⟨"M", .number 1, none, false, [⟨"b", .named "B", {}⟩]⟩]

/-- If the two members have different names, so has everything. -/
theorem twoNibbles_distinct : ∃ p, (twoNibbles "a" "b").resolve = .ok p ∧ p.NamesDistinct := by
  refine ⟨_, rfl, ((Description.resolve_names (twoNibbles "a" "b")).2 _ rfl).2 ⟨?_, ?_⟩⟩
  · rintro _ - _ - b - hb
    obtain rfl : b = _ := TypeDecl.bitfield.inj (List.mem_singleton.1 (TypeTable.mem_of_find? hb))
    decide
  · exact List.forall_mem_singleton.2 (by decide)

/-- Two members of one name are accepted. -/
theorem twoNibbles_accepted : ∃ p, (twoNibbles "a" "a").resolve = .ok p ∧ ¬ p.NamesDistinct := by
  refine ⟨_, rfl, fun h => ?_⟩
  have := h.bitfields _ (.head _) _ (.head _) _ .self
  exact absurd this (by decide)

end WireProtocol
