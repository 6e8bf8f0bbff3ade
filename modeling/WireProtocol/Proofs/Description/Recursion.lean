import WireProtocol.Proofs.Description.Overflow

/-!
# Recursive types

Resolving a type goes from each struct, bitfield or variant to those inside it and never enters one
of them twice, so it comes to an end: the types that are not around yet get fewer
(`TypeTable.calls_wellFounded`), and the bound on the depth is never met
(`TypeTable.unfolds_composedWithin`). A description whose messages lead to a type that contains
itself is rejected (`Description.resolve_rejects_cycles`). That is reported, unless the widths of a
bitfield overflow before (`wideBeforeCycle_overflow`).
-/

set_option autoImplicit false

namespace WireProtocol

namespace TypeTable

variable {t : TypeTable}

/-! ## Resolving ends -/

/-- Resolving the caller's declaration inside the types around it goes on with the callee's, with
the caller around it as well. -/
def Calls (t : TypeTable) (callee caller : List String × TypeDecl) : Prop :=
  caller.2.name ∉ caller.1 ∧ callee.1 = caller.2.name :: caller.1 ∧
    callee.2.name ∈ caller.2.references ∧ t.find? callee.2.name = some callee.2

/-- The functions resolve each declared type like `composedWithin` and `structWithin`, with no bound
on the depth. -/
structure Unfolds (t : TypeTable) (composed : List String → TypeDecl → Resolved Field)
    (bundle : List String → StructDecl → Resolved (Bundle Field)) : Prop where
  struct : ∀ around d, .struct d ∈ t.types → composed around (.struct d) =
    inside around d.name fun around => return .bundle (← t.bundleWith (composed around) d)
  bitfield : ∀ around d, .bitfield d ∈ t.types → composed around (.bitfield d) =
    inside around d.name fun around => return .bitfield (← t.bitfieldWith (composed around) d)
  variant : ∀ around d, .variant d ∈ t.types → composed around (.variant d) =
    inside around d.name fun around => do
      let alternatives ← d.alternatives.mapM (t.alternativeWith (bundle around) d.name)
      return .variant (← reporting (Variant.ofBundles? alternatives))
  bundle : ∀ around d, .struct d ∈ t.types → bundle around d =
    inside around d.name fun around => t.bundleWith (composed around) d

/-- How many types are not around. -/
def free (t : TypeTable) (around : List String) : Nat := t.types.countP (·.name ∉ around)

theorem free_le (t : TypeTable) (around : List String) : t.free around ≤ t.types.length :=
  List.countP_le_length

/-- Going inside a type leaves fewer types. -/
theorem free_cons_lt {around : List String} {d : TypeDecl} (hd : d ∈ t.types)
    (hnew : d.name ∉ around) : t.free (d.name :: around) < t.free around := by
  have hfilter : t.free (d.name :: around) =
      ((t.types.filter (·.name ∉ around)).filter (·.name ≠ d.name)).length := by
    rw [List.filter_filter, ← List.countP_eq_length_filter, free]
    congr
    funext e
    simp
  rw [hfilter, free, List.countP_eq_length_filter, List.length_filter_lt_length_iff_exists]
  exact ⟨d, List.mem_filter.2 ⟨hd, by simpa using hnew⟩, by simp⟩

/-- **Types inside each other end.** -/
theorem calls_wellFounded (t : TypeTable) : WellFounded t.Calls := by
  have hdeclared (n : Nat) : ∀ around, t.free around < n → ∀ d ∈ t.types,
      Acc t.Calls (around, d) := by
    induction n with
    | zero => exact fun _ h => absurd h (Nat.not_lt_zero _)
    | succ n ih =>
      refine fun around hn d hd => .intro _ ?_
      rintro ⟨_, e⟩ ⟨hnew, rfl, -, he⟩
      have hless := free_cons_lt hd hnew
      dsimp only at hless ⊢
      exact ih _ (by omega) e (mem_of_find? he)
  refine ⟨fun ⟨around, d⟩ => .intro _ ?_⟩
  rintro ⟨inside, e⟩ ⟨-, -, -, he⟩
  exact hdeclared _ inside (Nat.lt_succ_self _) e (mem_of_find? he)

/-! ## The bound on the depth -/

/-- The functions resolve the declared structs, bitfields and variants alike. -/
def Agree (t : TypeTable) (composed composed' : TypeDecl → Resolved Field) : Prop :=
  ∀ d ∈ t.types, d.isComposed = true → composed d = composed' d

section
variable {composed composed' : TypeDecl → Resolved Field}

theorem Agree.fieldWith (h : t.Agree composed composed') (path : String) (type : TypeSpec)
    (a : FieldAttrs) : t.fieldWith composed path type a = t.fieldWith composed' path type a := by
  induction type generalizing a with
  | list elem size elemLength ih => simp only [TypeTable.fieldWith, ih]
  | optional inner mode ih => simp only [TypeTable.fieldWith, ih]
  | named name =>
    simp only [TypeTable.fieldWith]
    cases hd : t.find? name with
    | none => rfl
    | some d =>
      cases d with
      | enumeration d | bitmask d => rfl
      | struct d | bitfield d | variant d => exact h _ (mem_of_find? hd) rfl
  | _ => simp only [TypeTable.fieldWith]

theorem Agree.bundleWith (h : t.Agree composed composed') (d : StructDecl) :
    t.bundleWith composed d = t.bundleWith composed' d := by
  simp only [TypeTable.bundleWith, h.fieldWith]

theorem Agree.bitfieldWith (h : t.Agree composed composed') (d : BitfieldDecl) :
    t.bitfieldWith composed d = t.bitfieldWith composed' d := by
  simp only [TypeTable.bitfieldWith, h.fieldWith]

end

theorem alternativeWith_congr {bundle bundle' : StructDecl → Resolved (Bundle Field)}
    (h : ∀ s, .struct s ∈ t.types → bundle s = bundle' s) (variant : String) :
    t.alternativeWith bundle variant = t.alternativeWith bundle' variant := by
  funext name
  unfold alternativeWith
  split
  · rw [h _ (mem_of_find? ‹_›)]
  · rfl
  · rfl

theorem inside_congr {α : Type} {around : List String} {name : String}
    {go go' : List String → Resolved α}
    (h : name ∉ around → go (name :: around) = go' (name :: around)) :
    inside around name go = inside around name go' := by
  unfold inside
  split
  · rfl
  · exact h ‹_›

theorem structWithin_of_composedWithin {depth depth' : Nat} {around : List String} {d : StructDecl}
    (h : t.composedWithin depth around (.struct d) = t.composedWithin depth' around (.struct d)) :
    t.structWithin depth around d = t.structWithin depth' around d := by
  rw [composedWithin_struct, composedWithin_struct] at h
  cases hb : t.structWithin depth around d <;> cases hb' : t.structWithin depth' around d <;>
    simp_all [Except.map]

/-- Depth beyond the number of types that are not around changes nothing. -/
theorem composedWithin_succ {depth : Nat} {around : List String} {d : TypeDecl} (hd : d ∈ t.types)
    (h : t.free around < depth) :
    t.composedWithin (depth + 1) around d = t.composedWithin depth around d := by
  induction depth generalizing around d with
  | zero => exact absurd h (Nat.not_lt_zero _)
  | succ depth ih =>
    have hinner (hnew : d.name ∉ around) {e : TypeDecl} (he : e ∈ t.types) :
        t.composedWithin (depth + 1) (d.name :: around) e =
          t.composedWithin depth (d.name :: around) e := by
      have := free_cons_lt hd hnew
      exact ih he (by omega)
    cases d with
    | enumeration d | bitmask d => rfl
    | struct d =>
      rw [composedWithin, composedWithin]
      refine inside_congr fun hnew => ?_
      exact congrArg (· >>= _) (Agree.bundleWith (fun _ he _ => hinner hnew he) d)
    | bitfield d =>
      rw [composedWithin, composedWithin]
      refine inside_congr fun hnew => ?_
      exact congrArg (· >>= _) (Agree.bitfieldWith (fun _ he _ => hinner hnew he) d)
    | variant d =>
      rw [composedWithin_variant, composedWithin_variant]
      refine inside_congr fun hnew => congrArg (fun f => d.alternatives.mapM f >>= _) ?_
      exact alternativeWith_congr (fun s hs => structWithin_of_composedWithin (hinner hnew hs)) _

theorem composedWithin_cons {around : List String} {d : TypeDecl} (hd : d ∈ t.types)
    (hnew : d.name ∉ around) {e : TypeDecl} (he : e ∈ t.types) :
    t.composedWithin t.types.length (d.name :: around) e =
      t.composedWithin (t.types.length + 1) (d.name :: around) e := by
  have := free_cons_lt hd hnew
  have := t.free_le around
  exact (composedWithin_succ he (by omega)).symm

/-- **The bound on the depth is never met.** -/
theorem unfolds_composedWithin (t : TypeTable) :
    t.Unfolds (t.composedWithin (t.types.length + 1)) (t.structWithin (t.types.length + 1)) where
  struct around d hd := by
    rw [composedWithin]
    refine inside_congr fun hnew => congrArg (· >>= _) ?_
    exact Agree.bundleWith (fun _ he _ => composedWithin_cons hd hnew he) d
  bitfield around d hd := by
    rw [composedWithin]
    refine inside_congr fun hnew => congrArg (· >>= _) ?_
    exact Agree.bitfieldWith (fun _ he _ => composedWithin_cons hd hnew he) d
  variant around d hd := by
    rw [composedWithin_variant]
    refine inside_congr fun hnew => congrArg (fun f => d.alternatives.mapM f >>= _) ?_
    exact alternativeWith_congr
      (fun s hs => structWithin_of_composedWithin (composedWithin_cons hd hnew hs)) _
  bundle around d hd := by
    rw [structWithin]
    refine inside_congr fun hnew => ?_
    exact Agree.bundleWith (fun _ he _ => composedWithin_cons hd hnew he) d

/-- There is only one way to resolve each type with no bound on the depth. -/
theorem Unfolds.agree {composed composed' : List String → TypeDecl → Resolved Field}
    {bundle bundle' : List String → StructDecl → Resolved (Bundle Field)}
    (h : t.Unfolds composed bundle) (h' : t.Unfolds composed' bundle') (around : List String) :
    t.Agree (composed around) (composed' around) := by
  induction hn : t.free around using Nat.strongRecOn generalizing around with
  | _ n ih =>
  have hinner {inside : List String} (hless : t.free inside < t.free around) :
      t.Agree (composed inside) (composed' inside) := ih _ (hn ▸ hless) inside rfl
  intro d hd hcomposed
  cases d with
  | enumeration d | bitmask d => cases hcomposed
  | struct d =>
    rw [h.struct around d hd, h'.struct around d hd]
    refine inside_congr fun hnew => congrArg (· >>= _) ?_
    exact (hinner (free_cons_lt hd hnew)).bundleWith d
  | bitfield d =>
    rw [h.bitfield around d hd, h'.bitfield around d hd]
    refine inside_congr fun hnew => congrArg (· >>= _) ?_
    exact (hinner (free_cons_lt hd hnew)).bitfieldWith d
  | variant d =>
    rw [h.variant around d hd, h'.variant around d hd]
    refine inside_congr fun hnew => congrArg (fun f => d.alternatives.mapM f >>= _) ?_
    refine alternativeWith_congr (fun s hs => ?_) _
    -- the members of an alternative are inside the variant and its own struct
    rw [h.bundle _ s hs, h'.bundle _ s hs]
    refine inside_congr fun hnew' => ?_
    exact (hinner (Nat.lt_trans (free_cons_lt hs hnew') (free_cons_lt hd hnew))).bundleWith s

end TypeTable

/-! ## Cycles -/

/-- The type of an id layer. -/
def LayerSpec.idType? : LayerSpec → Option TypeSpec
  | .id type => some type
  | _ => none

/-- The types of the message fields and of the id layer. -/
def Description.usedTypes (d : Description) : List TypeSpec :=
  d.messages.flatMap (·.fields.map (·.type)) ++
    d.frames.flatMap (·.layers.filterMap (·.spec.idType?))

/-- Each type in use has a field if the description resolves. -/
theorem Description.field_of_usedType {d : Description} {p : Protocol} (h : d.resolve = .ok p)
    {type : TypeSpec} (hu : type ∈ d.usedTypes) :
    ∃ path a f, d.table.field path type a = .ok f := by
  obtain ⟨frame, hframe, hms, hlayers⟩ := Description.resolve_ok h
  rcases List.mem_append.1 hu with hu | hu
  · obtain ⟨m, hm, hu⟩ := List.mem_flatMap.1 hu
    obtain ⟨x, hx, rfl⟩ := List.mem_map.1 hu
    obtain ⟨m', -, hm'⟩ := forall₂_mem_left (TypeTable.messages_ok hms).1 hm
    obtain ⟨x', -, -, f, hf, -⟩ := forall₂_mem_left (TypeTable.message_ok hm').2.1 hx
    exact ⟨_, _, f, hf⟩
  · rw [hframe, List.flatMap_singleton] at hu
    obtain ⟨⟨name, spec⟩, hl, hid⟩ := List.mem_filterMap.1 hu
    obtain ⟨front, back, hsent, -⟩ := TypeTable.frameLayers_ok hlayers
    obtain ⟨after, l, hlayer⟩ := TypeTable.sentLayers_declared hsent hl
    cases spec with
    | id type' =>
      cases hid
      obtain ⟨f, hf⟩ := TypeTable.layer_id_ok hlayer
      exact ⟨_, _, f, hf⟩
    | _ => cases hid

/-- **Resolving ends and rejects recursive types**, however the types refer to each other. No chain
of types, each resolved inside the one before, goes on for ever; what resolving a type gives is the
one thing that its own rules allow with no bound on the depth. If a description resolves, no type
that a message field or the id layer reaches reaches itself, so a message field whose type reaches
one that does makes resolving fail. A mistake is reported then, unless the widths of the members of
some bitfield overflow. -/
theorem Description.resolve_rejects_cycles (d : Description) :
    (WellFounded d.table.Calls ∧
      (∃ composed bundle, d.table.Unfolds composed bundle ∧
        ∀ path type a, d.table.field path type a = d.table.fieldWith (composed []) path type a) ∧
      ∀ composed bundle, d.table.Unfolds composed bundle → ∀ path type a,
        d.table.field path type a = d.table.fieldWith (composed []) path type a) ∧
    (∀ p, d.resolve = .ok p → ∀ type ∈ d.usedTypes, ∀ name, d.table.Reaches type name →
      ¬ Relation.TransGen d.table.RefersTo name name) ∧
    (∀ m ∈ d.messages, ∀ x ∈ m.fields, ∀ name, d.table.Reaches x.type name →
      Relation.TransGen d.table.RefersTo name name →
        ∃ e, d.resolve = .error e ∧ (d.table.WidthsFit → ∃ mistake, e = .reported mistake)) := by
  have hacyclic (p : Protocol) (h : d.resolve = .ok p) : ∀ type ∈ d.usedTypes, ∀ name,
      d.table.Reaches type name → ¬ Relation.TransGen d.table.RefersTo name name := by
    intro type hu name hn
    obtain ⟨path, a, f, hf⟩ := Description.field_of_usedType h hu
    exact TypeTable.field_not_cyclic hf hn
  have hunfolds := d.table.unfolds_composedWithin
  refine ⟨⟨d.table.calls_wellFounded, ⟨_, _, hunfolds, fun _ _ _ => rfl⟩, ?_⟩, hacyclic, ?_⟩
  · exact fun composed bundle h path type a => (hunfolds.agree h []).fieldWith path type a
  · intro m hm x hx name hn hcycle
    cases h : d.resolve with
    | error e =>
      refine ⟨e, rfl, fun hw => ?_⟩
      cases e with
      | reported mistake => exact ⟨mistake, rfl⟩
      | overflow => exact absurd h (Description.resolve_reports hw)
    | ok p =>
      have hu : x.type ∈ d.usedTypes := List.mem_append_left _
        (List.mem_flatMap.2 ⟨m, hm, List.mem_map_of_mem hx⟩)
      exact absurd hcycle (hacyclic p h x.type hu name hn)

/-- A message with a field of that type, where the structs `A` and `B` lead to each other through a
list and an optional. -/
def mutualStructs (type : String) : Description where
  structs := [⟨"A", [⟨"b", .list (.named "B") (.fixed 1) none, {}⟩]⟩,
    ⟨"B", [⟨"a", .optional (.named "A") .missing, {}⟩]⟩, ⟨"C", []⟩]
  frames := [⟨"F", [⟨"id", .id (.int ⟨.ofBytes 1, false⟩)⟩, ⟨"payload", .payload⟩]⟩]
  messages := [⟨"M", .number 1, none, false, [⟨"x", .named type, {}⟩]⟩]

/-- The description resolves if the field does not reach them, and is rejected with a report if it
does. -/
theorem mutualStructs_rejected :
    (∃ p, (mutualStructs "C").resolve = .ok p ∧
      ¬ Relation.TransGen (mutualStructs "C").table.RefersTo "C" "C") ∧
    ∃ mistake, (mutualStructs "A").resolve = .error (.reported mistake) := by
  constructor
  · have h := (Description.resolve_rejects_cycles (mutualStructs "C")).2.1
    exact ⟨_, rfl, h _ rfl (.named "C") (.head _) "C" ⟨"C", rfl, .refl⟩⟩
  · have h := (Description.resolve_rejects_cycles (mutualStructs "A")).2.2
    have hcycle : Relation.TransGen (mutualStructs "A").table.RefersTo "A" "A" :=
      .head ⟨_, rfl, .head _⟩ (.single ⟨_, rfl, .head _⟩)
    have hw : (mutualStructs "A").table.WidthsFit := fun d hd => by
      simp [Description.table, TypeTable.typesOf, mutualStructs] at hd
    obtain ⟨e, he, hreported⟩ := h _ (.head _) _ (.head _) "A" ⟨"A", rfl, .refl⟩ hcycle
    obtain ⟨mistake, rfl⟩ := hreported hw
    exact ⟨mistake, he⟩

/-- A message with a bitfield whose widths overflow, in front of a struct that has itself inside. -/
def wideBeforeCycle : Description where
  structs := [⟨"A", [⟨"a", .list (.named "A") (.fixed 1) none, {}⟩]⟩]
  bitfields := [⟨"B", ⟨.ofBytes 1, false⟩,
    [⟨"a", .int ⟨.ofBytes 1, false⟩, { bits := some 0x80000000 }⟩,
      ⟨"b", .int ⟨.ofBytes 1, false⟩, { bits := some 0x80000000 }⟩,
      ⟨"c", .int ⟨.ofBytes 1, false⟩, { bits := some 8 }⟩]⟩]
  frames := [⟨"F", [⟨"id", .id (.int ⟨.ofBytes 1, false⟩)⟩, ⟨"payload", .payload⟩]⟩]
  messages := [⟨"M", .number 1, none, false, [⟨"b", .named "B", {}⟩, ⟨"a", .named "A", {}⟩]⟩]

/-- The struct contains itself, and no mistake is reported. -/
theorem wideBeforeCycle_overflow :
    Relation.TransGen wideBeforeCycle.table.RefersTo "A" "A" ∧
      (∃ m ∈ wideBeforeCycle.messages, ∃ x ∈ m.fields, wideBeforeCycle.table.Reaches x.type "A") ∧
      wideBeforeCycle.resolve = .error .overflow :=
  ⟨.single ⟨_, rfl, .head _⟩,
    ⟨_, .head _, ⟨"a", .named "A", {}⟩, .tail _ (.head _), ⟨"A", rfl, .refl⟩⟩, rfl⟩

end WireProtocol
