import WireProtocol.Proofs.Field.Assigning
import WireProtocol.Proofs.Field.Packing
import WireProtocol.Proofs.Field.Yield
import WireProtocol.Proofs.Text.Utf8

/-!
# Taking a value back

The value of a field that was read leaves out how it was sent: the bytes that a region kept, which of
two nested optional fields is absent, what stands behind the zero byte of a text. Assigning it to the
prototype shows it again all the same (`Field.assign_read_value`), if the members that it names are
the ones that it is taken from, and if nothing is rounded.
-/

set_option autoImplicit false

namespace WireProtocol

/-! ## Conditions -/

/-- The names of the field itself, apart from the fields inside it, tell its parts apart. -/
def Field.DistinctNames : Field → Prop
  | .bundle b => (b.members.map (·.name)).Nodup
  | .bitfield b => (b.members.map (·.name)).Nodup
  | .variant v => (v.alternatives.map (·.name)).Nodup ∧
    ∀ c ∈ v.alternatives, (c.bundle.members.map (·.name)).Nodup
  | _ => True

/-- The field takes the value and shows it. -/
def Field.Restores (p : Field) (v : Value) : Prop :=
  (p.assign v).2 = true ∧ (p.assign v).1.value = v

/-! ## Scalars -/

theorem IntField.restores (f : IntField) (v : Int64) : (Field.int f).Restores (.int v) := by
  simp [Field.Restores, Field.assign, Field.assignInside, Field.assignScalar, Value.int?,
    Field.value, withValue]

theorem EnumField.restores (f : EnumField) (v : Int64) :
    (Field.enumeration f).Restores (.int v) := by
  simp [Field.Restores, Field.assign, Field.assignInside, Field.assignScalar, Value.int?,
    Field.value, withValue, IntField.withValue, value]

theorem BitmaskField.restores (f : BitmaskField) {v : UInt64}
    (h : v &&& lowBits (8 * f.bytes) = v) : (Field.bitmask f).Restores (.bits v) := by
  simp [Field.Restores, Field.assign, Field.assignInside, Field.assignScalar, Value.bits?,
    Field.value, withValue, h]

theorem and_lowBits_of_lt {v : UInt64} {bytes : Nat} (h : v.toNat < 256 ^ bytes) :
    v &&& lowBits (8 * bytes) = v := by
  have hword := v.toNat_lt
  rw [Bytes.pow_256] at h
  apply UInt64.toNat_inj.1
  rw [toNat_and_lowBits, Nat.mod_eq_of_lt]
  rcases Nat.le_total (8 * bytes) 64 with hle | hle
  · rwa [Nat.min_eq_left hle]
  · rwa [Nat.min_eq_right hle]

theorem ByteField.restores_text (f : ByteField) {data : Bytes}
    (h : ({ f with data } : ByteField).isValidText = true) :
    (Field.text f).Restores (.text ({ f with data } : ByteField).text) := by
  have htext := text_withText h
  simp [Field.Restores, Field.assign, Field.assignInside, Field.assignScalar, Field.value, htext]

theorem ByteField.restores_bytes (f : ByteField) {data : Bytes}
    (h : ({ f with data } : ByteField).isValid = true) :
    (Field.bytes f).Restores (.bytes data) := by
  have hdata : (f.withData data).data = data := by
    obtain ⟨size, old⟩ := f
    cases size with
    | fixed n =>
      have hl : data.length = n := by simpa [isValid] using h
      simp [withData, Bytes.resize, ← hl]
    | remainder | count p | length p => rfl
  simp [Field.Restores, Field.assign, Field.assignInside, Field.assignScalar, Field.value, hdata]

theorem Packable.setBits_restores (p : Packable) (raw : UInt64) (bits : UInt32) :
    p.toField.Restores (p.setBits raw bits).toField.value := by
  cases p with
  | int f => exact f.restores _
  | enumeration f => exact f.restores _
  | bitmask f =>
    refine f.restores ?_
    show raw &&& lowBits (8 * f.bytes) &&& lowBits (8 * f.bytes) = raw &&& lowBits (8 * f.bytes)
    rw [UInt64.and_assoc, UInt64.and_self]

/-! ## Members -/

/-- The member takes the item that names it. -/
def Member.Takes (m : Member Field) (item : String × Value) : Prop :=
  m.name = item.1 ∧ m.field.Restores item.2

/-- Items that all members take, in order, are assigned to them one by one. Members in front have
been assigned to already. -/
theorem Field.assignNamed_restores {todo : List (Member Field)} {items : List (String × Value)}
    (h : List.Forall₂ Member.Takes todo items) (done : List (Member Field))
    (hn : ((done ++ todo).map (·.name)).Nodup) :
    ∃ new, assignNamed items (done ++ todo) = (done ++ new, true) ∧ new.map Member.item = items := by
  induction h generalizing done with
  | nil => exact ⟨[], rfl, rfl⟩
  | @cons m item todo items hm _ ih =>
    obtain ⟨name, v⟩ := item
    obtain ⟨hname, haccepted, hvalue⟩ := hm
    dsimp only at hname haccepted hvalue
    have hskip : name ∉ done.map (·.name) := by
      rw [List.map_append, List.map_cons, List.nodup_append] at hn
      intro hmem
      exact hn.2.2 name hmem m.name (.head _) hname.symm
    have hstep : assignNamed ((name, v) :: items) (done ++ m :: todo) =
        assignNamed items (done ++ [{ m with field := (m.field.assign v).1 }] ++ todo) := by
      rw [assignNamed, Member.modifyFirst?_skip _ hskip m todo hname]
      simp only [Option.map_some]
      rw [haccepted, List.append_assoc]
      rfl
    obtain ⟨new, hnew, hitems⟩ := ih (done ++ [{ m with field := (m.field.assign v).1 }])
      (by simpa using hn)
    refine ⟨{ m with field := (m.field.assign v).1 } :: new, ?_, ?_⟩
    · rw [hstep, hnew, List.append_assoc]
      rfl
    · rw [List.map_cons, hitems, Member.item, hname, hvalue]

/-- **A field with named members takes the items of one like it.** -/
theorem Field.restores_named {f : Field} {ms : List (Member Field)} (hf : f.namedMembers? = some ms)
    (hn : (ms.map (·.name)).Nodup) {items : List (String × Value)}
    (h : List.Forall₂ Member.Takes ms items) : f.Restores (.bundle items) := by
  obtain ⟨new, hnew, hitems⟩ := assignNamed_restores h [] hn
  obtain ⟨hmembers, haccepted, -⟩ := assign_named hf items
  simp only [List.nil_append] at hnew
  rw [hnew] at hmembers haccepted
  exact ⟨haccepted, by rw [value_named hmembers, hitems]⟩

theorem Bitfield.takes_unpack (raw : UInt64) (pos : UInt32) (ms : List BitMember) :
    List.Forall₂ Member.Takes (ms.map BitMember.toMember)
      ((unpack raw pos ms).map fun m => m.toMember.item) := by
  induction ms generalizing pos with
  | nil =>
    rw [unpack]
    exact .nil
  | cons m ms ih =>
    rw [unpack]
    exact .cons ⟨rfl, m.field.setBits_restores _ m.bits⟩ (ih _)

/-! ## Elements and alternatives -/

theorem assignElements_restores {p : Field} {items : List Value} (h : ∀ v ∈ items, p.Restores v)
    (before : List (Field × Bytes)) :
    ∃ new, assignElements p before items = some (before.reverse ++ new) ∧
      (new.map fun e => e.1.value) = items := by
  induction items generalizing before with
  | nil => exact ⟨[], by rw [assignElements, List.append_nil], rfl⟩
  | cons v items ih =>
    obtain ⟨haccepted, hvalue⟩ := h v (.head _)
    obtain ⟨new, hnew, hitems⟩ := ih (fun v hv => h v (.tail _ hv)) (((p.assign v).1, []) :: before)
    refine ⟨((p.assign v).1, []) :: new, ?_, ?_⟩
    · have hassign : p.assign v = ((p.assign v).1, true) := Prod.ext rfl haccepted
      rw [assignElements, hassign]
      dsimp only
      rw [hnew, List.reverse_cons, List.append_assoc]
      rfl
    · rw [List.map_cons, hvalue, hitems]

theorem ListOf.restores {l : ListOf Field} {items : List Value}
    (h : ∀ v ∈ items, l.prototype.Restores v) : (Field.list l).Restores (.list items) := by
  obtain ⟨new, hnew, hitems⟩ := assignElements_restores h []
  have hassign : (Field.list l).assign (.list items) = (.list { l with elements := new }, true) := by
    simp only [Field.assign, Field.assignInside, hnew]
    rfl
  rw [Field.Restores, hassign]
  refine ⟨rfl, ?_⟩
  rw [Field.value, elementValues_eq, hitems]
  rfl

theorem choiceValue_eq_some {cs : List (Choice Field)} {i : Nat} {c : Choice Field}
    (h : cs[i]? = some c) :
    choiceValue cs i = .variant c.name (Field.bundle c.bundle).value := by
  rw [choiceValue_eq, h, Field.value]
  rfl

theorem Variant.restores {v : Variant Field} {i : Nat} {c : Choice Field}
    (hn : (v.alternatives.map (·.name)).Nodup) (hc : v.alternatives[i]? = some c) {inner : Value}
    (h : (Field.bundle c.bundle).Restores inner) :
    (Field.variant v).Restores (.variant c.name inner) := by
  have hlt : i < v.alternatives.length := (List.getElem?_eq_some_iff.1 hc).1
  have hat : v.alternatives[i] = c := (List.getElem?_eq_some_iff.1 hc).2
  have hfind : v.alternatives.findIdx? (·.name == c.name) = some i := by
    refine List.findIdx?_eq_some_iff_getElem.2 ⟨hlt, by simp [hat], fun j hj heq => ?_⟩
    -- an alternative of that name in front would be the same one
    have hname : v.alternatives[j].name = c.name := beq_iff_eq.1 heq
    have hsame : j = i := by
      refine (List.getElem?_inj (by simpa using Nat.lt_trans hj hlt) hn).1 ?_
      simp [Nat.lt_trans hj hlt, hlt, hname, hat]
    omega
  obtain ⟨b, hb, hassign⟩ := Field.assign_variant v hfind hc inner
  obtain ⟨haccepted, hvalue⟩ := h
  rw [Field.Restores, hassign]
  refine ⟨haccepted, ?_⟩
  rw [Field.value, choiceValue_eq_some (List.getElem?_set_self hlt), ← hb, hvalue]

/-! ## Validity -/

theorem bundleValid_member {b : Bundle Field} (h : bundleValid b = true) :
    ∀ m ∈ b.members, m.field.isValid = true := by
  have hmembers : ∀ ms : List (Member Field), membersValid ms = true →
      ∀ m ∈ ms, m.field.isValid = true := by
    intro ms hms
    induction ms with
    | nil => exact List.forall_mem_nil _
    | cons m ms ih =>
      rw [membersValid, Bool.and_eq_true] at hms
      exact List.forall_mem_cons.2 ⟨hms.1, ih hms.2⟩
  cases b with
  | plain ms =>
    rw [bundleValid] at h
    exact hmembers ms h
  | measured head name length tail trailing =>
    rw [bundleValid, Bool.and_eq_true, Bool.and_eq_true] at h
    obtain ⟨⟨hhead, hlength⟩, htail⟩ := h
    intro m hm
    rcases List.mem_append.1 hm with hm | hm
    · exact hmembers head hhead m hm
    rcases List.mem_cons.1 hm with rfl | hm
    · exact hlength
    · exact hmembers tail htail m hm

theorem elementsValid_element {es : List (Field × Bytes)} (h : elementsValid es = true) :
    ∀ e ∈ es, e.1.isValid = true := by
  induction es with
  | nil => exact List.forall_mem_nil _
  | cons e es ih =>
    rw [elementsValid, Bool.and_eq_true] at h
    exact List.forall_mem_cons.2 ⟨h.1, ih h.2⟩

theorem choiceValid_eq_some {cs : List (Choice Field)} {i : Nat} {c : Choice Field}
    (h : cs[i]? = some c) : choiceValid cs i = bundleValid c.bundle := by
  induction cs generalizing i with
  | nil => cases h
  | cons a cs ih =>
    cases i with
    | zero =>
      cases h
      rw [choiceValid]
    | succ i =>
      rw [choiceValid]
      exact ih h

/-! ## Fields -/

theorem Optional.restores_missing (o : Optional Field) : (Field.optional o).Restores .missing := by
  rw [Field.Restores, Field.assign_optional_missing]
  exact ⟨rfl, rfl⟩

theorem Bundle.restores {b b' : Bundle Field} (hn : (b.members.map (·.name)).Nodup)
    (h : b.Alike (fun f g => f.Restores g.value) b') :
    (Field.bundle b).Restores (Field.bundle b').value := by
  rw [Field.value_named rfl]
  refine Field.restores_named rfl hn (List.forall₂_map_right_iff.2 ?_)
  have hmembers := h.members fun f v => f.restores v
  refine hmembers.imp fun m m' hm => ?_
  cases hm with
  | mk name hr => exact ⟨rfl, hr⟩

/-- **What a field can have read it takes back**: its value, with all the parts that it shows. -/
theorem Field.Yields.restores {p g : Field} (h : p.Yields g)
    (hf : p.Everywhere (·.kind ≠ .float)) (hn : p.Everywhere Field.DistinctNames)
    (hv : g.isValid = true) : p.Restores g.value := by
  induction p generalizing g with
  | int f =>
    cases h with
    | int _ v => exact f.restores v
  | enumeration f =>
    cases h with
    | enumeration _ v => exact f.restores v
  | bitmask f =>
    cases h with
    | bitmask _ hlt => exact f.restores (and_lowBits_of_lt hlt)
  | float f => exact absurd rfl hf.self
  | text f =>
    cases h with
    | text _ _ => exact f.restores_text hv
  | bytes f =>
    cases h with
    | bytes _ hvalid => exact f.restores_bytes hvalid
  | list l ih _ =>
    cases h with
    | @list _ es hes _ _ =>
      obtain ⟨prototype, size, elemLength, elements⟩ := l
      simp only [isValid, Bool.and_eq_true] at hv
      have hvalid := elementsValid_element hv.2
      rw [value, elementValues_eq]
      refine ListOf.restores fun v hmem => ?_
      obtain ⟨e, he, rfl⟩ := List.mem_map.1 hmem
      exact ih (hes e he) (hf.child (.head _)) (hn.child (.head _)) (hvalid e he)
  | bitfield b =>
    cases h with
    | bitfield _ raw =>
      rw [value_named rfl, List.map_map]
      have hnames : ((b.members.map BitMember.toMember).map (·.name)).Nodup := by
        rw [List.map_map]
        exact hn.self
      exact restores_named rfl hnames (Bitfield.takes_unpack raw 0 b.members)
  | bundle b ih =>
    cases h with
    | bundle hb =>
      rw [isValid] at hv
      refine Bundle.restores (hn.self) (hb.imp fun m hm m' hm' hr => ?_)
      have hc : m.field ∈ (Field.bundle b).children := List.mem_map_of_mem hm
      exact ih m hm hr (hf.child hc) (hn.child hc) (bundleValid_member hv m' hm')
  | optional o ih _ =>
    cases h with
    | absent =>
      have hvalue : (Field.optional ⟨o.default, o.default, .missing⟩).value = .missing := by
        simp [value]
      rw [hvalue]
      exact o.restores_missing
    | @present _ inner hm hi =>
      have hvalid : inner.isValid = true := by simpa [isValid] using hv
      have hrestores := ih hi (hf.child (.head _)) (hn.child (.head _)) hvalid
      have hvalue : (Field.optional ⟨inner, o.default, .present⟩).value = inner.value := by
        simp [value]
      rw [hvalue]
      by_cases hmissing : inner.value = .missing
      · rw [hmissing]
        exact o.restores_missing
      · rw [Restores, assign_optional o hmissing]
        exact ⟨hrestores.1, by simpa [value] using hrestores.2⟩
  | variant v ih =>
    cases h with
    | @variant _ i c bundle hc hb =>
      obtain ⟨hnames, hmembers⟩ := hn.self
      have hmem := List.mem_of_getElem? hc
      have hlt : i < v.alternatives.length := (List.getElem?_eq_some_iff.1 hc).1
      have hset : (v.alternatives.set i { c with bundle })[i]? = some { c with bundle } :=
        List.getElem?_set_self hlt
      rw [isValid, choiceValid_eq_some hset] at hv
      rw [value, choiceValue_eq_some hset]
      refine Variant.restores hnames hc (Bundle.restores (hmembers c hmem) ?_)
      refine hb.imp fun m hm m' hm' hr => ?_
      have hchild : m.field ∈ (Field.variant v).children :=
        List.mem_flatMap.2 ⟨c, hmem, List.mem_map_of_mem hm⟩
      exact ih c hmem m hm hr (hf.child hchild) (hn.child hchild)
        (bundleValid_member hv m' hm')
  | unknown old =>
    cases h with
    | unknown _ data =>
      simp [Restores, assign, assignInside, assignScalar, value]

/-- **A value that was read can be taken back.** Reading a field that is valid afterwards gives a
value that the prototype accepts, and then shows as it was. -/
theorem Field.assign_read_value {p : Field} (hf : p.Everywhere (·.kind ≠ .float))
    (hn : p.Everywhere Field.DistinctNames) {src : Bytes}
    (h : (p.read src).error = none) (hv : (p.read src).value.isValid = true) :
    (p.assign (p.read src).value.value).2 = true ∧
      (p.assign (p.read src).value.value).1.value = (p.read src).value.value :=
  (p.read_yields src h).restores hf hn hv

/-- A point or a label that may be missing, in an optional field that is there. -/
def perhapsLabelled : Field :=
  .optional ⟨.optional ⟨labelled 0 [] 0 [], .unknown [], .tentative⟩, .unknown [], .present⟩

theorem perhapsLabelled_distinct :
    perhapsLabelled.Everywhere fun q => q.kind ≠ .float ∧ q.DistinctNames := by
  have hint : ∀ f, (Field.int f).Everywhere fun q => q.kind ≠ .float ∧ q.DistinctNames :=
    fun f => Field.everywhere_int ⟨nofun, trivial⟩
  have hopaque : (Field.unknown []).Everywhere fun q => q.kind ≠ .float ∧ q.DistinctNames :=
    Field.everywhere_iff.2 ⟨⟨nofun, trivial⟩, nofun⟩
  have hlabelled : (labelled 0 [] 0 []).Everywhere fun q => q.kind ≠ .float ∧ q.DistinctNames := by
    refine Field.everywhere_iff.2 ⟨⟨nofun, ?_⟩, fun c hc => ?_⟩
    · show ["shape", "rest", "items"].Nodup
      decide
    rcases hc with _ | ⟨_, _ | ⟨_, _ | ⟨_, ⟨⟩⟩⟩⟩
    · refine Field.everywhere_iff.2 ⟨⟨nofun, by decide, fun c hc => ?_⟩, fun c hc => ?_⟩
      · rcases hc with _ | ⟨_, _ | ⟨_, ⟨⟩⟩⟩
        · show ["tag", "x"].Nodup
          decide
        · show ["tag", "text"].Nodup
          decide
      · rcases hc with _ | ⟨_, _ | ⟨_, _ | ⟨_, _ | ⟨_, ⟨⟩⟩⟩⟩⟩
        · exact hint _
        · exact hint _
        · exact hint _
        · exact Field.everywhere_iff.2 ⟨⟨nofun, trivial⟩, nofun⟩
    · exact hint _
    · refine Field.everywhere_iff.2 ⟨⟨nofun, trivial⟩, fun c hc => ?_⟩
      rcases hc with _ | ⟨_, ⟨⟩⟩
      exact hint _
  refine Field.everywhere_iff.2 ⟨⟨nofun, trivial⟩, fun c hc => ?_⟩
  rcases hc with _ | ⟨_, _ | ⟨_, ⟨⟩⟩⟩
  · refine Field.everywhere_iff.2 ⟨⟨nofun, trivial⟩, fun c hc => ?_⟩
    rcases hc with _ | ⟨_, _ | ⟨_, ⟨⟩⟩⟩
    · exact hlabelled
    · exact hopaque
  · exact hopaque

/-- The label is read with a zero byte inside, and a byte behind the items that none of them reads;
its value has neither. -/
theorem perhapsLabelled_assign_read_value :
    (perhapsLabelled.read [2, 3, 104, 0, 105, 4, 2, 7, 9, 1]).value.value =
        .bundle [("shape", .variant "label" (.bundle [("tag", .int 2), ("text", .text "h")])),
          ("rest", .int 4), ("items", .list [.int 7, .int 9])] ∧
      (perhapsLabelled.assign
        (perhapsLabelled.read [2, 3, 104, 0, 105, 4, 2, 7, 9, 1]).value.value).2 = true ∧
      (perhapsLabelled.assign
        (perhapsLabelled.read [2, 3, 104, 0, 105, 4, 2, 7, 9, 1]).value.value).1.value =
          (perhapsLabelled.read [2, 3, 104, 0, 105, 4, 2, 7, 9, 1]).value.value :=
  ⟨rfl, Field.assign_read_value (fun q hq => (perhapsLabelled_distinct q hq).1)
    (fun q hq => (perhapsLabelled_distinct q hq).2) rfl rfl⟩

end WireProtocol
