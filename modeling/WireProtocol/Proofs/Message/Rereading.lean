import WireProtocol.Proofs.Field.ResolvedModes
import WireProtocol.Proofs.Message.Refreshing

/-!
# Reading into a used message

A message that has read anything, in full or not, reads the next input as a new copy of its prototype
of the same version does (`Message.read_used`). Rules bring a field into the mode that they ask for
just before it is read, so what an earlier input made of that mode does not matter. One thing does
last: a tentative field that has been read once is present or missing from then on
(`trailedNote_read_twice`), and the new copy has to have it in the same mode.
-/

set_option autoImplicit false

namespace WireProtocol

variable {rules : List PresenceRule}

/-! ## One field -/

/-- What the rules may ask of the field at an index: nothing if none is about it. -/
inductive MayAsk (rules : List PresenceRule) (i : Nat) : Option OptionalMode → Prop
  | nothing : (∀ r ∈ rules, r.target ≠ i) → MayAsk rules i none
  | present {r : PresenceRule} : r ∈ rules → r.target = i → MayAsk rules i (some .present)
  | missing {r : PresenceRule} : r ∈ rules → r.target = i → MayAsk rules i (some .missing)

theorem requiredMode_mayAsk (rules : List PresenceRule) (version : UInt64)
    (before : List (Member Field)) :
    MayAsk rules before.length (requiredMode rules version before) := by
  by_cases h : ∃ r ∈ rules, r.target = before.length
  · obtain ⟨r, hr, ht⟩ := h
    rcases requiredMode_cases version ⟨r, hr, ht⟩ with ⟨hmode, -⟩ | ⟨hmode, -⟩ <;> rw [hmode]
    · exact .present hr ht
    · exact .missing hr ht
  · have hr : ∀ r ∈ rules, r.target ≠ before.length := fun r hr ht => h ⟨r, hr, ht⟩
    have hnone : requiredMode rules version before = none := by
      unfold requiredMode
      rw [List.filter_eq_nil_iff.2 fun r hm => by simpa using hr r hm]
    rw [hnone]
    exact .nothing hr

/-- The second of two fields at an index is a twin of the first one, apart from the mode if rules ask
for it. An optional field that is read as missing then holds its default, which has to be a twin of
the inner field as well. -/
inductive Field.TwinUnder (rules : List PresenceRule) (i : Nat) : Field → Field → Prop
  | free {p g : Field} : (∀ o, p = .optional o → ∀ r ∈ rules, r.target ≠ i) →
    p.Twin Resolves g → TwinUnder rules i p g
  | ruled {o : Optional Field} {inner : Field} (mode : OptionalMode) :
    (∃ r ∈ rules, r.target = i) → o.inner.Twin Resolves o.default → o.inner.Twin Resolves inner →
    TwinUnder rules i (.optional o) (.optional { o with inner, mode })

section
variable {i : Nat} {mode : Option OptionalMode}

theorem Field.TwinUnder.kind {p g : Field} (h : TwinUnder rules i p g) : g.kind = p.kind := by
  cases h with
  | free _ ht => exact ht.kind
  | ruled => rfl

/-- A field that is not both optional and subject to rules stays as it is. -/
theorem Field.inMode_free {f g : Field} (h : ∀ o, f = .optional o → ∀ r ∈ rules, r.target ≠ i)
    (hk : g.kind = f.kind) (hm : MayAsk rules i mode) : (g.inMode mode).1 = g := by
  cases g with
  | optional o =>
    obtain ⟨o', rfl⟩ := optional_of_kind hk.symm
    cases hm with
    | nothing _ => rfl
    | present hr ht | missing hr ht => exact absurd ht (h o' rfl _ hr)
  | _ => cases mode <;> rfl

/-- With its tentative fields resolved, the first field is a twin of the second one in every mode
that the rules may ask for. -/
theorem Field.TwinUnder.inMode {p g : Field} (h : TwinUnder rules i p g)
    (hm : MayAsk rules i mode) :
    ((p.resolvedBy g).inMode mode).1.Twin (· = ·) (g.inMode mode).1 := by
  cases h with
  | free hf ht =>
    rw [inMode_free hf (ht.resolvedBy.kind.symm.trans ht.kind) hm, inMode_free hf ht.kind hm]
    exact ht.resolvedBy
  | @ruled o inner old hr _ ht =>
    have htwin (asked : OptionalMode) :
        (((Field.optional o).resolvedBy (.optional { o with inner, mode := old })).inMode
          (some asked)).1.Twin (· = ·)
        ((Field.optional { o with inner, mode := old }).inMode (some asked)).1 := by
      obtain ⟨first, default, mode⟩ := o
      rw [resolvedBy, inMode_optional, inMode_optional]
      exact .optional ⟨first.resolvedBy inner, default, asked⟩ rfl fun _ => ht.resolvedBy
    cases hm with
    | nothing hnone =>
      obtain ⟨r, hr, ht⟩ := hr
      exact absurd ht (hnone r hr)
    | present => exact htwin .present
    | missing => exact htwin .missing

/-- Whatever is read in such a mode leaves fields that are twins in this sense again. -/
theorem Field.TwinUnder.read {p g : Field} (h : TwinUnder rules i p g) (hm : MayAsk rules i mode)
    (src : Bytes) : ((g.inMode mode).1.read src).Leaves (TwinUnder rules i p) := by
  cases h with
  | free hf ht =>
    rw [inMode_free hf ht.kind hm]
    exact TwinUnder.free hf (ht.read src)
  | ruled old hr hd ht =>
    cases hm with
    | nothing hnone =>
      obtain ⟨r, hr, ht⟩ := hr
      exact absurd ht (hnone r hr)
    | present =>
      rw [inMode_optional, read_optional, if_neg (by simp)]
      exact (ht.read src).andThen (fun _ => .ruled .present hr hd) fun _ _ => .ruled .present hr hd
    | missing =>
      rw [inMode_optional, read_optional]
      exact TwinUnder.ruled .missing hr hd hd

end

/-! ## All fields -/

/-- Fields of the same names that are twins under the rules, where the first is the one at an
index. -/
inductive FieldsTwin (rules : List PresenceRule) :
    Nat → List (Member Field) → List (Member Field) → Prop
  | nil (i : Nat) : FieldsTwin rules i [] []
  | cons {i : Nat} (name : String) {p g : Field} {ps gs : List (Member Field)} :
    Field.TwinUnder rules i p g → FieldsTwin rules (i + 1) ps gs →
    FieldsTwin rules i (⟨name, p⟩ :: ps) (⟨name, g⟩ :: gs)

theorem MembersSame.masks {ms ms' : List (Member Field)} (h : MembersSame ms ms') :
    WireProtocol.masks ms = WireProtocol.masks ms' := by
  induction h with
  | nil => rfl
  | cons hm _ ih =>
    cases hm with
    | mk name hf => exact congrArg₂ List.cons (Field.mask?_congr hf.kind.symm hf.value.symm) ih

/-- The fields of a used message read an input as those of the prototype do, with the tentative ones
resolved. -/
theorem readFields_alike (version : UInt64) {before before' : List (Member Field)}
    (hb : MembersSame before before') {ps gs : List (Member Field)}
    (h : FieldsTwin rules before.length ps gs) (src : Bytes) :
    (readFields rules version before (membersResolvedBy ps gs) src).Alike MembersSame
      (readFields rules version before' gs src) := by
  generalize hi : before.length = i at h
  induction h generalizing before before' src with
  | nil => exact .done hb src
  | @cons i name p g ps gs hf _ ih =>
    have hm := requiredMode_mayAsk rules version before
    rw [hi] at hm
    rw [membersResolvedBy, readFields_cons, readFields_cons, ← requiredMode_congr hb.masks]
    refine ((hf.inMode hm).readsLike src).andThen fun v v' rest hv => ?_
    refine ih (List.rel_append hb (.cons (.mk name hv) .nil)) rest ?_
    rw [List.length_append, hi]
    rfl

theorem readFields_leaves (version : UInt64) (before : List (Member Field))
    {ps gs : List (Member Field)} (h : FieldsTwin rules before.length ps gs) (src : Bytes) :
    (readFields rules version before gs src).Leaves fun fields =>
      ∃ fs, fields = before ++ fs ∧ FieldsTwin rules before.length ps fs := by
  generalize hi : before.length = i at h
  induction h generalizing before src with
  | nil => exact ⟨[], (List.append_nil before).symm, .nil _⟩
  | @cons i name p g ps gs hf hfs ih =>
    have hm := requiredMode_mayAsk rules version before
    rw [hi] at hm
    rw [readFields_cons]
    refine (hf.read hm src).andThen (fun v hv => ?_) fun v rest hv => ?_
    · exact ⟨_, rfl, .cons name hv hfs⟩
    · have hlast : (before ++ [(⟨name, v⟩ : Member Field)]).length = i + 1 := by
        rw [List.length_append, hi]
        rfl
      obtain ⟨fs, heq, hfs⟩ := ih (before ++ [⟨name, v⟩]) rest hlast
      exact ⟨⟨name, v⟩ :: fs, heq.trans (List.append_assoc _ _ _), .cons name hv hfs⟩

theorem FieldsTwin.outline {i : Nat} {ps gs : List (Member Field)} (h : FieldsTwin rules i ps gs) :
    SameOutline ps gs := by
  induction h with
  | nil => exact .nil
  | cons name hf _ ih => exact .cons ⟨rfl, hf.kind.symm⟩ ih

theorem fieldsTwin_self {ms : List (Member Field)} {i : Nat}
    (h : ∀ j x o, ms[j]? = some x → x.field = .optional o → (∃ r ∈ rules, r.target = i + j) →
      o.inner.Twin Resolves o.default) : FieldsTwin rules i ms ms := by
  have hself (f : Field) : f.Twin Resolves f := f.twin_self fun _ => .inl rfl
  induction ms generalizing i with
  | nil => exact .nil i
  | cons m ms ih =>
    refine .cons m.name ?_ (ih fun j x o hx ho hr => h (j + 1) x o hx ho ?_)
    · by_cases hr : ∃ o, m.field = .optional o ∧ ∃ r ∈ rules, r.target = i
      · obtain ⟨o, ho, hr⟩ := hr
        rw [ho]
        exact .ruled o.mode hr (h 0 m o rfl ho hr) (hself o.inner)
      · refine .free (fun o ho r hm ht => hr ⟨o, ho, r, hm, ht⟩) (hself m.field)
    · rwa [Nat.add_assoc, Nat.add_comm 1 j] at hr

/-! ## Messages -/

namespace Message

/-- The message was made from the prototype by reading, whether that failed or not, and by setting
the version. -/
inductive Used (p : Message) : Message → Prop
  | start : Used p p
  | read {m : Message} (src : Bytes) : Used p m → Used p (m.read src).value
  | setVersion {m : Message} (version : UInt64) : Used p m → Used p (m.setVersion version)

/-- The default of each optional field that rules are about is its inner field in some state, as it
is when the field is built. -/
def DefaultsFit (p : Message) : Prop :=
  ∀ i x o, p.fields[i]? = some x → x.field = .optional o → (∃ r ∈ p.rules, r.target = i) →
    o.inner.Twin Resolves o.default

theorem DefaultsFit.of_built {p : Message}
    (h : ∀ x ∈ p.fields, ∀ o, x.field = .optional o → o.default = o.inner) : p.DefaultsFit := by
  intro i x o hx ho _
  rw [h x (List.mem_of_getElem? hx) o ho]
  exact o.inner.twin_self fun _ => .inl rfl

/-- The message with its tentative fields in the modes that they have in another one. -/
def resolvedBy (p m : Message) : Message :=
  { p with fields := membersResolvedBy p.fields m.fields }

/-- Reading the message leaves no presence to the input. -/
def Decided (p : Message) : Prop := ∀ x ∈ p.fields, x.field.Decided

/-- The messages have one value and are written as the same bytes. -/
structure SameContent (x y : Message) : Prop where
  value : y.value = x.value
  write : y.write = x.write

end Message

theorem Message.Decided.resolvedBy_eq {p : Message} (h : p.Decided) (m : Message) :
    p.resolvedBy m = p := by
  unfold Message.resolvedBy
  rw [membersResolvedBy_eq fun x hx g => (h x hx).resolvedBy_eq g]

/-- A used message has the type of its prototype, and its fields are twins of the prototype's under
the rules. -/
theorem Message.Used.twins {p m : Message} (hp : p.DefaultsFit) (h : p.Used m) :
    p.SameType m ∧ FieldsTwin p.rules 0 p.fields m.fields := by
  induction h with
  | start =>
    refine ⟨⟨rfl, rfl, fun _ => rfl, sameOutline_refl _⟩, fieldsTwin_self fun i x o hx ho hr => ?_⟩
    rw [Nat.zero_add] at hr
    exact hp i x o hx ho hr
  | @read m src _ ih =>
    obtain ⟨htype, htwin⟩ := ih
    obtain ⟨fs, heq, hfs⟩ := readFields_leaves m.version [] htwin src
    rw [← htype.rules] at heq
    have hfields : (m.read src).value.fields = fs := heq
    rw [← hfields] at hfs
    exact ⟨⟨htype.rules, htype.versioned, htype.version, hfs.outline⟩, hfs⟩
  | @setVersion m version _ ih =>
    obtain ⟨htype, htwin⟩ := ih
    refine ⟨htype.withVersion version, ?_⟩
    unfold Message.setVersion
    split <;> exact htwin

/-- **Reading into a used message is reading into a new copy** of its prototype of the same version
whose tentative fields have the modes that earlier reads have given them: both end with the same
error or succeed, leave the same input and, if they succeed, have one value and are written as the
same bytes. Nothing else of what the message has read before matters, however far it came with that.
Without tentative fields the copy is the prototype as it is. -/
theorem Message.read_used {p m : Message} (hp : p.DefaultsFit) (h : p.Used m) (src : Bytes) :
    (((p.resolvedBy m).setVersion m.version).read src).Alike SameContent (m.read src) ∧
      (p.Decided → p.resolvedBy m = p) := by
  obtain ⟨htype, htwin⟩ := h.twins hp
  refine ⟨?_, fun hd => hd.resolvedBy_eq m⟩
  have hcopy : (p.resolvedBy m).setVersion m.version = { p with
      fields := membersResolvedBy p.fields m.fields
      version := (p.setVersion m.version).version } := by
    unfold setVersion resolvedBy
    dsimp only
    split <;> rfl
  rw [hcopy, htype.version_setVersion]
  unfold read
  dsimp only
  rw [htype.rules]
  refine (readFields_alike m.version .nil htwin src).map fun fs fs' hfs => ⟨?_, hfs.write⟩
  exact congrArg Value.bundle hfs.value

/-- A message with a body that a flag brings in and a byte that is there if the input goes on. -/
def flaggedNote : Message :=
  { flaggedBody with fields := flaggedBody.fields ++ [⟨"trailer", maybeOctet .tentative 0⟩] }

theorem flaggedBody_decided : flaggedBody.Decided := by
  have hint (f : IntField) : (Field.int f).Decided :=
    Field.decided_of_parts nofun (List.forall_mem_nil _)
  have hoctet : measuredOctet.Decided := Field.decided_of_parts nofun <|
    List.forall_mem_cons.2 ⟨hint _, List.forall_mem_cons.2 ⟨hint _, List.forall_mem_nil _⟩⟩
  refine List.forall_mem_cons.2 ⟨Field.decided_of_parts nofun (List.forall_mem_nil _), ?_⟩
  refine List.forall_mem_singleton.2 (Field.decided_of_parts ?_ (List.forall_mem_singleton.2 hoctet))
  rintro _ ⟨⟩
  exact nofun

/-- A body that ended early is no obstacle to the next one. The trailer was missing once and stays
so, and of a message without it a copy does as it is. -/
theorem flaggedNote_read_used :
    let used := ((flaggedNote.read [1, 3, 7]).value.read [0]).value
    flaggedNote.DefaultsFit ∧ flaggedNote.Used used ∧
      (flaggedNote.read [1, 3, 7]).error = some (.notEnoughData 2) ∧
      (flaggedNote.resolvedBy used).modes = [none, some .missing, some .missing] ∧
      (used.read [1, 1, 5, 9]).error = none ∧ (used.read [1, 1, 5, 9]).rest = [9] ∧
      (((flaggedNote.resolvedBy used).setVersion used.version).read [1, 1, 5, 9]).Alike
        Message.SameContent (used.read [1, 1, 5, 9]) ∧
      flaggedBody.resolvedBy (flaggedBody.read [1, 3, 7]).value = flaggedBody := by
  have hbody : flaggedBody.DefaultsFit := .of_built <| by
    refine List.forall_mem_cons.2 ⟨nofun, List.forall_mem_singleton.2 ?_⟩
    rintro _ ⟨⟩
    rfl
  have hnote : flaggedNote.DefaultsFit := .of_built <| by
    refine List.forall_mem_cons.2 ⟨nofun, List.forall_mem_cons.2 ⟨?_, List.forall_mem_singleton.2 ?_⟩⟩
    · rintro _ ⟨⟩
      rfl
    · rintro _ ⟨⟩
      rfl
  have hused : flaggedNote.Used ((flaggedNote.read [1, 3, 7]).value.read [0]).value :=
    .read _ (.read _ .start)
  exact ⟨hnote, hused, rfl, rfl, rfl, rfl, (Message.read_used hnote hused [1, 1, 5, 9]).1,
    (Message.read_used hbody (.read _ .start) []).2 flaggedBody_decided⟩

/-- A byte that is there if the input goes on. -/
def trailedNote : Message where
  id := 1
  name := "Note"
  fields := [⟨"trailer", maybeOctet .tentative 0⟩]

/-- Once the byte has been missing it stays so. -/
theorem trailedNote_read_twice :
    ((trailedNote.read []).value.read [5]).rest = [5] ∧ (trailedNote.read [5]).rest = [] ∧
      ¬ ∀ p m : Message, p.Used m → ∀ src,
        ((p.setVersion m.version).read src).Alike Message.SameContent (m.read src) := by
  refine ⟨rfl, rfl, fun h => ?_⟩
  have hrest := (h trailedNote _ (.read [] .start) [5]).rest
  cases hrest

end WireProtocol
