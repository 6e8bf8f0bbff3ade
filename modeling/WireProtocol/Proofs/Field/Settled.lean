import WireProtocol.Proofs.Field.Extension

/-!
# Fields that are steady

Reading a field that does not run to the end of the input is steady (`Field.read_steady`), and so is
reading a message of such fields (`Message.read_steady`), if every variant outside the regions of
declared length is settled. An unsettled variant chooses an alternative although an earlier one is
still short of the bytes of its tag, and takes that one when they have come.
-/

set_option autoImplicit false

namespace WireProtocol

/-! ## Probing tags -/

/-- The reader of the member that carries the tag. -/
def Choice.tagReader? (c : Choice Field) : Option (Bytes → Outcome Int64) :=
  match c.tagMember? with
  | some (.int f) => some fun src => (f.read src).map (·.value)
  | some (.enumeration f) => some fun src => (f.read src).map (·.value)
  | _ => none

theorem Choice.readTag?_eq (c : Choice Field) (src : Bytes) :
    c.readTag? src = c.tagReader?.map fun read => (Decoded.ofOutcome (read src)).1 := by
  unfold readTag? tagReader?
  cases c.tagMember? with
  | none => rfl
  | some f =>
    cases f with
    | int f =>
      simp only [Option.map_some, Decoded.ofOutcome, Outcome.error_map]
      cases (f.read src).error <;> rfl
    | enumeration f =>
      simp only [Option.map_some, Decoded.ofOutcome, Outcome.error_map]
      cases (f.read src).error <;> rfl
    | _ => rfl

theorem Choice.tagReader?_steady {c : Choice Field} {read : Bytes → Outcome Int64}
    (h : c.tagReader? = some read) : Steady read := by
  unfold tagReader? at h
  split at h
  · cases h
    exact (IntField.read_steady _).map _
  · cases h
    exact (EnumField.read_steady _).map _
  · cases h

theorem Choice.readTag?_extend (c : Choice Field) {src : Bytes} (more : Bytes)
    (h : ∀ n, c.readTag? src ≠ some (.error (.notEnoughData n))) :
    c.readTag? (src ++ more) = c.readTag? src := by
  rw [c.readTag?_eq] at h ⊢
  rw [c.readTag?_eq]
  cases hr : c.tagReader? with
  | none => rfl
  | some read =>
    rw [hr] at h
    simp only [Option.map_some, ne_eq, Option.some.injEq] at h ⊢
    exact (Prod.ext_iff.1 (SteadyDecoder.ofOutcome (tagReader?_steady hr) src more h)).1

theorem probeTags_cons (src : Bytes) (i : Nat) (missing : Option Nat) (c : Choice Field)
    (cs : List (Choice Field)) :
    probeTags src i missing (c :: cs) =
      match c.readTag? src with
      | some (.ok tag) => if tag = c.tag then .ok i else probeTags src (i + 1) missing cs
      | some (.error (.notEnoughData n)) => probeTags src (i + 1) (some (leastMissing n missing)) cs
      | _ => probeTags src (i + 1) missing cs := by
  cases missing <;> rfl

/-- Probing depends on the input only through the tags. -/
theorem probeTags_congr (src : Bytes) {src' : Bytes} {cs : List (Choice Field)}
    (h : ∀ c ∈ cs, c.readTag? src' = c.readTag? src) (i : Nat) (missing : Option Nat) :
    probeTags src' i missing cs = probeTags src i missing cs := by
  induction cs generalizing i missing with
  | nil => cases missing <;> rfl
  | cons c cs ih =>
    have ih := ih fun c hc => h c (.tail _ hc)
    rw [probeTags_cons, probeTags_cons, h c (.head _)]
    split
    · split
      · rfl
      · exact ih _ _
    · exact ih _ _
    · exact ih _ _

/-- After an alternative that was short the probe fails for no other reason. -/
theorem probeTags_some_error {src : Bytes} {i n : Nat} {cs : List (Choice Field)} {e : CodecError}
    (h : probeTags src i (some n) cs = .error e) : ∃ k, e = .notEnoughData k := by
  induction cs generalizing i n with
  | nil =>
    cases h
    exact ⟨n, rfl⟩
  | cons c cs ih =>
    rw [probeTags_cons] at h
    split at h
    · split at h
      · cases h
      · exact ih h
    · exact ih h
    · exact ih h

/-- If a tag is at the front of the input, it stays there, unless an earlier one turns up. -/
theorem probeTags_ok_extend {src : Bytes} (more : Bytes) {i j : Nat} {missing : Option Nat}
    {cs : List (Choice Field)} (h : probeTags src i missing cs = .ok j) (missing' : Option Nat) :
    ∃ k, probeTags (src ++ more) i missing' cs = .ok k := by
  induction cs generalizing i missing missing' with
  | nil => cases missing <;> cases h
  | cons c cs ih =>
    rw [probeTags_cons] at h ⊢
    by_cases hc : ∃ n, c.readTag? src = some (.error (.notEnoughData n))
    · obtain ⟨n, hn⟩ := hc
      rw [hn] at h
      split
      · split
        · exact ⟨i, rfl⟩
        · exact ih h _
      · exact ih h _
      · exact ih h _
    · rw [c.readTag?_extend more fun n hn => hc ⟨n, hn⟩]
      split at h
      · split at h
        · rename_i heq
          exact ⟨i, if_pos heq⟩
        · rename_i hne
          rw [if_neg hne]
          exact ih h _
      · exact ih h _
      · exact ih h _

/-- If no tag is at the front of the input, none will be. -/
theorem probeTags_error_extend {src : Bytes} (more : Bytes) {i : Nat} {cs : List (Choice Field)}
    {e : CodecError} (h : probeTags src i none cs = .error e) (he : ∀ n, e ≠ .notEnoughData n) :
    probeTags (src ++ more) i none cs = .error e := by
  induction cs generalizing i with
  | nil => exact h
  | cons c cs ih =>
    rw [probeTags_cons] at h ⊢
    by_cases hc : ∃ n, c.readTag? src = some (.error (.notEnoughData n))
    · obtain ⟨n, hn⟩ := hc
      rw [hn] at h
      obtain ⟨k, rfl⟩ := probeTags_some_error h
      exact absurd rfl (he k)
    · rw [c.readTag?_extend more fun n hn => hc ⟨n, hn⟩]
      split at h
      · split at h
        · cases h
        · rename_i hne
          rw [if_neg hne]
          exact ih h
      · rename_i heq
        exact absurd ⟨_, heq⟩ hc
      · exact ih h

/-! ## Settled variants -/

/-- No choice of an alternative that was read without a shortage of input is revised when more
comes. -/
def Variant.Settled (v : Variant Field) : Prop :=
  ∀ src more i, probeTags src 0 none v.alternatives = .ok i →
    ¬ (readChoice v.alternatives i src).IsShort →
    probeTags (src ++ more) 0 none v.alternatives = .ok i

/-- The width of the integer that carries the tag. -/
def Choice.tagWidth? (c : Choice Field) : Option IntWidth :=
  match c.tagMember? with
  | some (.int f) => some f.format.width
  | some (.enumeration f) => some f.storage.format.width
  | _ => none

/-- The input ends before an integer of that width does. -/
def IntWidth.IsShort (w : IntWidth) (src : Bytes) : Prop :=
  match w with
  | .fixed n _ => src.length < n
  | .var _ max _ => Groups.scan max src = .short

theorem IntField.checked_not_isShort (f : IntField) (rest : Bytes) :
    ¬ (f.checked rest).IsShort := by
  rintro ⟨n, hn⟩
  unfold checked at hn
  split at hn <;> cases hn

/-- Whether an integer is short of input depends on its width alone. -/
theorem IntField.read_isShort (f : IntField) (src : Bytes) :
    (f.read src).IsShort ↔ f.format.width.IsShort src := by
  unfold IntField.read IntWidth.IsShort
  cases f.format.width with
  | fixed n bounds =>
    dsimp only [withBytes]
    rw [Bytes.take?_eq]
    by_cases hl : src.length < n
    · rw [if_pos hl]
      exact iff_of_true ⟨_, rfl⟩ hl
    · rw [if_neg hl]
      exact iff_of_false (checked_not_isShort _ _) hl
  | var min max bounds =>
    dsimp only
    cases hs : Groups.scan max src with
    | short => exact iff_of_true ⟨1, rfl⟩ rfl
    | tooLong rest => exact iff_of_false (by rintro ⟨n, hn⟩; cases hn) nofun
    | ended chain rest =>
      refine iff_of_false ?_ nofun
      dsimp only
      split
      · split
        · exact checked_not_isShort _ _
        · rintro ⟨n, hn⟩
          cases hn
      · rintro ⟨n, hn⟩
        cases hn

theorem EnumField.read_isShort (f : EnumField) (src : Bytes) :
    (f.read src).IsShort ↔ f.storage.format.width.IsShort src := by
  rw [← f.storage.read_isShort, read_eq]
  cases he : (f.storage.read src).error with
  | some e =>
    rw [Outcome.andThen_of_some he]
    exact ⟨fun ⟨n, hn⟩ => ⟨n, he.trans hn⟩, fun ⟨n, hn⟩ => ⟨n, he.symm.trans hn⟩⟩
  | none =>
    rw [Outcome.andThen_of_none he]
    refine iff_of_false ?_ (Outcome.not_isShort_of_none he)
    rintro ⟨n, hn⟩
    unfold checked at hn
    dsimp only at hn
    split at hn <;> cases hn

theorem Choice.readTag?_isShort {c : Choice Field} {w : IntWidth} (h : c.tagWidth? = some w)
    (src : Bytes) :
    (∃ n, c.readTag? src = some (.error (.notEnoughData n))) ↔ w.IsShort src := by
  have key : ∀ o : Outcome Int64, (∃ n, some (Decoded.ofOutcome o).1 =
      some (.error (.notEnoughData n))) ↔ o.IsShort := by
    intro o
    unfold Decoded.ofOutcome Outcome.IsShort
    cases o.error <;> simp
  rw [c.readTag?_eq]
  unfold tagWidth? at h
  unfold tagReader?
  split at h
  · cases h
    exact (key _).trans (IntField.read_isShort _ src)
  · cases h
    exact (key _).trans (EnumField.read_isShort _ src)
  · cases h

/-- If every tag is short the probe finds none. -/
theorem probeTags_short {src : Bytes} {cs : List (Choice Field)}
    (h : ∀ c ∈ cs, ∃ n, c.readTag? src = some (.error (.notEnoughData n))) (i : Nat)
    (missing : Option Nat) : ∀ j, probeTags src i missing cs ≠ .ok j := by
  induction cs generalizing i missing with
  | nil => cases missing <;> exact nofun
  | cons c cs ih =>
    obtain ⟨n, hn⟩ := h c (.head _)
    rw [probeTags_cons, hn]
    exact ih (fun c hc => h c (.tail _ hc)) _ _

/-- If the tags have one width, either all of them are there or none, and the first that matches
stays the first. -/
theorem probeTags_ok_of_width {cs : List (Choice Field)} (w : IntWidth)
    (h : ∀ c ∈ cs, c.tagWidth? = some w) {src : Bytes} (more : Bytes) {i : Nat}
    (hi : probeTags src 0 none cs = .ok i) : probeTags (src ++ more) 0 none cs = .ok i := by
  have hw : ¬ w.IsShort src := fun hw =>
    probeTags_short (fun c hc => (Choice.readTag?_isShort (h c hc) src).2 hw) 0 none i hi
  rw [probeTags_congr src (fun c hc => c.readTag?_extend more fun n hn =>
    hw ((Choice.readTag?_isShort (h c hc) src).1 ⟨n, hn⟩)), hi]

/-- **A variant whose tags have one width is settled.** -/
theorem Variant.settled_of_width {v : Variant Field} (w : IntWidth)
    (h : ∀ c ∈ v.alternatives, c.tagWidth? = some w) : v.Settled :=
  fun _ more _ hi _ => probeTags_ok_of_width w h more hi

/-! ## Fields outside every region -/

/-- The fields directly inside a field that no declared length encloses. -/
def Field.exposed : Field → List Field
  | .list l =>
    match l.size, l.elemLength with
    | .length _, _ => []
    | _, some _ => []
    | _, none => [l.prototype]
  | .bundle b => b.exposed
  | .optional o => [o.inner]
  | .variant v => v.alternatives.flatMap (·.bundle.exposed)
  | _ => []

/-- `g` is the field, or stands in it outside every region of declared length. -/
inductive Field.Exposed (g : Field) : Field → Prop
  | self : Exposed g g
  | child {f c : Field} : c ∈ f.exposed → Exposed g c → Exposed g f

/-- Every variant outside the regions of declared length is settled. -/
def Field.TagsSettled (f : Field) : Prop := ∀ v, Field.Exposed (.variant v) f → v.Settled

theorem Field.TagsSettled.child {f c : Field} (h : f.TagsSettled) (hc : c ∈ f.exposed) :
    c.TagsSettled := fun v hv => h v (.child hc hv)

/-- A field is settled if it is no unsettled variant and the fields exposed in it are settled. -/
theorem Field.tagsSettled_of_exposed {f : Field} (hv : ∀ v, f = .variant v → v.Settled)
    (hc : ∀ c ∈ f.exposed, c.TagsSettled) : f.TagsSettled := by
  intro v h
  cases h with
  | self => exact hv v rfl
  | child hm h => exact hc _ hm v h

theorem Field.tagsSettled_int (f : IntField) : (Field.int f).TagsSettled := by
  refine tagsSettled_of_exposed nofun fun c hc => ?_
  cases hc

theorem Bundle.exposed_member {b : Bundle Field} {f : Field} (h : f ∈ b.exposed) :
    ∃ m ∈ b.members, m.field = f := by
  cases b with
  | plain ms => exact List.mem_map.1 h
  | measured head name length tail trailing =>
    obtain ⟨m, hm, rfl⟩ := List.mem_map.1 h
    exact ⟨m, List.mem_append_left _ hm, rfl⟩

theorem ListOf.prototype_exposed {l : ListOf Field} (hs : ∀ p, l.size ≠ .length p)
    (he : l.elemLength = none) : l.prototype ∈ (Field.list l).exposed := by
  unfold Field.exposed
  cases hp : l.size with
  | length p => exact absurd hp (hs p)
  | remainder | fixed n | count p => simp only [he, List.mem_singleton]

/-! ## Reading to the end -/

theorem ListOf.endsWithInput_eq_false {l : ListOf Field}
    (h : (Field.list l).readsToEnd = false) : l.size.endsWithInput = false := by
  obtain ⟨prototype, size, elemLength, elements⟩ := l
  cases size with
  | remainder =>
    rw [Field.readsToEnd] at h
    cases h
  | fixed n | count p | length p => rfl

theorem membersReadToEnd_eq_false {ms : List (Member Field)} :
    membersReadToEnd ms = false ↔ ∀ m ∈ ms, m.field.readsToEnd = false := by
  induction ms with
  | nil => exact iff_of_true rfl nofun
  | cons m ms ih =>
    rw [membersReadToEnd, Bool.or_eq_false_iff, ih, List.forall_mem_cons]

theorem bundleReadsToEnd_eq_false {b : Bundle Field} :
    bundleReadsToEnd b = false ↔ ∀ f ∈ b.exposed, f.readsToEnd = false := by
  cases b with
  | plain ms | measured ms =>
    rw [bundleReadsToEnd, membersReadToEnd_eq_false, Bundle.exposed, List.forall_mem_map]

theorem choicesReadToEnd_eq_false {cs : List (Choice Field)} :
    choicesReadToEnd cs = false ↔ ∀ c ∈ cs, bundleReadsToEnd c.bundle = false := by
  induction cs with
  | nil => exact iff_of_true rfl nofun
  | cons c cs ih =>
    rw [choicesReadToEnd, Bool.or_eq_false_iff, ih, List.forall_mem_cons]

/-- What reads to the end makes a field around it do so, unless a region is between them. -/
theorem Field.readsToEnd_exposed {f c : Field} (h : f.readsToEnd = false) (hc : c ∈ f.exposed) :
    c.readsToEnd = false := by
  cases f with
  | list l =>
    obtain ⟨prototype, size, elemLength, elements⟩ := l
    cases size with
    | length p => cases hc
    | remainder =>
      simp only [readsToEnd] at h
      cases h
    | fixed n | count p =>
      cases elemLength with
      | some q => cases hc
      | none =>
        rw [List.mem_singleton.1 hc]
        simpa [readsToEnd] using h
  | bundle b =>
    rw [readsToEnd] at h
    exact bundleReadsToEnd_eq_false.1 h c hc
  | optional o =>
    rw [readsToEnd, Bool.or_eq_false_iff] at h
    rw [List.mem_singleton.1 hc]
    exact h.2
  | variant v =>
    rw [readsToEnd] at h
    obtain ⟨a, ha, hc⟩ := List.mem_flatMap.1 hc
    exact bundleReadsToEnd_eq_false.1 (choicesReadToEnd_eq_false.1 h a ha) c hc
  | _ => cases hc

/-! ## Fields and messages -/

theorem Variant.read_steady {v : Variant Field} (hv : v.Settled)
    (h : ∀ c ∈ v.alternatives, Steady (readBundle c.bundle)) : Steady (Field.variant v).read := by
  obtain ⟨alternatives, current⟩ := v
  intro src more hs
  rw [Field.read] at hs ⊢
  rw [Field.read]
  cases hp : probeTags src 0 none alternatives with
  | error e =>
    rw [hp] at hs
    rw [probeTags_error_extend more hp fun n hn => hs ⟨n, by rw [hn]; rfl⟩]
    rfl
  | ok i =>
    rw [hp] at hs
    rw [hv src more i hp hs]
    exact (readChoice_steady h i).map _ src more hs

/-- **A variant that reads steadily is settled**, so nothing less than that would do. -/
theorem Variant.settled_of_steady {v : Variant Field} (h : Steady (Field.variant v).read) :
    v.Settled := by
  obtain ⟨alternatives, current⟩ := v
  intro src more i hi hs
  obtain ⟨k, hk⟩ := probeTags_ok_extend more hi none
  have hr := h src more
  rw [Field.read, Field.read] at hr
  dsimp only at hi hk
  rw [hi, hk] at hr
  have hv := congrArg Outcome.value (hr hs)
  simp only [Outcome.extend, Outcome.value_map, Field.variant.injEq, Variant.mk.injEq] at hv
  dsimp only
  rw [hk, hv.2]

/-- **Reading a field is steady** if it does not run to the end of the input and its variants
outside every region are settled. -/
theorem Field.read_steady {f : Field} (h : f.readsToEnd = false) (ht : f.TagsSettled) :
    Steady f.read := by
  induction f with
  | int f => exact f.read_steady.map Field.int
  | enumeration f => exact f.read_steady.map Field.enumeration
  | bitmask f => exact f.read_steady.map Field.bitmask
  | float f => exact f.read_steady.map Field.float
  | text f => exact (f.read_steady (by simpa [readsToEnd] using h)).map Field.text
  | bytes f => exact (f.read_steady (by simpa [readsToEnd] using h)).map Field.bytes
  | list l ih _ =>
    refine (ListOf.readWith_steady (ListOf.endsWithInput_eq_false h) fun hl he => ?_).map
      Field.list
    have hc := ListOf.prototype_exposed hl he
    exact ih (readsToEnd_exposed h hc) (ht.child hc)
  | bitfield b => exact b.read_steady.map Field.bitfield
  | bundle b ih =>
    refine (readBundle_steady fun c hc => ?_).map Field.bundle
    obtain ⟨m, hm, rfl⟩ := Bundle.exposed_member hc
    exact ih m hm (readsToEnd_exposed h hc) (ht.child hc)
  | optional o ih _ =>
    have hc : o.inner ∈ (Field.optional o).exposed := List.mem_singleton_self _
    have hm : (o.mode == .tentative) = false := by
      rw [readsToEnd, Bool.or_eq_false_iff] at h
      exact h.1
    -- whether the field is there does not depend on the input
    intro src more hs
    rw [Field.read_optional, hm] at hs ⊢
    rw [Field.read_optional, hm]
    simp only [Bool.false_and, Bool.or_false] at hs ⊢
    split
    · rfl
    · rename_i hmode
      rw [if_neg hmode] at hs
      exact (ih (readsToEnd_exposed h hc) (ht.child hc)).andThen (fun v rest more _ => rfl)
        src more hs
  | variant v ih =>
    refine Variant.read_steady (ht v .self) fun c hc => readBundle_steady fun g hg => ?_
    have hv : g ∈ (Field.variant v).exposed := List.mem_flatMap.2 ⟨c, hc, hg⟩
    obtain ⟨m, hm, rfl⟩ := Bundle.exposed_member hg
    exact ih c hc m hm (readsToEnd_exposed h hv) (ht.child hv)
  | unknown data =>
    rw [readsToEnd] at h
    cases h

/-! ## Messages -/

/-- Every variant outside the regions of declared length is settled. -/
def Message.TagsSettled (m : Message) : Prop := ∀ x ∈ m.fields, x.field.TagsSettled

/-- Rules ask for a presence that does not depend on the input. -/
theorem requiredMode_ne_tentative (rules : List PresenceRule) (version : UInt64)
    (before : List (Member Field)) : requiredMode rules version before ≠ some .tentative := by
  unfold requiredMode
  split
  · exact nofun
  · split <;> exact nofun

theorem Field.inMode_steady {f : Field} (h : f.readsToEnd = false) (ht : f.TagsSettled)
    {mode : Option OptionalMode} (hm : mode ≠ some .tentative) :
    Steady (f.inMode mode).1.read := by
  unfold inMode
  split
  · rename_i mode o
    split
    · exact read_steady h ht
    · have hc : o.inner ∈ (Field.optional o).exposed := List.mem_singleton_self _
      refine read_steady ?_ ?_
      · rw [readsToEnd, Bool.or_eq_false_iff]
        refine ⟨?_, readsToEnd_exposed h hc⟩
        cases mode with
        | tentative => exact absurd rfl hm
        | missing | present => rfl
      · intro v hv
        cases hv with
        | child hg hv =>
          rw [List.mem_singleton.1 hg] at hv
          exact ht v (.child hc hv)
  · exact read_steady h ht

theorem readFields_steady (rules : List PresenceRule) (version : UInt64)
    (before : List (Member Field)) {ms : List (Member Field)}
    (h : ∀ m ∈ ms, m.field.readsToEnd = false) (ht : ∀ m ∈ ms, m.field.TagsSettled) :
    Steady (readFields rules version before ms) := by
  induction ms generalizing before with
  | nil => exact fun src more _ => rfl
  | cons m ms ih =>
    rw [funext (readFields_cons rules version before m ms)]
    have hm := Field.inMode_steady (h m (.head _)) (ht m (.head _))
      (requiredMode_ne_tentative rules version before)
    exact hm.andThen fun v =>
      ih _ (fun m hm => h m (.tail _ hm)) fun m hm => ht m (.tail _ hm)

/-- **Reading a message is steady** if it does not run to the end of the input and its variants
outside every region are settled. -/
theorem Message.read_steady {m : Message} (h : m.readsToEnd = false) (ht : m.TagsSettled) :
    Steady m.read := by
  have hf := readFields_steady m.rules m.version []
    (membersReadToEnd_eq_false.1 h) ht
  exact hf.map fun fields => { m with fields }

end WireProtocol
