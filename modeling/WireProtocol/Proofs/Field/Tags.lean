import WireProtocol.Proofs.Field.Composed
import WireProtocol.Proofs.Field.RoundTrip

/-!
# Which alternative is read

Tags are different as numbers, but an alternative is chosen by the bytes at the front of the input,
each alternative reading them in the format of its own tag. So the chosen one is the first that
accepts its tag and finds the bytes of it there (`Variant.read_takes`, `Choice.takes_iff`). What an
alternative writes begins with the bytes of its tag (`Choice.tagAt_write`), and is read as that
alternative or not at all, if these bytes and those of another tag never begin with one another
(`Variant.read_distinguishes`). Tags of one format and offset never do (`Choice.apart_of_format`).
-/

set_option autoImplicit false

namespace WireProtocol

/-! ## Tags as bytes -/

theorem EnumField.checked_value (f : EnumField) (storage : IntField) (rest : Bytes) :
    (f.checked storage rest).value.value = storage.value := by
  unfold checked
  dsimp only
  split <;> rfl

theorem IntField.checked_value (f : IntField) (rest : Bytes) : (f.checked rest).value = f := by
  unfold checked
  split <;> rfl

namespace Choice

/-- The bytes that the tag is sent as, if it fits. -/
def tagBytes? (c : Choice Field) : Option Bytes :=
  (c.tagStorage?.map (·.withValue c.tag)).bind fun f => f.write.toOption

/-- The input begins with the bytes of the tag. -/
def TagAt (c : Choice Field) (src : Bytes) : Prop :=
  ∃ t, c.tagBytes? = some t ∧ t <+: src

/-- The bytes of neither of two tags begin with those of the other one. -/
def Apart (a c : Choice Field) : Prop :=
  ∀ s t, a.tagBytes? = some s → c.tagBytes? = some t → ¬ s <+: t ∧ ¬ t <+: s

/-- The alternative finds its tag at the front of the input. -/
def Takes (c : Choice Field) (src : Bytes) : Prop := c.readTag? src = some (.ok c.tag)

/-- The alternative reads its own tag; a strict first member may refuse it. -/
def AcceptsTag (c : Choice Field) : Prop := ∀ t, c.tagBytes? = some t → c.Takes t

theorem tagBytes?_eq_some {c : Choice Field} {t : Bytes} :
    c.tagBytes? = some t ↔
      ∃ f, c.tagStorage? = some f ∧ (f.withValue c.tag).write = .ok t := by
  unfold tagBytes?
  cases c.tagStorage? with
  | none => simp
  | some f =>
    simp only [Option.map_some, Option.bind_some, Option.some.injEq, exists_eq_left']
    cases (f.withValue c.tag).write <;> simp [Except.toOption]

/-- **A tag that is read** is written as the bytes at the front. -/
theorem readTag?_ok {c : Choice Field} {src : Bytes} {v : Int64}
    (h : c.readTag? src = some (.ok v)) :
    ∃ f t, c.tagStorage? = some f ∧ (f.withValue v).write = .ok t ∧ t <+: src := by
  rw [c.readTag?_eq] at h
  unfold tagReader? at h
  cases hm : c.tagMember? with
  | none =>
    rw [hm] at h
    cases h
  | some m =>
    have hstorage : c.tagStorage? = m.tagStorage? := by
      rw [tagStorage?, hm, Option.bind_some]
    rw [hm] at h
    cases m with
    | int f =>
      obtain ⟨he, hv, -⟩ := Decoded.ofOutcome_ok (Prod.ext (Option.some.inj h) rfl)
      obtain ⟨w, t, hw, hs, hwrite⟩ := IntField.read_ok he
      have hvw : w = v := by
        rw [← hv, Outcome.value_map, hw]
        rfl
      exact ⟨f, t, hstorage, hvw ▸ hwrite, ⟨_, hs.symm⟩⟩
    | enumeration f =>
      obtain ⟨he, hv, -⟩ := Decoded.ofOutcome_ok (Prod.ext (Option.some.inj h) rfl)
      rw [Outcome.error_map, EnumField.read_eq] at he
      obtain ⟨hstore, heq⟩ := Outcome.andThen_ok he
      obtain ⟨w, t, hw, hs, hwrite⟩ := IntField.read_ok hstore
      have hvw : w = v := by
        rw [← hv, Outcome.value_map, EnumField.read_eq, heq, EnumField.checked_value, hw]
        rfl
      exact ⟨f.storage, t, hstorage, hvw ▸ hwrite, ⟨_, hs.symm⟩⟩
    | _ => cases h

theorem TagAt.append {c : Choice Field} {src : Bytes} (h : c.TagAt src) (rest : Bytes) :
    c.TagAt (src ++ rest) := by
  obtain ⟨t, ht, hp⟩ := h
  exact ⟨t, ht, hp.trans (List.prefix_append src rest)⟩

/-- The tag is found where its bytes are, if it is accepted at all. -/
theorem takes_iff {c : Choice Field} {src : Bytes} :
    c.Takes src ↔ c.AcceptsTag ∧ c.TagAt src := by
  constructor
  · intro h
    obtain ⟨f, t, hf, hw, rest, rfl⟩ := readTag?_ok h
    have ht : c.tagBytes? = some t := tagBytes?_eq_some.2 ⟨f, hf, hw⟩
    refine ⟨fun t' ht' => ?_, t, ht, List.prefix_append t rest⟩
    cases ht.symm.trans ht'
    have hwritten := readTag?_written hf hw []
    rw [List.append_nil] at hwritten
    obtain hok | ⟨fault, hfault⟩ := hwritten
    · exact hok
    -- a tag that is refused is refused in front of anything
    · have hrest : c.readTag? (t ++ rest) = c.readTag? t := c.readTag?_extend rest fun n hn => by
        rw [hfault] at hn
        cases hn
      rw [hfault, h] at hrest
      cases hrest
  · rintro ⟨haccepts, t, ht, rest, rfl⟩
    have htag : c.Takes t := haccepts t ht
    show c.readTag? (t ++ rest) = some (.ok c.tag)
    rw [c.readTag?_extend rest fun n hn => by rw [htag] at hn; cases hn]
    exact htag

/-- Two tags cannot both be at the front of an input if they are apart. -/
theorem Apart.not_both {a c : Choice Field} (h : a.Apart c) {src : Bytes} (ha : a.TagAt src)
    (hc : c.TagAt src) : False := by
  obtain ⟨s, hs, hsp⟩ := ha
  obtain ⟨t, ht, htp⟩ := hc
  obtain ⟨hst, hts⟩ := h s t hs ht
  exact (List.prefix_or_prefix_of_prefix hsp htp).elim hst hts

/-- **Different tags of one format and offset are apart.** -/
theorem apart_of_format {a c : Choice Field} (hne : a.tag ≠ c.tag) {f g : IntField}
    (hf : a.tagStorage? = some f) (hg : c.tagStorage? = some g) (hformat : f.format = g.format)
    (hoffset : f.offset = g.offset) : a.Apart c := by
  -- a chain of bytes that begins with two tags would be read as both of them
  have hsame {v w : Int64} {s rest : Bytes} (hs : (f.withValue v).write = .ok s)
      (ht : (f.withValue w).write = .ok (s ++ rest)) : v = w := by
    have hread := IntField.read_write hs rest
    have hwhole := IntField.read_write ht []
    rw [List.append_nil, hread] at hwhole
    have hvalue := congrArg Outcome.value hwhole
    rw [IntField.checked_value, IntField.checked_value] at hvalue
    exact congrArg IntField.value hvalue
  have hwrite (v : Int64) : (g.withValue v).write = (f.withValue v).write :=
    (IntField.write_congr (f := f) (g := g.withValue v) hformat hoffset).symm
  intro s t hs ht
  obtain ⟨f', hf', hs⟩ := tagBytes?_eq_some.1 hs
  obtain ⟨g', hg', ht⟩ := tagBytes?_eq_some.1 ht
  cases hf.symm.trans hf'
  cases hg.symm.trans hg'
  rw [hwrite] at ht
  constructor
  · rintro ⟨rest, rfl⟩
    exact hne (hsame hs ht)
  · rintro ⟨rest, rfl⟩
    exact hne (hsame ht hs).symm

/-! ## States of an alternative -/

section
variable {modes : OptionalMode → OptionalMode → Prop} {c c' : Choice Field}

theorem tagStorage?_twin (h : c.Alike (Field.Twin modes) c') (v : Int64) :
    c'.tagStorage?.map (·.withValue v) = c.tagStorage?.map (·.withValue v) := by
  cases h with
  | @mk name tag b b' hb =>
    have hm := hb.members fun f v => .int f v
    simp only [tagStorage?, tagMember?]
    revert hm
    generalize b.members = ms, b'.members = ms'
    rintro (_ | ⟨⟨-, ht⟩, -⟩)
    · rfl
    · cases ht <;> rfl

theorem takes_twin (h : c.Alike (Field.Twin modes) c') (src : Bytes) :
    c'.Takes src ↔ c.Takes src := by
  rw [Takes, Takes, readTag?_twin h]
  cases h
  rfl

end

/-- An alternative is made with the default of its first member as the tag. -/
theorem tagStorage?_of_tag {c : Choice Field} (h : c.bundle.tag? = some c.tag) :
    ∃ f, c.tagStorage? = some f ∧ f.default = c.tag := by
  simp only [tagStorage?, tagMember?]
  unfold Bundle.tag? at h
  split at h
  · rename_i hms
    rw [hms]
    exact ⟨_, rfl, Option.some.inj h⟩
  · rename_i hms
    rw [hms]
    exact ⟨_, rfl, Option.some.inj h⟩
  · cases h

/-- **An alternative that holds its tag writes it first.** If the tag is the length of what follows
it, it has to be the right one. -/
theorem tagAt_write {c : Choice Field} {f : IntField} (hf : c.tagStorage? = some f)
    (hv : f.value = c.tag) (hfresh : c.bundle.lengthIndex? = some 0 → c.bundle.Fresh) {b : Bytes}
    (hw : writeBundle c.bundle = .ok b) : c.TagAt b := by
  have hself : f.withValue c.tag = f := hv ▸ rfl
  suffices h : ∃ t, f.write = .ok t ∧ t <+: b by
    obtain ⟨t, ht, hp⟩ := h
    exact ⟨t, tagBytes?_eq_some.2 ⟨f, hf, hself.symm ▸ ht⟩, hp⟩
  obtain ⟨m, hm, hstorage⟩ := Option.bind_eq_some_iff.1 hf
  obtain ⟨first, hfirst, rfl⟩ := Option.map_eq_some_iff.1 hm
  by_cases hl : c.bundle.lengthIndex? = some 0
  · have hfresh := hfresh hl
    generalize c.bundle = bundle at *
    cases bundle with
    | plain ms => cases hl
    | measured head name length tail trailing =>
      cases List.eq_nil_of_length_eq_zero (Option.some.inj hl)
      cases hfirst
      cases hstorage
      obtain ⟨front, n, d, hfront, hn, hd, rfl⟩ := writeBundle_measured_inv hw
      cases hfront
      have hcount : f.value = Int64.ofNat (d ++ trailing).length := by
        rw [List.length_append, membersLength_write hd]
        exact hfresh.measured
      have hlength : f.withCount (d ++ trailing).length = f := by
        rw [IntField.withCount, ← hcount]
      rw [hlength] at hn
      exact ⟨n, hn, d ++ trailing, by simp only [List.nil_append]⟩
  · obtain ⟨t, rest, ht, rfl⟩ := writeBundle_first hfirst hl hw
    rw [Field.write_of_tagStorage? hstorage] at ht
    exact ⟨t, ht, List.prefix_append t rest⟩

end Choice

/-! ## The chosen alternative -/

theorem probeTags_ok {src : Bytes} {i j : Nat} {missing : Option Nat} {cs : List (Choice Field)}
    (h : probeTags src i missing cs = .ok j) :
    ∃ k c, j = i + k ∧ cs[k]? = some c ∧ c.Takes src ∧
      ∀ l < k, ∀ a, cs[l]? = some a → ¬ a.Takes src := by
  induction cs generalizing i missing with
  | nil => cases missing <;> cases h
  | cons c cs ih =>
    by_cases hc : c.Takes src
    · rw [probeTags_cons, hc] at h
      simp only [if_true, Except.ok.injEq] at h
      exact ⟨0, c, h.symm, rfl, hc, fun l hl => absurd hl (Nat.not_lt_zero l)⟩
    · have hrest : ∃ missing', probeTags src (i + 1) missing' cs = .ok j := by
        rw [probeTags_cons] at h
        split at h
        · rename_i tag htag
          have hne : tag ≠ c.tag := by
            rintro rfl
            exact hc htag
          rw [if_neg hne] at h
          exact ⟨_, h⟩
        · exact ⟨_, h⟩
        · exact ⟨_, h⟩
      obtain ⟨missing', hrest⟩ := hrest
      obtain ⟨k, a, rfl, ha, htakes, hbefore⟩ := ih hrest
      refine ⟨k + 1, a, by omega, ha, htakes, fun l hl d hd => ?_⟩
      cases l with
      | zero =>
        cases hd
        exact hc
      | succ l => exact hbefore l (by omega) d hd

namespace Variant

/-- **The alternative that is read** is the first that finds its tag. -/
theorem read_takes {v q : Variant Field} {src left : Bytes}
    (h : (Field.variant v).read src = .done (.variant q) left) :
    ∃ c, v.alternatives[q.current]? = some c ∧ c.Takes src ∧
      ∀ j < q.current, ∀ a, v.alternatives[j]? = some a → ¬ a.Takes src := by
  obtain ⟨alternatives, current⟩ := v
  rw [Field.read] at h
  cases hp : probeTags src 0 none alternatives with
  | error e =>
    rw [hp] at h
    cases congrArg Outcome.error h
  | ok i =>
    rw [hp] at h
    obtain ⟨k, c, hk, hc, htakes, hbefore⟩ := probeTags_ok hp
    have hq : q.current = k := by
      rw [Nat.zero_add] at hk
      have hvalue := congrArg Outcome.value h
      rw [Outcome.value_map] at hvalue
      cases hvalue
      exact hk
    rw [hq]
    exact ⟨c, hc, htakes, hbefore⟩

section
variable {modes : OptionalMode → OptionalMode → Prop} {v w u : Variant Field}

theorem alternative_twin (hw : (Field.variant v).Twin modes (.variant w)) {i : Nat}
    {c : Choice Field} (hc : w.alternatives[i]? = some c) :
    ∃ a, v.alternatives[i]? = some a ∧ a.Alike (Field.Twin modes) c := by
  cases hw with
  | variant _ current hcs => exact forall₂_getElem? hcs hc

theorem twin_alternative (hw : (Field.variant v).Twin modes (.variant w)) {i : Nat}
    {a : Choice Field} (ha : v.alternatives[i]? = some a) :
    ∃ c, w.alternatives[i]? = some c ∧ a.Alike (Field.Twin modes) c := by
  cases hw with
  | variant _ current hcs => exact forall₂_getElem? hcs.flip ha

/-- What a variant in another state chooses, told by the alternatives as they were made. -/
theorem read_takes_twin (hu : (Field.variant v).Twin modes (.variant u)) {q : Variant Field}
    {src left : Bytes} (h : (Field.variant u).read src = .done (.variant q) left) :
    ∃ c, v.alternatives[q.current]? = some c ∧ c.Takes src ∧
      ∀ j < q.current, ∀ a, v.alternatives[j]? = some a → ¬ a.Takes src := by
  obtain ⟨c', hc', htakes, hbefore⟩ := read_takes h
  obtain ⟨c, hc, hcc⟩ := alternative_twin hu hc'
  refine ⟨c, hc, (Choice.takes_twin hcc src).1 htakes, fun j hj a ha hatakes => ?_⟩
  obtain ⟨a', ha', haa⟩ := twin_alternative hu ha
  exact hbefore j hj a' ha' ((Choice.takes_twin haa src).2 hatakes)

/-- A variant whose chosen alternative holds its default tag writes that tag first. -/
theorem tagAt_write {bs : List (String × Bundle Field)} (hv : Variant.ofBundles? bs = .ok v)
    (hw : (Field.variant v).Twin modes (.variant w)) {c : Choice Field} (hc : w.current? = some c)
    (hdefault : ∀ f, c.tagStorage? = some f → f.value = f.default)
    (hfresh : c.bundle.lengthIndex? = some 0 → c.bundle.Fresh) {b : Bytes}
    (hb : (Field.variant w).write = .ok b) : c.TagAt b := by
  obtain ⟨a, ha, hac⟩ := alternative_twin hw hc
  obtain ⟨made, -, -, hbundle, hmade⟩ :=
    forall₂_mem_right (Variant.ofBundles?_ok hv).1 (List.mem_of_getElem? ha)
  obtain ⟨g, hg, hgdefault⟩ := Choice.tagStorage?_of_tag (hbundle ▸ hmade)
  -- the tag members differ in their values alone
  have hstorage := Choice.tagStorage?_twin hac 0
  rw [hg] at hstorage
  obtain ⟨f, hf, hfg⟩ := Option.map_eq_some_iff.1 hstorage
  have hfdefault : f.default = g.default := congrArg (·.default) hfg
  have htag : c.tag = a.tag := by
    cases hac
    rfl
  have hvalue : f.value = c.tag := by
    rw [hdefault f hf, hfdefault, hgdefault, htag]
  have hwrite : writeBundle c.bundle = .ok b := by
    have hc : w.alternatives[w.current]? = some c := hc
    rw [Field.write, writeChoice_eq, hc, Option.elim_some] at hb
    exact hb
  exact Choice.tagAt_write hf hvalue hfresh hwrite

/-- **An alternative is read as itself or not at all**, in any state that holds its tag, whatever
the other members are and whatever follows, if the bytes of its tag and those of every alternative
in front of it are apart. Those behind it do not matter, unless it refuses its own tag. If a tag in
front of it begins its bytes, it is never read. -/
theorem read_distinguishes {bs : List (String × Bundle Field)} (hv : Variant.ofBundles? bs = .ok v)
    (hw : (Field.variant v).Twin modes (.variant w))
    (hu : (Field.variant v).Twin modes (.variant u)) {c : Choice Field}
    (hc : w.current? = some c)
    (hdefault : ∀ f, c.tagStorage? = some f → f.value = f.default)
    (hfresh : c.bundle.lengthIndex? = some 0 → c.bundle.Fresh) {b : Bytes}
    (hb : (Field.variant w).write = .ok b) :
    ((∀ j a, v.alternatives[j]? = some a → j ≠ w.current →
        (w.current < j → ¬ c.AcceptsTag) → a.Apart c) →
      ∀ rest q left, (Field.variant u).read (b ++ rest) = .done (.variant q) left →
        q.current = w.current) ∧
    ∀ j < w.current, ∀ a, v.alternatives[j]? = some a → a.AcceptsTag →
      (∃ t, c.tagBytes? = some t ∧ a.TagAt t) →
      ∀ rest q left, (Field.variant u).read (b ++ rest) = .done (.variant q) left →
        q.current < w.current := by
  have htag (rest : Bytes) : c.TagAt (b ++ rest) :=
    (tagAt_write hv hw hc hdefault hfresh hb).append rest
  constructor
  · intro hapart rest q left hread
    obtain ⟨a, ha, htakes, hbefore⟩ := read_takes_twin hu hread
    have hat : a.TagAt (b ++ rest) := (Choice.takes_iff.1 htakes).2
    by_contra hne
    have hrefuses : w.current < q.current → ¬ c.AcceptsTag := by
      intro hlt haccepts
      obtain ⟨p, hp, hpc⟩ := alternative_twin hw hc
      have hctakes : c.Takes (b ++ rest) := Choice.takes_iff.2 ⟨haccepts, htag rest⟩
      exact hbefore _ hlt p hp ((Choice.takes_twin hpc _).1 hctakes)
    exact (hapart q.current a ha hne hrefuses).not_both hat (htag rest)
  · rintro j hj a ha haccepts ⟨t, ht, hat⟩ rest q left hread
    obtain ⟨-, -, -, hbefore⟩ := read_takes_twin hu hread
    obtain ⟨t', ht', more, hmore⟩ := htag rest
    cases ht.symm.trans ht'
    have htakes : a.Takes (b ++ rest) := Choice.takes_iff.2 ⟨haccepts, hmore ▸ hat.append more⟩
    by_contra hle
    exact hbefore j (by omega) a ha htakes

end

end Variant

/-- A tag of so many bytes in front of one byte. -/
def taggedByte (bytes : Nat) (signed : Bool) (tag payload : Int64) : Bundle Field :=
  .plain [⟨"tag", .int ((IntField.ofFormat ⟨.ofBytes bytes, signed, .big⟩).withDefault tag)⟩,
    ⟨"payload", .int ((IntField.ofFormat ⟨.ofBytes 1, false, .big⟩).withValue payload)⟩]

/-- Tags of two widths; that of the second alternative begins that of the last. -/
def mixedTags (payload : Int64) (current : Nat) : Variant Field :=
  ⟨[⟨"wide", 0x0105, taggedByte 2 false 0x0105 0⟩, ⟨"narrow", 2, taggedByte 1 false 2 payload⟩,
    ⟨"late", 0x0203, taggedByte 2 false 0x0203 0⟩], current⟩

theorem mixedTags_twin (payload : Int64) (current : Nat) :
    (Field.variant (mixedTags 0 0)).Twin (· = ·) (.variant (mixedTags payload current)) := by
  have hself (bytes : Nat) (tag : Int64) :
      (taggedByte bytes false tag 0).Alike (Field.Twin (· = ·)) (taggedByte bytes false tag 0) :=
    Bundle.alike_self fun m _ => Field.twin_self (fun _ => rfl) m.field
  refine .variant _ current (.cons (.mk _ _ (hself 2 _)) (.cons (.mk _ _ ?_)
    (.cons (.mk _ _ (hself 2 _)) .nil)))
  exact .plain (.cons (.mk _ (.int _ 2)) (.cons (.mk _ (.int _ payload)) .nil))

/-- The second alternative is always read as itself, the last one never. -/
theorem mixedTags_distinguished :
    (Field.variant (mixedTags 7 1)).write = .ok [2, 7] ∧
      (∀ rest q left, (Field.variant (mixedTags 0 0)).read ([2, 7] ++ rest) =
        .done (.variant q) left → q.current = 1) ∧
      (Field.variant (mixedTags 0 2)).write = .ok [2, 3, 0] ∧
      ∀ rest q left, (Field.variant (mixedTags 0 0)).read ([2, 3, 0] ++ rest) =
        .done (.variant q) left → q.current < 2 := by
  have hmade : Variant.ofBundles? ((mixedTags 0 0).alternatives.map fun c => (c.name, c.bundle)) =
      .ok (mixedTags 0 0) := rfl
  have hnarrow := Variant.read_distinguishes hmade (mixedTags_twin 7 1) (mixedTags_twin 0 0) rfl
    (by rintro _ ⟨⟩; rfl) nofun rfl
  have hlate := Variant.read_distinguishes hmade (mixedTags_twin 0 2) (mixedTags_twin 0 0) rfl
    (by rintro _ ⟨⟩; rfl) nofun rfl
  refine ⟨rfl, hnarrow.1 ?_, rfl, hlate.2 1 (by decide) _ rfl ?_ ?_⟩
  · intro j a ha hne hbehind
    match j, ha with
    | 0, ha =>
      cases ha
      rintro _ _ ⟨⟩ ⟨⟩
      decide
    | 1, _ => exact absurd rfl hne
    | 2, _ =>
      refine absurd ?_ (hbehind (by decide))
      rintro _ ⟨⟩
      rfl
  · rintro _ ⟨⟩
    rfl
  · exact ⟨[2, 3], rfl, [2], rfl, by decide⟩

/-- Tags that are different numbers and the same byte. -/
def signedTags (current : Nat) : Variant Field :=
  ⟨[⟨"Plus", 255, taggedByte 1 false 255 0⟩, ⟨"Minus", -1, taggedByte 1 true (-1) 0⟩], current⟩

/-- The second alternative is accepted, written, and read as the first one. -/
theorem signedTags_confused :
    Variant.ofBundles? [("Plus", taggedByte 1 false 255 0), ("Minus", taggedByte 1 true (-1) 0)] =
        .ok (signedTags 0) ∧
      (Field.variant (signedTags 1)).write = .ok [255, 0] ∧
      (Field.variant (signedTags 1)).read [255, 0] = .done (.variant (signedTags 0)) [] :=
  ⟨rfl, rfl, rfl⟩

end WireProtocol
