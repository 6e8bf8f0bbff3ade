import Mathlib.Data.List.Nodup
import WireProtocol.Proofs.Field.Decoding

/-!
# Fields are read as they were written

Any state of a delimited field, once it is refreshed and ready, is written so that the field reads
the value back and leaves whatever follows (`Field.read_write_refresh`): counts, lengths and tags
are found as they were sent at any depth. It is proved by induction over the field from the lemma of
each kind.
-/

set_option autoImplicit false

namespace WireProtocol

/-! ## Tags -/

section
variable {modes : OptionalMode → OptionalMode → Prop}

theorem Field.Alike.tagStorage? {p g : Field} (h : p.Alike modes g) {f' : IntField}
    (hf : g.tagStorage? = some f') : ∃ f, p.tagStorage? = some f ∧ f' = f.withValue f'.value := by
  cases h with
  | int f v =>
    cases hf
    exact ⟨f, rfl, rfl⟩
  | enumeration f v =>
    cases hf
    exact ⟨f.storage, rfl, rfl⟩
  | _ => cases hf

theorem Choice.Alike.tagMember? {c c' : Choice Field} (h : c.Alike (Field.Alike modes) c')
    {m' : Field} (hm : c'.tagMember? = some m') : ∃ m, c.tagMember? = some m ∧ m.Alike modes m' := by
  cases h with
  | mk name tag hb =>
    cases hb with
    | plain h =>
      cases h with
      | nil => cases hm
      | cons hr _ =>
        cases hr with
        | mk name hr =>
          cases hm
          exact ⟨_, rfl, hr⟩
    | measured name length v trailing trailing' hh ht =>
      cases hh with
      | nil =>
        cases hm
        exact ⟨_, rfl, .int length v⟩
      | cons hr _ =>
        cases hr with
        | mk name hr =>
          cases hm
          exact ⟨_, rfl, hr⟩

/-- Tags of an alternative in two states differ in their values alone. -/
theorem Choice.Alike.tagStorage? {c c' : Choice Field} (h : c.Alike (Field.Alike modes) c')
    {f' : IntField} (hf : c'.tagStorage? = some f') :
    ∃ f, c.tagStorage? = some f ∧ f' = f.withValue f'.value := by
  obtain ⟨m', hm', hf⟩ := Option.bind_eq_some_iff.1 hf
  obtain ⟨m, hm, ha⟩ := h.tagMember? hm'
  obtain ⟨f, hmf, hv⟩ := ha.tagStorage? hf
  exact ⟨f, Option.bind_eq_some_iff.2 ⟨m, hm, hmf⟩, hv⟩

end

/-- Integers of one format and one offset are written alike. -/
theorem IntField.write_congr {f g : IntField} (hf : f.format = g.format)
    (ho : f.offset = g.offset) : (f.withValue g.value).write = g.write := by
  unfold write wire withValue
  rw [hf, ho]

theorem Field.write_of_tagStorage? {m : Field} {f : IntField} (h : m.tagStorage? = some f) :
    m.write = f.write := by
  cases m with
  | int g =>
    cases h
    rfl
  | enumeration g =>
    cases h
    rfl
  | _ => cases h

/-- The first member of a bundle is written first, if it is not the length of the rest. -/
theorem writeBundle_first {b : Bundle Field} {m : Member Field} (hm : b.members.head? = some m)
    (hl : b.lengthIndex? ≠ some 0) {bytes : Bytes} (hw : writeBundle b = .ok bytes) :
    ∃ n rest, m.field.write = .ok n ∧ bytes = n ++ rest := by
  cases b with
  | plain ms =>
    obtain ⟨ms, rfl⟩ := List.head?_eq_some_iff.1 hm
    obtain ⟨n, rest, hn, -, rfl⟩ := writeMembers_cons_inv hw
    exact ⟨n, rest, hn, rfl⟩
  | measured head name length tail trailing =>
    cases head with
    | nil => exact absurd rfl hl
    | cons m' head =>
      cases hm
      obtain ⟨c, k, d, hc, -, -, rfl⟩ := writeBundle_measured_inv hw
      obtain ⟨n, rest, hn, -, rfl⟩ := writeMembers_cons_inv hc
      exact ⟨n, rest ++ (k ++ (d ++ trailing)), hn, by simp only [List.append_assoc]⟩

/-- The first member of a bundle is read first, if it is not the length of the rest. -/
theorem readBundle_first {b : Bundle Field} {m : Member Field} (hm : b.members.head? = some m)
    (hl : b.lengthIndex? ≠ some 0) {src : Bytes} (h : (readBundle b src).error = none) :
    (m.field.read src).error = none := by
  cases b with
  | plain ms =>
    obtain ⟨ms, rfl⟩ := List.head?_eq_some_iff.1 hm
    have hms : (readMembers (m :: ms) src).error = none := by
      rw [readBundle] at h
      exact h
    rw [readMembers_cons] at hms
    exact (Outcome.andThen_ok hms).1
  | measured head name length tail trailing =>
    cases head with
    | nil => exact absurd rfl hl
    | cons m' head =>
      cases hm
      rw [readBundle_measured] at h
      have hhead := (Outcome.andThen_ok h).1
      rw [readMembers_cons] at hhead
      exact (Outcome.andThen_ok hhead).1

theorem Bundle.Alike.lengthIndex? {R : Field → Field → Prop} {b b' : Bundle Field}
    (h : b.Alike R b') : b'.lengthIndex? = b.lengthIndex? := by
  cases h with
  | plain h => rfl
  | measured name length v trailing trailing' hh ht => exact congrArg some hh.length_eq.symm

/-! ## Variants -/

/-- Different alternatives have different tags. -/
theorem Variant.Tagged.tag_ne {v : Variant Field} (h : v.Tagged) {i j : Nat} {c c' : Choice Field}
    (hij : i < j) (hc : v.alternatives[i]? = some c) (hc' : v.alternatives[j]? = some c') :
    c.tag ≠ c'.tag := by
  have hd := List.nodup_iff_getElem?_ne_getElem?.1 h.distinct i j hij
  have hj : j < v.alternatives.length := (List.getElem?_eq_some_iff.1 hc').1
  simp only [List.length_map, List.getElem?_map, hc, hc', Option.map_some] at hd
  exact fun ht => hd hj (congrArg some ht)

section
variable {modes : OptionalMode → OptionalMode → Prop} {v : Variant Field}
  {alternatives : List (Choice Field)} {current : Nat} {c c' : Choice Field}

/-- Every alternative reads the tag of the chosen one at the front of what that is written as, or
refuses it. -/
theorem Variant.Tagged.readTag?_written (ht : (⟨alternatives, current⟩ : Variant Field).Tagged)
    (ha : List.Forall₂ (Choice.Alike (Field.Alike modes)) v.alternatives alternatives)
    (hc' : alternatives[current]? = some c') {b : Bytes} (hw : writeBundle c'.bundle = .ok b)
    {a : Choice Field} {j : Nat} (haj : v.alternatives[j]? = some a) (rest : Bytes) :
    a.readTag? (b ++ rest) = some (.ok c'.tag) ∨
      ∃ fault, a.readTag? (b ++ rest) = some (.error (.invalidData fault)) := by
  obtain ⟨format, offset, halike⟩ := ht.alike
  obtain ⟨f, hf, hformat, hoffset⟩ := halike c' (List.mem_of_getElem? hc')
  obtain ⟨hl, hholds⟩ := ht.holds c' hc'
  -- the tag of the chosen alternative stands at the front
  obtain ⟨m, hm, hstorage⟩ := Option.bind_eq_some_iff.1 hf
  obtain ⟨first, hfirst, rfl⟩ := Option.map_eq_some_iff.1 hm
  obtain ⟨n, more, hn, rfl⟩ := writeBundle_first hfirst hl hw
  rw [Field.write_of_tagStorage? hstorage] at hn
  -- and the other alternative would send it in the same way
  obtain ⟨a', haj', haa⟩ := forall₂_getElem? ha.flip haj
  obtain ⟨g', hg', hgf, hgo⟩ := halike a' (List.mem_of_getElem? haj')
  obtain ⟨g, hg, hgv⟩ := Choice.Alike.tagStorage? haa hg'
  have hgformat : g.format = f.format := by
    rw [hformat, ← hgf, hgv]
    rfl
  have hgoffset : g.offset = f.offset := by
    rw [hoffset, ← hgo, hgv]
    rfl
  rw [← hholds f hf, List.append_assoc]
  exact Choice.readTag?_written hg ((IntField.write_congr hgformat hgoffset).trans hn) _

/-- An alternative that can read its bundle can read the tag in front of it. -/
theorem Choice.Alike.readTag?_ne_error (hcc : c.Alike (Field.Alike modes) c')
    (hl : c'.bundle.lengthIndex? ≠ some 0) {f : IntField} (hf : c'.tagStorage? = some f)
    {src : Bytes} (h : (readBundle c.bundle src).error = none) (e : CodecError) :
    c.readTag? src ≠ some (.error e) := by
  obtain ⟨m', hm', -⟩ := Option.bind_eq_some_iff.1 hf
  obtain ⟨m, hm, -⟩ := Choice.Alike.tagMember? hcc hm'
  obtain ⟨first, hfirst, rfl⟩ := Option.map_eq_some_iff.1 hm
  have hl : c.bundle.lengthIndex? ≠ some 0 := by
    cases hcc with
    | mk name tag hbundle => rwa [← hbundle.lengthIndex?]
  exact readTag?_of_member hm (readBundle_first hfirst hl h) e

/-- **A variant is recovered** if the chosen alternative is: none before it takes its tag. -/
theorem Variant.recovers
    (ha : List.Forall₂ (Choice.Alike (Field.Alike modes)) v.alternatives alternatives)
    (ht : (⟨alternatives, current⟩ : Variant Field).Tagged)
    (hc : v.alternatives[current]? = some c) (hc' : alternatives[current]? = some c')
    (hcc : c.Alike (Field.Alike modes) c')
    (hb : ∀ b, writeBundle c'.bundle = .ok b → b.length < 2 ^ 63 →
      Decodes (readBundle c.bundle) b fun r => bundleValues r = bundleValues c'.bundle) :
    (Field.variant v).Recovers (.variant ⟨alternatives, current⟩) := by
  intro b hw hlen
  rw [Field.write, writeChoice_eq, hc'] at hw
  obtain ⟨r, hr, hread⟩ := hb b hw hlen
  obtain ⟨hname, htag⟩ : c.name = c'.name ∧ c.tag = c'.tag := by
    cases hcc
    exact ⟨rfl, rfl⟩
  refine ⟨.variant ⟨v.alternatives.set current { c with bundle := r }, current⟩, ?_, fun rest => ?_⟩
  · have hlt : current < v.alternatives.length := (List.getElem?_eq_some_iff.1 hc).1
    simp only [Field.value, choiceValue_eq, hc', List.getElem?_set_self hlt, Option.elim_some, hr,
      hname]
  · have hchosen : c.readTag? (b ++ rest) = some (.ok c.tag) := by
      obtain ⟨format, offset, halike⟩ := ht.alike
      obtain ⟨f, hf, -⟩ := halike c' (List.mem_of_getElem? hc')
      have herror : (readBundle c.bundle (b ++ rest)).error = none := by
        rw [hread]
        rfl
      rw [htag]
      rcases ht.readTag?_written ha hc' hw hc rest with h | ⟨fault, h⟩
      · exact h
      · exact absurd h (Choice.Alike.readTag?_ne_error hcc (ht.holds c' hc').1 hf herror _)
    have hbefore : ∀ j < current, ∀ a, v.alternatives[j]? = some a → a.Passes (b ++ rest) := by
      intro j hj a haj
      obtain ⟨a', haj', haa⟩ := forall₂_getElem? ha.flip haj
      have hne : a'.tag ≠ c'.tag := ht.tag_ne hj haj' hc'
      rcases ht.readTag?_written ha hc' hw haj rest with h | h
      · refine .inl ⟨_, h, fun ht => hne ?_⟩
        cases haa
        exact ht.symm
      · exact .inr h
    have hprobe := probeTags_first hc hchosen hbefore 0
    rw [Nat.zero_add] at hprobe
    rw [Field.read, hprobe]
    dsimp only
    rw [readChoice_eq, hc, Option.elim_some, hread]
    rfl

end

/-! ## Fields -/

/-- **A field recovers every state of it** that is fresh and ready. -/
theorem Field.Alike.recovers {p g : Field} (h : p.Alike (· = ·) g) (hp : p.Delimited)
    (hf : g.Fresh) (hr : g.Ready) : p.Recovers g := by
  induction p generalizing g with
  | int f =>
    cases h
    exact IntField.recovers hr.self
  | enumeration f =>
    cases h
    exact EnumField.recovers hr.self
  | bitmask f =>
    cases h
    exact BitmaskField.recovers hr.self
  | float f =>
    cases h with
    | float _ hbits => exact FloatField.recovers hbits
  | text f =>
    cases h with
    | @text _ data hv =>
      intro b hw hb
      refine ⟨.text { f with data }, rfl, fun rest => ?_⟩
      rw [Field.read, ByteField.read_write_done hw hv hp.self hr.self hb]
      rfl
  | bytes f =>
    cases h with
    | @bytes _ data hv =>
      intro b hw hb
      refine ⟨.bytes { f with data }, rfl, fun rest => ?_⟩
      rw [Field.read, ByteField.read_write_done hw hv hp.self hr.self hb]
      rfl
  | list l ih _ =>
    cases h with
    | list _ hes hrest =>
      refine ListOf.recovers (fun e he => ?_) hrest hp.self hr.self fun e he => ?_
      · exact ih (hes e he) (hp.child (.head _)) (Field.fresh_list.1 hf e he) (hr.element he)
      · rw [(hes e he).minLength]
        exact (hr.element he).minLength_le_length (hes e he)
  | bitfield b => cases h
  | bundle b ih =>
    cases h with
    | @bundle _ b' hb =>
      have hfresh := Field.fresh_bundle.1 hf
      have hmembers : b.Alike Field.Recovers b' := hb.imp fun m hm m' hm' hmm =>
        ih m hm hmm (hp.child (List.mem_map_of_mem hm)) (hfresh.member m' hm') (hr.member hm')
      intro bytes hw hlen
      have hread : (Field.bundle b).read = fun src => (readBundle b src).map .bundle :=
        funext fun src => by rw [Field.read]
      rw [Field.write] at hw
      rw [hread]
      refine (Bundle.recovers hmembers hfresh (fun m hm => (hr.member hm).self) hw hlen).map
        fun r hrv => ?_
      rw [Field.value, Field.value, hrv]
  | optional o ih _ =>
    cases h with
    | @optional _ inner mode hi hm =>
      subst hm
      refine Optional.recovers hp.self fun hm => ?_
      exact ih hi (hp.child (.head _)) (Field.fresh_optional.1 hf hm) (hr.inner hm)
  | variant v ih =>
    cases h with
    | @variant _ alternatives current hcs hlt =>
      obtain ⟨c', hc'⟩ : ∃ c', alternatives[current]? = some c' :=
        ⟨_, List.getElem?_eq_getElem hlt⟩
      obtain ⟨c, hc, hcc⟩ := forall₂_getElem? hcs hc'
      have hmem := List.mem_of_getElem? hc
      have hfresh := Field.fresh_variant.1 hf c' hc'
      refine Variant.recovers hcs hr.self hc hc' hcc fun b hw hlen => ?_
      cases hcc with
      | mk name tag hb =>
        refine Bundle.recovers ?_ hfresh (fun m hm => (hr.current hc' hm).self) hw hlen
        refine hb.imp fun m hm m' hm' hmm => ih _ hmem m hm hmm (hp.child ?_)
          (hfresh.member m' hm') (hr.current hc' hm')
        exact List.mem_flatMap.2 ⟨_, hmem, List.mem_map_of_mem hm⟩
  | unknown data => cases h

/-- **Encoding and decoding a field is exact**: what a delimited field in any state writes, after it
was refreshed and if it is ready, the field reads in front of anything. The result has the value of
that state and is written as the same bytes. Their count is sent as a signed word, so they are fewer
than `2 ^ 63`, as those of every byte string in memory. -/
theorem Field.read_write_refresh {p g : Field} (hp : p.Delimited) (h : p.Alike (· = ·) g)
    (hr : g.refresh.1.Ready) {b : Bytes} (hw : g.refresh.1.write = .ok b) (hb : b.length < 2 ^ 63) :
    ∃ r, (∀ rest, p.read (b ++ rest) = .done r rest) ∧ r.value = g.refresh.1.value ∧
      r.write = .ok b := by
  obtain ⟨r, hv, hread⟩ := h.refresh.recovers hp g.refresh_fresh hr b hw hb
  refine ⟨r, hread, hv, ?_⟩
  have hb := hread []
  obtain ⟨c, hc, hwrite⟩ := Field.read_reencodes hp.sound (b ++ []) (by rw [hb]; rfl)
  rw [hb] at hc hwrite
  simp only [Outcome.done, List.append_nil] at hc hwrite
  rwa [hc]

/-- An unsigned byte of some default. -/
def octet (v : Int64) : IntField := (IntField.ofFormat ⟨.ofBytes 1, false, .big⟩).withDefault v

/-- A point or a label, and behind the length of the rest a list of bytes. -/
def labelled (current : Nat) (label : Bytes) (rest : Int64) (items : List Int64) : Field :=
  .bundle (.measured
    [⟨"shape", .variant ⟨[⟨"point", 1, .plain [⟨"tag", .int (octet 1)⟩, ⟨"x", .int (octet 0)⟩]⟩,
      ⟨"label", 2, .plain [⟨"tag", .int (octet 2)⟩, ⟨"text", .text ⟨.count (octet 0), label⟩⟩]⟩],
      current⟩⟩]
    "rest" ((octet 0).withValue rest)
    [⟨"items", .list ⟨.int (octet 0), .length (octet 0), none,
      items.map fun v => (.int ((octet 0).withValue v), [])⟩⟩] [])

theorem labelled_delimited : (labelled 0 [] 0 []).Delimited := by
  have hint : ∀ f, (Field.int f).Delimited := fun f => Field.delimited_of_children trivial nofun
  refine Field.delimited_of_children trivial fun c hc => ?_
  rcases hc with _ | ⟨_, _ | ⟨_, _ | ⟨_, ⟨⟩⟩⟩⟩
  · refine Field.delimited_of_children trivial fun c hc => ?_
    rcases hc with _ | ⟨_, _ | ⟨_, _ | ⟨_, _ | ⟨_, ⟨⟩⟩⟩⟩⟩
    · exact hint _
    · exact hint _
    · exact hint _
    · exact Field.delimited_of_children rfl nofun
  · exact hint _
  · refine Field.delimited_of_children rfl fun c hc => ?_
    rcases hc with _ | ⟨_, ⟨⟩⟩
    exact hint _

theorem labelled_alike : (labelled 0 [] 0 []).Alike (· = ·) (labelled 1 [104, 105] 0 [7, 9]) := by
  have hint : ∀ f : IntField, Field.Alike (· = ·) (.int f) (.int f) := fun f => .int f f.value
  refine .bundle (.measured _ _ _ _ _ (.cons (.mk _ (.variant _ ?_ (by decide))) .nil)
    (.cons (.mk _ (.list _ ?_ ?_)) .nil))
  · refine .cons (.mk _ _ (.plain (.cons (.mk _ (hint _)) (.cons (.mk _ (hint _)) .nil)))) ?_
    exact .cons (.mk _ _ (.plain (.cons (.mk _ (hint _)) (.cons (.mk _ (.text _ rfl)) .nil)))) .nil
  · intro e he
    obtain ⟨v, -, rfl⟩ := List.mem_map.1 he
    exact .int _ v
  · intro _ e he
    obtain ⟨v, -, rfl⟩ := List.mem_map.1 he
    rfl

theorem labelled_ready : (labelled 1 [104, 105] 3 [7, 9]).Ready := by
  have hint : ∀ v w, (Field.int ((octet v).withValue w)).Ready := fun v w =>
    Field.ready_of_parts nofun nofun
  refine Field.ready_of_parts trivial fun c hc => ?_
  rcases hc with _ | ⟨_, _ | ⟨_, _ | ⟨_, ⟨⟩⟩⟩⟩
  · refine Field.ready_of_parts ⟨by decide, ⟨(octet 0).format, 0, ?_⟩, ?_⟩ fun c hc => ?_
    · intro c hc
      rcases hc with _ | ⟨_, _ | ⟨_, ⟨⟩⟩⟩ <;> exact ⟨_, rfl, rfl, rfl⟩
    · rintro c ⟨⟩
      exact ⟨nofun, by rintro f ⟨⟩; rfl⟩
    · rcases hc with _ | ⟨_, _ | ⟨_, ⟨⟩⟩⟩
      · exact hint 2 2
      · exact Field.ready_of_parts (by rintro p ⟨⟩; rfl) nofun
  · exact hint 0 3
  · refine Field.ready_of_parts ⟨by rintro p ⟨⟩; rfl, nofun, nofun, ?_, by decide⟩ fun c hc => ?_
    · intro p _ e he
      obtain ⟨v, -, rfl⟩ := List.mem_map.1 he
      exact Nat.le_refl 1
    · obtain ⟨e, he, rfl⟩ := List.mem_map.1 hc
      obtain ⟨v, -, rfl⟩ := List.mem_map.1 he
      exact hint 0 v

/-- The length of the rest is stale in the edited state and derived by refreshing it. -/
theorem labelled_read_write_refresh : ∃ r,
    (∀ rest, (labelled 0 [] 0 []).read ([2, 2, 104, 105, 3, 2, 7, 9] ++ rest) = .done r rest) ∧
      r.value = (labelled 1 [104, 105] 0 [7, 9]).refresh.1.value ∧
      r.write = .ok [2, 2, 104, 105, 3, 2, 7, 9] :=
  Field.read_write_refresh labelled_delimited labelled_alike labelled_ready rfl (by decide)

end WireProtocol
