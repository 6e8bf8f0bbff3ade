import WireProtocol.Proofs.Field.Decoding
import WireProtocol.Proofs.Field.Kind

/-!
# Reading into a used field

Reading overwrites. What a field holds, which alternative it has chosen, the elements of a list and
what a read that failed has left do not reach the next read. `p.Twin modes g` says that `g` is `p` in
another such state, and twins in the same modes read every input alike (`Field.Twin.readsLike`).
-/

set_option autoImplicit false

namespace WireProtocol

variable {α β γ δ : Type}

/-! ## Outcomes -/

/-- Two reads end with the same error, if any, and leave the same input. If they succeed, what was
read is related. -/
structure Outcome.Alike (same : α → β → Prop) (o : Outcome α) (o' : Outcome β) : Prop where
  error : o'.error = o.error
  rest : o'.rest = o.rest
  value : o.error = none → same o.value o'.value

namespace Outcome.Alike

variable {same : α → β → Prop} {same' : γ → δ → Prop}

theorem done {v : α} {v' : β} (h : same v v') (rest : Bytes) :
    (Outcome.done v rest).Alike same (.done v' rest) :=
  ⟨rfl, rfl, fun _ => h⟩

theorem fail (v : α) (v' : β) (rest : Bytes) (e : CodecError) :
    (Outcome.fail v rest e).Alike same (.fail v' rest e) :=
  ⟨rfl, rfl, nofun⟩

theorem same_outcome (o : Outcome α) : o.Alike (· = ·) o := ⟨rfl, rfl, fun _ => rfl⟩

theorem map {o : Outcome α} {o' : Outcome β} (h : o.Alike same o') {f : α → γ} {f' : β → δ}
    (hf : ∀ v v', same v v' → same' (f v) (f' v')) : (o.map f).Alike same' (o'.map f') :=
  ⟨h.error, h.rest, fun he => hf _ _ (h.value he)⟩

/-- **Reads in order are alike** if the first ones are and the second ones go on alike. -/
theorem andThen {o : Outcome α} {o' : Outcome β} (h : o.Alike same o') {failed : α → γ}
    {failed' : β → δ} {next : α → Bytes → Outcome γ} {next' : β → Bytes → Outcome δ}
    (hn : ∀ v v' rest, same v v' → (next v rest).Alike same' (next' v' rest)) :
    (o.andThen failed next).Alike same' (o'.andThen failed' next') := by
  cases he : o.error with
  | none =>
    rw [andThen_of_none he, andThen_of_none (h.error.trans he), h.rest]
    exact hn _ _ _ (h.value he)
  | some e =>
    rw [andThen_of_some he, andThen_of_some (h.error.trans he), h.rest]
    exact fail _ _ _ e

theorem resume {d : Decoded α} {v : γ} {v' : δ} {next : α → Bytes → Outcome γ}
    {next' : α → Bytes → Outcome δ} (hn : ∀ w rest, (next w rest).Alike same' (next' w rest)) :
    (Decoded.resume d v next).Alike same' (Decoded.resume d v' next') := by
  obtain ⟨result, rest⟩ := d
  cases result with
  | ok w => exact hn w rest
  | error e => exact fail _ _ rest e

end Outcome.Alike

theorem withBytes_alike {same : α → β → Prop} {n : Nat} {src : Bytes} {v : α} {v' : β}
    {next : Bytes → Bytes → Outcome α} {next' : Bytes → Bytes → Outcome β}
    (h : ∀ taken rest, (next taken rest).Alike same (next' taken rest)) :
    (withBytes n src v next).Alike same (withBytes n src v' next') := by
  unfold withBytes
  cases Bytes.take? n src with
  | error missing => exact .fail _ _ src _
  | ok p => exact h p.1 p.2

/-! ## Scalars -/

theorem IntField.read_withValue (f : IntField) (v : Int64) (src : Bytes) :
    (f.read src).Alike (· = ·) ((f.withValue v).read src) := by
  have hformat : (f.withValue v).format = f.format := rfl
  unfold read
  rw [hformat]
  cases f.format.width with
  | fixed n bounds => exact withBytes_alike fun taken rest => .same_outcome _
  | var min max bounds =>
    dsimp only
    cases Groups.scan max src with
    | short => exact .fail _ _ _ _
    | tooLong rest => exact .fail _ _ _ _
    | ended chain rest => exact .same_outcome _

theorem EnumField.read_withValue (f : EnumField) (v : Int64) (src : Bytes) :
    (f.read src).Alike (· = ·) ((f.withValue v).read src) := by
  rw [read_eq, read_eq]
  refine (f.storage.read_withValue v src).andThen ?_
  rintro s _ rest rfl
  exact .same_outcome _

theorem BitmaskField.read_withDefault (f : BitmaskField) (v : UInt64) (src : Bytes) :
    (f.read src).Alike (· = ·) ((f.withDefault v).read src) :=
  withBytes_alike fun _ _ => .same_outcome _

theorem FloatField.read_bits (f : FloatField) (bits : UInt64) (src : Bytes) :
    (f.read src).Alike (· = ·) (({ f with bits } : FloatField).read src) :=
  withBytes_alike fun _ _ => .same_outcome _

theorem ByteField.read_data (f : ByteField) (data src : Bytes) :
    (f.read src).Alike (· = ·) (({ f with data } : ByteField).read src) := by
  have hdata (n : Nat) (src : Bytes) :
      (f.readData n src).Alike (· = ·) (({ f with data } : ByteField).readData n src) :=
    withBytes_alike fun _ _ => .same_outcome _
  cases hp : f.size.sizeField? with
  | some p =>
    rw [f.read_sized hp, read_sized { f with data } hp]
    exact .resume hdata
  | none =>
    obtain ⟨size, old⟩ := f
    cases size with
    | remainder => exact .same_outcome _
    | fixed n => exact hdata n src
    | count p | length p => cases hp

theorem ListOf.readWith_elements (readOne : Bytes → Outcome Field) (l : ListOf Field)
    (es : List (Field × Bytes)) (src : Bytes) :
    (readWith readOne l src).Alike (· = ·) (readWith readOne { l with elements := es } src) := by
  have hfinish (d : Decoded (List (Field × Bytes))) :
      (l.finish d).Alike (· = ·) (({ l with elements := es } : ListOf Field).finish d) := by
    rw [finish_eq, finish_eq]
    exact .resume fun _ _ => .same_outcome _
  obtain ⟨prototype, size, elemLength, elements⟩ := l
  cases size with
  | fixed n | remainder => exact hfinish _
  | count p =>
    rw [readWith_count readOne _ rfl, readWith_count readOne _ rfl]
    exact .resume fun _ _ => hfinish _
  | length p =>
    rw [readWith_length readOne _ rfl, readWith_length readOne _ rfl]
    exact .resume fun _ _ => withBytes_alike fun _ _ => hfinish _

/-! ## Twins -/

/-- The second of two packed fields is the first one with another value. -/
inductive Packable.Twin : Packable → Packable → Prop
  | int (f : IntField) (v : Int64) : Twin (.int f) (.int (f.withValue v))
  | enumeration (f : EnumField) (v : Int64) : Twin (.enumeration f) (.enumeration (f.withValue v))
  | bitmask (f : BitmaskField) (v : UInt64) : Twin (.bitmask f) (.bitmask (f.withDefault v))

/-- Members of one name and width whose packed fields are twins. -/
inductive BitMember.Twin : BitMember → BitMember → Prop
  | mk (name : String) (bits : UInt32) {f g : Packable} :
    f.Twin g → Twin ⟨name, bits, f⟩ ⟨name, bits, g⟩

/-- The second field is the first one in another state. Modes of optional fields are related by
`modes`. What an absent field holds may be anything, and so may the elements of a list. -/
inductive Field.Twin (modes : OptionalMode → OptionalMode → Prop) : Field → Field → Prop
  | int (f : IntField) (v : Int64) : Twin modes (.int f) (.int (f.withValue v))
  | enumeration (f : EnumField) (v : Int64) :
    Twin modes (.enumeration f) (.enumeration (f.withValue v))
  | bitmask (f : BitmaskField) (v : UInt64) : Twin modes (.bitmask f) (.bitmask (f.withDefault v))
  | float (f : FloatField) (bits : UInt64) : Twin modes (.float f) (.float { f with bits })
  | text (f : ByteField) (data : Bytes) : Twin modes (.text f) (.text { f with data })
  | bytes (f : ByteField) (data : Bytes) : Twin modes (.bytes f) (.bytes { f with data })
  | list (l : ListOf Field) (elements : List (Field × Bytes)) :
    Twin modes (.list l) (.list { l with elements })
  | bitfield (b : Bitfield) {members : List BitMember} :
    List.Forall₂ BitMember.Twin b.members members →
    Twin modes (.bitfield b) (.bitfield { b with members })
  | bundle {b b' : Bundle Field} : b.Alike (Twin modes) b' → Twin modes (.bundle b) (.bundle b')
  | optional (o : Optional Field) {inner : Field} {mode : OptionalMode} : modes o.mode mode →
    (mode ≠ .missing → Twin modes o.inner inner) →
    Twin modes (.optional o) (.optional { o with inner, mode })
  | variant (v : Variant Field) {alternatives : List (Choice Field)} (current : Nat) :
    List.Forall₂ (Choice.Alike (Twin modes)) v.alternatives alternatives →
    Twin modes (.variant v) (.variant ⟨alternatives, current⟩)
  | unknown (data data' : Bytes) : Twin modes (.unknown data) (.unknown data')

theorem Field.Twin.kind {modes : OptionalMode → OptionalMode → Prop} {p g : Field}
    (h : p.Twin modes g) : g.kind = p.kind := by
  cases h <;> rfl

/-! ## Reading alike -/

/-- The fields are of one kind, have one value and are written as the same bytes. -/
structure Field.Same (f g : Field) : Prop where
  kind : g.kind = f.kind
  value : g.value = f.value
  write : g.write = f.write

theorem Field.Same.refl (f : Field) : f.Same f := ⟨rfl, rfl, rfl⟩

/-- What was read alike is the same as a field. -/
theorem Outcome.Alike.toField {o o' : Outcome α} (h : o.Alike (· = ·) o') (f : α → Field) :
    (o.map f).Alike Field.Same (o'.map f) :=
  h.map fun v _ heq => heq ▸ .refl (f v)

/-- The fields read any input alike. -/
def Field.ReadsLike (p g : Field) : Prop := ∀ src, (p.read src).Alike Field.Same (g.read src)

/-- Members of the same names and the same content. -/
abbrev MembersSame : List (Member Field) → List (Member Field) → Prop :=
  List.Forall₂ (Member.Alike Field.Same)

theorem MembersSame.value {ms ms' : List (Member Field)} (h : MembersSame ms ms') :
    memberValues ms' = memberValues ms := by
  induction h with
  | nil => rfl
  | cons hm _ ih =>
    cases hm with
    | mk name hf => rw [memberValues, memberValues, hf.value, ih]

theorem MembersSame.write {ms ms' : List (Member Field)} (h : MembersSame ms ms') :
    writeMembers ms' = writeMembers ms := by
  induction h with
  | nil => rfl
  | cons hm _ ih =>
    cases hm with
    | mk name hf => rw [writeMembers, writeMembers, hf.write, ih]

theorem readMembers_alike {ms ms' : List (Member Field)}
    (h : List.Forall₂ (Member.Alike Field.ReadsLike) ms ms') (src : Bytes) :
    (readMembers ms src).Alike MembersSame (readMembers ms' src) := by
  induction h generalizing src with
  | nil =>
    rw [readMembers]
    exact .done .nil src
  | cons hm _ ih =>
    cases hm with
    | mk name hf =>
      rw [readMembers_cons, readMembers_cons]
      exact (hf src).andThen fun v v' rest hv =>
        (ih rest).map fun vs vs' hvs => .cons (.mk name hv) hvs

/-- The bundles have one value and are written as the same bytes. -/
structure Bundle.Same (b b' : Bundle Field) : Prop where
  value : bundleValues b' = bundleValues b
  write : writeBundle b' = writeBundle b

theorem Bundle.Same.plain {ms ms' : List (Member Field)} (h : MembersSame ms ms') :
    (Bundle.plain ms).Same (.plain ms') :=
  ⟨h.value, h.write⟩

theorem Bundle.Same.measured {head head' tail tail' : List (Member Field)} (name : String)
    (length : IntField) (trailing : Bytes) (hh : MembersSame head head')
    (ht : MembersSame tail tail') :
    (Bundle.measured head name length tail trailing).Same
      (.measured head' name length tail' trailing) :=
  ⟨by simp only [bundleValues, hh.value, ht.value], by simp only [writeBundle, hh.write, ht.write]⟩

theorem readTail_alike {head head' tail tail' : List (Member Field)} (name : String)
    (trailing trailing' : Bytes) (length : IntField) (hh : MembersSame head head')
    (ht : List.Forall₂ (Member.Alike Field.ReadsLike) tail tail') (src : Bytes) :
    (readTail head name tail trailing length src).Alike Bundle.Same
      (readTail head' name tail' trailing' length src) := by
  unfold readTail
  dsimp only
  split
  · exact .fail _ _ _ _
  · refine withBytes_alike fun region rest => ?_
    have h := readMembers_alike ht region
    rw [h.error]
    cases he : (readMembers tail region).error with
    | some e => exact .fail _ _ _ _
    | none =>
      dsimp only
      rw [h.rest]
      exact .done (.measured name length _ hh (h.value he)) rest

theorem readBundle_alike {b b' : Bundle Field} (h : b.Alike Field.ReadsLike b') (src : Bytes) :
    (readBundle b src).Alike Bundle.Same (readBundle b' src) := by
  cases h with
  | plain h =>
    rw [readBundle, readBundle]
    exact (readMembers_alike h src).map fun _ _ => Bundle.Same.plain
  | measured name length v trailing trailing' hh ht =>
    rw [readBundle_measured, readBundle_measured]
    refine (readMembers_alike hh src).andThen fun hs hs' rest hsame => ?_
    refine (length.read_withValue v rest).andThen ?_
    rintro n _ rest rfl
    exact readTail_alike name trailing trailing' n hsame ht rest

/-! ## Tags and alternatives -/

section
variable {R : Field → Field → Prop}

/-- The members of related bundles are related, the length among them, if integers of other values
are. -/
theorem Bundle.Alike.members {b b' : Bundle Field} (h : b.Alike R b')
    (hint : ∀ f v, R (.int f) (.int (f.withValue v))) :
    List.Forall₂ (Member.Alike R) b.members b'.members := by
  cases h with
  | plain h => exact h
  | measured name length v trailing trailing' hh ht =>
    exact List.rel_append hh (.cons (.mk name (hint length v)) ht)

end

section
variable {modes : OptionalMode → OptionalMode → Prop}

theorem Choice.readTag?_twin {c c' : Choice Field} (h : c.Alike (Field.Twin modes) c')
    (src : Bytes) : c'.readTag? src = c.readTag? src := by
  cases h with
  | @mk name tag b b' hb =>
    have hm := hb.members fun f v => .int f v
    simp only [readTag?, tagMember?]
    -- only the first members matter, which are twins of one kind
    revert hm
    generalize b.members = ms, b'.members = ms'
    rintro (_ | ⟨⟨-, ht⟩, -⟩)
    · rfl
    · cases ht with
      | int f v =>
        have h := f.read_withValue v src
        simp only [List.head?_cons, Option.map_some, h.error]
        cases he : (f.read src).error with
        | none => simp only [h.value he]
        | some e => rfl
      | enumeration f v =>
        have h := f.read_withValue v src
        simp only [List.head?_cons, Option.map_some, h.error]
        cases he : (f.read src).error with
        | none => simp only [h.value he]
        | some e => rfl
      | _ => rfl

theorem probeTags_twins {cs cs' : List (Choice Field)}
    (h : List.Forall₂ (Choice.Alike (Field.Twin modes)) cs cs') (src : Bytes) (i : Nat)
    (missing : Option Nat) : probeTags src i missing cs' = probeTags src i missing cs := by
  induction h generalizing i missing with
  | nil => cases missing <;> rfl
  | cons hc _ ih =>
    have htag := Choice.readTag?_twin hc src
    cases hc
    simp only [probeTags_cons, htag, ih]

end

/-- The alternatives at an index have one value and are written as the same bytes. -/
structure SameChoice (i : Nat) (cs cs' : List (Choice Field)) : Prop where
  value : choiceValue cs' i = choiceValue cs i
  write : writeChoice cs' i = writeChoice cs i

theorem readChoice_alike {cs cs' : List (Choice Field)}
    (h : List.Forall₂ (Choice.Alike Field.ReadsLike) cs cs') (i : Nat) (src : Bytes) :
    (readChoice cs i src).Alike (SameChoice i) (readChoice cs' i src) := by
  induction h generalizing i with
  | nil =>
    rw [readChoice]
    exact .done ⟨rfl, rfl⟩ src
  | cons hc _ ih =>
    cases i with
    | zero =>
      cases hc with
      | mk name tag hb =>
        rw [readChoice, readChoice]
        refine (readBundle_alike hb src).map fun b b' hsame => ⟨?_, ?_⟩
        · simp only [choiceValue, hsame.value]
        · simp only [writeChoice, hsame.write]
    | succ i =>
      rw [readChoice, readChoice]
      exact (ih i).map fun _ _ hsame => ⟨hsame.value, hsame.write⟩

/-! ## Fields -/

theorem Packable.Twin.setBits {f g : Packable} (h : f.Twin g) (raw : UInt64) (bits : UInt32) :
    g.setBits raw bits = f.setBits raw bits := by
  cases h <;> rfl

theorem Bitfield.unpack_twins {ms ms' : List BitMember} (h : List.Forall₂ BitMember.Twin ms ms')
    (raw : UInt64) (pos : UInt32) : unpack raw pos ms' = unpack raw pos ms := by
  induction h generalizing pos with
  | nil => rfl
  | cons hm _ ih =>
    cases hm with
    | mk name bits hf => simp only [unpack, hf.setBits, ih]

theorem Bitfield.read_members {b : Bitfield} {members : List BitMember}
    (h : List.Forall₂ BitMember.Twin b.members members) (src : Bytes) :
    (b.read src).Alike (· = ·) (({ b with members } : Bitfield).read src) := by
  refine withBytes_alike fun taken rest => ?_
  dsimp only
  rw [unpack_twins h]
  exact .same_outcome _

/-- **Twins in the same modes read alike.** -/
theorem Field.Twin.readsLike {p g : Field} (h : p.Twin (· = ·) g) : p.ReadsLike g := by
  induction p generalizing g with
  | int f =>
    cases h with
    | int _ v => exact fun src => (f.read_withValue v src).toField .int
  | enumeration f =>
    cases h with
    | enumeration _ v => exact fun src => (f.read_withValue v src).toField .enumeration
  | bitmask f =>
    cases h with
    | bitmask _ v => exact fun src => (f.read_withDefault v src).toField .bitmask
  | float f =>
    cases h with
    | float _ bits => exact fun src => (f.read_bits bits src).toField .float
  | text f =>
    cases h with
    | text _ data => exact fun src => (f.read_data data src).toField .text
  | bytes f =>
    cases h with
    | bytes _ data => exact fun src => (f.read_data data src).toField .bytes
  | list l _ _ =>
    cases h with
    | list _ elements =>
      intro src
      simp only [Field.read]
      exact (ListOf.readWith_elements _ l elements src).toField .list
  | bitfield b =>
    cases h with
    | bitfield _ hm => exact fun src => (Bitfield.read_members hm src).toField .bitfield
  | bundle b ih =>
    cases h with
    | bundle hb =>
      intro src
      simp only [Field.read]
      have hb := hb.imp fun m hm _ _ hr => ih m hm hr
      refine (readBundle_alike hb src).map fun b b' hsame => ⟨rfl, ?_, hsame.write⟩
      simp only [Field.value, hsame.value]
  | optional o ih _ =>
    cases h with
    | @optional _ inner mode hm hi =>
      intro src
      subst hm
      rw [read_optional, read_optional]
      dsimp only
      by_cases hc : (o.mode == .missing || o.mode == .tentative && src.isEmpty) = true
      · rw [if_pos hc, if_pos hc]
        exact .done (.refl _) src
      · rw [if_neg hc, if_neg hc]
        have hne : o.mode ≠ .missing := by
          intro hmissing
          simp [hmissing] at hc
        refine (ih (hi hne) src).andThen fun v v' rest hv => .done ⟨rfl, ?_, ?_⟩ rest
        · simp only [Field.value, hv.value]
        · simp only [Field.write, hv.write]
  | variant v ih =>
    cases h with
    | @variant _ alternatives current hcs =>
      intro src
      obtain ⟨as, i⟩ := v
      simp only [Field.read, probeTags_twins hcs]
      cases probeTags src 0 none as with
      | error e => exact .fail _ _ src e
      | ok i =>
        have hcs := choicesAlike_imp hcs fun c hc _ _ m hm _ _ hr => ih c hc m hm hr
        refine (readChoice_alike hcs i src).map fun cs cs' hsame => ⟨rfl, ?_, ?_⟩
        · simp only [Field.value, hsame.value]
        · simp only [Field.write, hsame.write]
  | unknown data =>
    cases h
    exact fun src => .done (.refl _) []

end WireProtocol
