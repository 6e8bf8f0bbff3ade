import WireProtocol.Proofs.Field.Remnants
import WireProtocol.Proofs.Field.Spans
import WireProtocol.Proofs.Field.Strictness
import WireProtocol.Proofs.Field.Tags

/-!
# What reading can give

`p.Yields g` says without any input that `p` can have read `g`: a scalar has another value, a list
other elements that its prototype yields, and as many as a fixed size asks for, the chosen
alternative of a variant is one that its bundle yields. A read that succeeds gives a field that is
yielded (`Field.read_yields`), whatever the input, so what holds of all that was read is shown by
the cases of `Field.Yields`.
-/

set_option autoImplicit false

namespace WireProtocol

/-- The first field can have read the second one. -/
inductive Field.Yields : Field → Field → Prop
  | int (f : IntField) (v : Int64) : Yields (.int f) (.int (f.withValue v))
  | enumeration (f : EnumField) (v : Int64) : Yields (.enumeration f) (.enumeration (f.withValue v))
  /-- The word is one of the storage. -/
  | bitmask (f : BitmaskField) {v : UInt64} : v.toNat < 256 ^ f.bytes →
    Yields (.bitmask f) (.bitmask (f.withDefault v))
  | float (f : FloatField) (bits : UInt64) : Yields (.float f) (.float { f with bits })
  /-- A fixed size is kept. -/
  | text (f : ByteField) {data : Bytes} : ({ f with data } : ByteField).isValid = true →
    Yields (.text f) (.text { f with data })
  | bytes (f : ByteField) {data : Bytes} : ({ f with data } : ByteField).isValid = true →
    Yields (.bytes f) (.bytes { f with data })
  /-- Only elements with a length of their own leave bytes. -/
  | list (l : ListOf Field) {es : List (Field × Bytes)} : (∀ e ∈ es, Yields l.prototype e.1) →
    (l.elemLength = none → ∀ e ∈ es, e.2 = []) → (∀ n, l.size = .fixed n → es.length = n) →
    Yields (.list l) (.list { l with elements := es })
  | bitfield (b : Bitfield) (raw : UInt64) :
    Yields (.bitfield b) (.bitfield { b with members := Bitfield.unpack raw 0 b.members })
  | bundle {b b' : Bundle Field} : b.Alike Yields b' → Yields (.bundle b) (.bundle b')
  | absent (o : Optional Field) : o.mode ≠ .present →
    Yields (.optional o) (.optional ⟨o.default, o.default, .missing⟩)
  | present (o : Optional Field) {inner : Field} : o.mode ≠ .missing → Yields o.inner inner →
    Yields (.optional o) (.optional ⟨inner, o.default, .present⟩)
  | variant (v : Variant Field) {i : Nat} {c : Choice Field} {bundle : Bundle Field} :
    v.alternatives[i]? = some c → c.bundle.Alike Yields bundle →
    Yields (.variant v) (.variant ⟨v.alternatives.set i { c with bundle }, i⟩)
  | unknown (old data : Bytes) : Yields (.unknown old) (.unknown data)

/-! ## Scalars and lists -/

theorem BitmaskField.read_value {f : BitmaskField} {src : Bytes} (h : (f.read src).error = none) :
    ∃ v : UInt64, v.toNat < 256 ^ f.bytes ∧ (f.read src).value = f.withDefault v := by
  unfold read at h ⊢
  obtain ⟨taken, rest, -, hl, heq⟩ := withBytes_ok h
  rw [heq]
  have hb := f.bounds
  refine ⟨UInt64.ofNat (taken.toNat f.order), ?_, ?_⟩
  · rw [Bytes.toNat_word f.order (by omega), ← hl]
    exact Bytes.toNat_lt f.order taken
  · dsimp only
    split <;> rfl

theorem ByteField.read_isValid {f : ByteField} {src : Bytes} (h : (f.read src).error = none) :
    (f.read src).value.isValid = true := by
  obtain ⟨data, hdata⟩ := f.read_leaves src
  obtain ⟨size, old⟩ := f
  cases size with
  | fixed n =>
    obtain ⟨taken, rest, -, hl, heq⟩ := withBytes_ok h
    show (readData _ n src).value.isValid = true
    unfold readData
    rw [heq]
    simpa [isValid, Outcome.done] using hl
  | remainder | count p | length p =>
    rw [hdata]
    rfl

namespace ListOf

variable {readOne : Bytes → Outcome Field}

/-- Without a length in front of it an element has all that is left. -/
theorem readElement_leaves_nothing {elemLength : Option IntField} {src rest : Bytes}
    {e : Field × Bytes} (h : readElement readOne elemLength src = (.ok e, rest))
    (hn : elemLength = none) : e.2 = [] := by
  subst hn
  rw [readElement_none] at h
  obtain ⟨v, mid, -, hn⟩ := Decoded.andThen_ok h
  cases hn
  rfl

theorem readWith_count_fixed (hr : Spans readOne Field.length) {l : ListOf Field} {src : Bytes}
    (h : (readWith readOne l src).error = none) {n : Nat} (hs : l.size = .fixed n) :
    (readWith readOne l src).value.elements.length = n := by
  have heq : readWith readOne l src = l.finish (readMany readOne l.elemLength n [] src) := by
    simp only [readWith, hs]
  rw [heq] at h ⊢
  obtain ⟨es, rest, hd, hf⟩ := finish_ok h
  obtain ⟨_, rfl, hl, -⟩ := readMany_spans hr hd
  rw [hf]
  exact hl

end ListOf

/-! ## Members and alternatives -/

section
variable {R : Field → Field → Prop}

/-- Whatever the field reads is related to it. -/
def Field.ReadsRelated (R : Field → Field → Prop) (f : Field) : Prop :=
  ∀ src, (f.read src).error = none → R f (f.read src).value

theorem readMembers_related {ms : List (Member Field)} (hm : ∀ m ∈ ms, m.field.ReadsRelated R)
    {src : Bytes} (h : (readMembers ms src).error = none) :
    List.Forall₂ (Member.Alike R) ms (readMembers ms src).value := by
  induction ms generalizing src with
  | nil =>
    rw [readMembers]
    exact .nil
  | cons m ms ih =>
    rw [readMembers_cons] at h ⊢
    obtain ⟨hfirst, heq⟩ := Outcome.andThen_ok h
    rw [heq] at h ⊢
    exact .cons (.mk m.name (hm m (.head _) src hfirst)) (ih (fun m h => hm m (.tail _ h)) h)

theorem readBundle_related {b : Bundle Field} (hm : ∀ m ∈ b.members, m.field.ReadsRelated R)
    {src : Bytes} (h : (readBundle b src).error = none) : b.Alike R (readBundle b src).value := by
  cases b with
  | plain ms =>
    rw [readBundle] at h ⊢
    exact .plain (readMembers_related hm h)
  | measured head name length tail trailing =>
    rw [readBundle_measured] at h ⊢
    obtain ⟨hhead, heq⟩ := Outcome.andThen_ok h
    rw [heq] at h ⊢
    obtain ⟨-, heq⟩ := Outcome.andThen_ok h
    rw [heq] at h ⊢
    obtain ⟨-, region, rest, -, -, htail, heq⟩ := readTail_ok h
    obtain ⟨v, hv⟩ := length.read_leaves (readMembers head src).rest
    rw [heq, hv]
    refine .measured name length v trailing _ (readMembers_related ?_ hhead)
      (readMembers_related ?_ htail)
    · exact fun m h => hm m (List.mem_append_left _ h)
    · exact fun m h => hm m (List.mem_append_right _ (.tail _ h))

end

/-! ## Fields -/

/-- **What was read is what the field can have read**, whatever the input. -/
theorem Field.read_yields (f : Field) : f.ReadsRelated Field.Yields := by
  intro src h
  induction f generalizing src with
  | int f =>
    obtain ⟨v, hv⟩ := f.read_leaves src
    rw [Field.read, Outcome.value_map, hv]
    exact .int f v
  | enumeration f =>
    obtain ⟨v, hv⟩ := f.read_leaves src
    rw [Field.read, Outcome.value_map, hv]
    exact .enumeration f v
  | bitmask f =>
    obtain ⟨v, hlt, hv⟩ := f.read_value h
    rw [Field.read, Outcome.value_map, hv]
    exact .bitmask f hlt
  | float f =>
    obtain ⟨bits, hbits⟩ := f.read_leaves src
    rw [Field.read, Outcome.value_map, hbits]
    exact .float f bits
  | text f =>
    obtain ⟨data, hdata⟩ := f.read_leaves src
    have hvalid := ByteField.read_isValid h
    rw [hdata] at hvalid
    rw [Field.read, Outcome.value_map, hdata]
    exact .text f hvalid
  | bytes f =>
    obtain ⟨data, hdata⟩ := f.read_leaves src
    have hvalid := ByteField.read_isValid h
    rw [hdata] at hvalid
    rw [Field.read, Outcome.value_map, hdata]
    exact .bytes f hvalid
  | list l ih _ =>
    rw [Field.read] at h ⊢
    obtain ⟨es, hes⟩ := ListOf.readWith_leaves (fun bs => l.prototype.read bs) l src
    have hread := ListOf.readWith_elementRead h
    have hnothing := fun hn =>
      ListOf.readWith_forall (fun he => ListOf.readElement_leaves_nothing he hn) h
    have hcount := fun n => ListOf.readWith_count_fixed l.prototype.read_spans h (n := n)
    rw [hes] at hread hnothing hcount
    rw [Outcome.value_map, hes]
    refine .list l (fun e he => ?_) hnothing hcount
    obtain ⟨bs, hbs, hv⟩ := hread e he
    rw [hv]
    exact ih bs hbs
  | bitfield b =>
    obtain ⟨raw, -, hv⟩ := Bitfield.read_unpack h
    rw [Field.read, Outcome.value_map, hv]
    exact .bitfield b raw
  | bundle b ih =>
    rw [Field.read] at h ⊢
    exact .bundle (readBundle_related ih h)
  | optional o ih _ =>
    rw [read_optional] at h ⊢
    split at h
    · rename_i hm
      rw [if_pos hm]
      refine .absent o ?_
      rintro hp
      simp [hp] at hm
    · rename_i hm
      rw [if_neg hm]
      obtain ⟨hi, heq⟩ := Outcome.andThen_ok h
      rw [heq]
      refine .present o ?_ (ih src hi)
      rintro hp
      simp [hp] at hm
  | variant v ih =>
    obtain ⟨alternatives, current⟩ := v
    rw [Field.read] at h ⊢
    cases hp : probeTags src 0 none alternatives with
    | error e =>
      rw [hp] at h
      cases h
    | ok i =>
      rw [hp] at h
      obtain ⟨k, c, rfl, hc, -⟩ := probeTags_ok hp
      rw [Nat.zero_add] at h ⊢
      dsimp only at h ⊢
      rw [readChoice_eq, hc] at h ⊢
      exact .variant ⟨alternatives, current⟩ hc
        (readBundle_related (ih c (List.mem_of_getElem? hc)) h)
  | unknown old => exact .unknown old src

end WireProtocol
