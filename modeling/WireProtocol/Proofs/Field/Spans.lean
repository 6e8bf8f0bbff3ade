import WireProtocol.Proofs.Field.Derived
import WireProtocol.Proofs.Field.Origin

/-!
# What was read is as long as it is predicted

Reading a field consumes as many bytes as the state that it reaches is predicted to take
(`Field.read_spans`). Where writing gives the bytes that were read this is known already; here it is
shown of every field, also of one that packs bits and does not keep all of them. So a length that
was read off the wire is the one that is derived from what stands behind it, and a field that was
read is fresh (`Field.read_fresh`).
-/

set_option autoImplicit false

namespace WireProtocol

variable {α β : Type}

/-- A read that succeeds consumes as many bytes as what was read is predicted to take. -/
def Spans (read : Bytes → Outcome α) (length : α → Nat) : Prop :=
  ∀ src, (read src).error = none →
    src.length = length (read src).value + (read src).rest.length

/-- A reader whose bytes are written again spans them. -/
theorem Reencodes.spans {read : Bytes → Outcome α} {write : α → Except CodecError Bytes}
    {length : α → Nat} (h : Reencodes read write)
    (hl : ∀ v b, write v = .ok b → b.length = length v) : Spans read length := by
  intro src he
  obtain ⟨c, hs, hw⟩ := h src he
  rw [← hl _ c hw, ← List.length_append, ← hs]

theorem SizePolicy.readSize_spans {p : IntField} {src rest : Bytes} {n : Nat}
    (h : readSize p src = (.ok n, rest)) : src.length = (p.withCount n).length + rest.length := by
  obtain ⟨c, rfl, hw⟩ := readSize_ok h
  rw [List.length_append, IntField.length_write hw]

theorem Bitfield.read_spans (f : Bitfield) : Spans f.read Bitfield.bytes := by
  intro src h
  unfold read at h ⊢
  obtain ⟨taken, rest, rfl, hl, heq⟩ := withBytes_ok h
  rw [heq, List.length_append, hl]
  rfl

/-! ## Lists -/

namespace ListOf

variable {readOne : Bytes → Outcome Field} (hr : Spans readOne Field.length)
include hr

theorem readElement_spans {elemLength : Option IntField} {src rest : Bytes} {e : Field × Bytes}
    (h : readElement readOne elemLength src = (.ok e, rest)) :
    src.length = framedLength elemLength (e.1.length + e.2.length) + rest.length := by
  cases elemLength with
  | none =>
    rw [readElement_none] at h
    obtain ⟨v, mid, hv, hn⟩ := Decoded.andThen_ok h
    obtain ⟨he, rfl, rfl⟩ := Decoded.ofOutcome_ok hv
    cases hn
    exact hr src he
  | some p =>
    rw [readElement_some] at h
    obtain ⟨q, mid, hq, hn⟩ := Decoded.andThen_ok h
    obtain ⟨he, rfl, rfl⟩ := Decoded.ofOutcome_ok hq
    obtain ⟨v, c, hv, hs, hw⟩ := IntField.read_ok he
    obtain ⟨hneg, region, hreg, hl, hone, rfl⟩ := readRegion_ok hn
    have hregion := hr region hone
    have hcount : (p.withCount region.length).length = c.length := by
      rw [hl, (IntField.write_withCount hv hneg).2, hv, IntField.length_write hw]
    rw [hs, hreg, List.length_append, List.length_append, framedLength, ← hregion, hcount,
      Nat.add_assoc]

theorem readMany_spans {elemLength : Option IntField} {n : Nat}
    {before es : List (Field × Bytes)} {src rest : Bytes}
    (h : readMany readOne elemLength n before src = (.ok es, rest)) :
    ∃ new, es = before.reverse ++ new ∧ new.length = n ∧
      src.length = framedLengths elemLength new + rest.length := by
  induction n generalizing before src with
  | zero =>
    cases h
    exact ⟨[], (List.append_nil _).symm, rfl, (Nat.zero_add _).symm⟩
  | succ n ih =>
    rw [readMany_succ] at h
    obtain ⟨e, mid, he, hn⟩ := Decoded.andThen_ok h
    have hspan := readElement_spans hr he
    obtain ⟨new, rfl, hl, hmid⟩ := ih hn
    refine ⟨e :: new, by simp, congrArg (· + 1) hl, ?_⟩
    rw [hspan, hmid, framedLengths, Nat.add_assoc]

theorem readUpTo_spans {elemLength : Option IntField} {limit : Nat}
    {before es : List (Field × Bytes)} {src rest : Bytes}
    (h : readUpTo readOne elemLength limit before src = (.ok es, rest)) :
    ∃ new, es = before.reverse ++ new ∧ rest = [] ∧
      src.length = framedLengths elemLength new := by
  induction limit generalizing before src with
  | zero =>
    cases src with
    | nil =>
      cases h
      exact ⟨[], (List.append_nil _).symm, rfl, rfl⟩
    | cons b bs => cases h
  | succ n ih =>
    cases src with
    | nil =>
      cases h
      exact ⟨[], (List.append_nil _).symm, rfl, rfl⟩
    | cons b bs =>
      unfold readUpTo at h
      split at h
      · rename_i e mid he
        have hspan := readElement_spans hr he
        obtain ⟨new, rfl, hrest, hmid⟩ := ih h
        exact ⟨e :: new, by simp, hrest, by rw [hspan, hmid, framedLengths]⟩
      · cases h

omit hr in
/-- What a list takes that holds as many elements as its size asks for. -/
theorem length_filled {prototype : Field} {size : SizePolicy} {elemLength : Option IntField}
    {es : List (Field × Bytes)} (h : ∀ n, size = .fixed n → es.length = n) :
    (Field.list ⟨prototype, size, elemLength, es⟩).length =
      prefixLength size es.length (framedLengths elemLength es) +
        framedLengths elemLength es := by
  rw [Field.length_list, sent_eq h]

theorem readBounded_spans {l : ListOf Field} {n : Nat} {src : Bytes}
    (h : (readBounded readOne l n src).error = none) :
    ∃ es rest, readBounded readOne l n src = .done { l with elements := es } rest ∧
      framedLengths l.elemLength es = n ∧ src.length = n + rest.length := by
  unfold readBounded at h ⊢
  obtain ⟨region, rest, rfl, rfl, hregion⟩ := withBytes_ok h
  rw [hregion] at h ⊢
  obtain ⟨es, rest', hd, hf⟩ := finish_ok h
  rw [hf]
  obtain ⟨hall, rfl⟩ := Prod.mk.inj hd
  refine ⟨es, rest, rfl, ?_, List.length_append⟩
  cases hread : readAll readOne l.elemLength region with
  | mk result left =>
    rw [hread] at hall
    cases result with
    | error e => cases hall
    | ok es' =>
      cases hall
      obtain ⟨new, rfl, -, hspan⟩ := readUpTo_spans hr hread
      exact hspan.symm

theorem readWith_spans (l : ListOf Field) :
    Spans (readWith readOne l) fun l => (Field.list l).length := by
  intro src h
  obtain ⟨prototype, size, elemLength, elements⟩ := l
  cases size with
  | fixed n =>
    rw [readWith] at h ⊢
    obtain ⟨es, rest, hd, hf⟩ := finish_ok h
    obtain ⟨_, rfl, hl, hspan⟩ := readMany_spans hr hd
    have hn : ∀ k, SizePolicy.fixed n = .fixed k → es.length = k := by
      rintro _ ⟨⟩
      exact hl
    simp only [hf, Outcome.done, length_filled hn, prefixLength, hspan, Nat.zero_add]
  | remainder =>
    rw [readWith] at h ⊢
    obtain ⟨es, rest, hd, hf⟩ := finish_ok h
    obtain ⟨_, rfl, rfl, hspan⟩ := readUpTo_spans hr hd
    have hn : ∀ k, SizePolicy.remainder = .fixed k → es.length = k := by rintro _ ⟨⟩
    simp only [hf, Outcome.done, length_filled hn, prefixLength, hspan, Nat.zero_add]
    rfl
  | count p =>
    rw [readWith_count readOne _ rfl] at h ⊢
    obtain ⟨n, mid, hsize, heq⟩ := Decoded.resume_ok h
    rw [heq] at h ⊢
    obtain ⟨es, rest, hd, hf⟩ := finish_ok h
    obtain ⟨_, rfl, rfl, hspan⟩ := readMany_spans hr hd
    have hn : ∀ k, SizePolicy.count p = .fixed k → es.length = k := by rintro _ ⟨⟩
    have hcount : (SizePolicy.count p).sizeLength es.length = (p.withCount es.length).length := rfl
    simp only [hf, Outcome.done, length_filled hn, prefixLength, hcount,
      SizePolicy.readSize_spans hsize, hspan, Nat.add_assoc]
  | length p =>
    rw [readWith_length readOne _ rfl] at h ⊢
    obtain ⟨n, mid, hsize, heq⟩ := Decoded.resume_ok h
    rw [heq] at h ⊢
    obtain ⟨es, rest, hb, rfl, hspan⟩ := readBounded_spans hr h
    have hn : ∀ k, SizePolicy.length p = .fixed k → es.length = k := by rintro _ ⟨⟩
    have hcount (n : Nat) : (SizePolicy.length p).sizeLength n = (p.withCount n).length := rfl
    simp only [hb, Outcome.done, length_filled hn, prefixLength, hcount,
      SizePolicy.readSize_spans hsize, hspan, Nat.add_assoc]

end ListOf

/-! ## Members and alternatives -/

theorem readMembers_spans {ms : List (Member Field)}
    (h : ∀ m ∈ ms, Spans m.field.read Field.length) : Spans (readMembers ms) membersLength := by
  induction ms with
  | nil => exact fun src _ => (Nat.zero_add src.length).symm
  | cons m ms ih =>
    intro src he
    rw [readMembers_cons] at he ⊢
    obtain ⟨hm, heq⟩ := Outcome.andThen_ok he
    rw [heq] at he ⊢
    have hms := ih (fun m hm => h m (.tail _ hm)) _ he
    simp only [Outcome.value_map, Outcome.rest_map, membersLength]
    rw [h m (.head _) src hm, hms, Nat.add_assoc]

theorem readTail_spans {tail : List (Member Field)}
    (h : ∀ m ∈ tail, Spans m.field.read Field.length) {head : List (Member Field)} {name : String}
    {trailing : Bytes} {length : IntField} {src : Bytes}
    (he : (readTail head name tail trailing length src).error = none) :
    ∃ tail' trailing' rest, readTail head name tail trailing length src =
        .done (.measured head name length tail' trailing') rest ∧
      length.withCount (membersLength tail' + trailing'.length) = length ∧
      src.length = membersLength tail' + trailing'.length + rest.length := by
  obtain ⟨hneg, region, rest, hs, hl, htail, heq⟩ := readTail_ok he
  have hspan := readMembers_spans h region htail
  refine ⟨_, _, rest, heq, ?_, ?_⟩
  · rw [← hspan, hl, IntField.withCount, ofNat_toInt_toNat hneg]
  · rw [hs, List.length_append, hspan]

theorem readBundle_spans {b : Bundle Field} (h : ∀ m ∈ b.members, Spans m.field.read Field.length) :
    Spans (readBundle b) bundleLength := by
  intro src he
  cases b with
  | plain ms =>
    rw [readBundle] at he ⊢
    exact readMembers_spans h src he
  | measured head name length tail trailing =>
    rw [readBundle_measured] at he ⊢
    obtain ⟨hhead, heq⟩ := Outcome.andThen_ok he
    rw [heq] at he ⊢
    obtain ⟨hlength, heq⟩ := Outcome.andThen_ok he
    rw [heq] at he ⊢
    obtain ⟨tail', trailing', rest, heq, hcount, hspan⟩ :=
      readTail_spans (fun m hm => h m (List.mem_append_right _ (.tail _ hm))) he
    have hms := readMembers_spans (fun m hm => h m (List.mem_append_left _ hm)) src hhead
    have hn := length.read_reencodes.spans (fun _ _ => IntField.length_write) _ hlength
    simp only [heq, Outcome.done, bundleLength, hcount, hms, hn, hspan, Nat.add_assoc]

theorem readChoice_spans {cs : List (Choice Field)}
    (h : ∀ c ∈ cs, ∀ m ∈ c.bundle.members, Spans m.field.read Field.length) (i : Nat) :
    Spans (readChoice cs i) fun cs => choiceLength cs i := by
  intro src he
  rw [readChoice_eq] at he ⊢
  dsimp only
  rw [choiceLength_eq]
  cases hc : cs[i]? with
  | none =>
    simp only [Option.elim_none, Outcome.done, hc]
    exact (Nat.zero_add _).symm
  | some c =>
    rw [hc] at he
    have hset : i < cs.length := (List.getElem?_eq_some_iff.1 hc).1
    simp only [Option.elim_some, Outcome.value_map, List.getElem?_set_self hset]
    exact readBundle_spans (h c (List.mem_of_getElem? hc)) src he

/-! ## Fields -/

/-- **Reading a field consumes as many bytes as what was read is predicted to take.** -/
theorem Field.read_spans (f : Field) : Spans f.read Field.length := by
  intro src h
  induction f generalizing src with
  | int f => exact f.read_reencodes.spans (fun _ _ => IntField.length_write) src h
  | enumeration f => exact f.read_reencodes.spans (fun _ _ => IntField.length_write) src h
  | bitmask f =>
    have hspans : Spans f.read BitmaskField.bytes := f.read_reencodes.spans <| by
      rintro v _ ⟨⟩
      exact Bytes.length_ofNat _ _ _
    exact hspans src h
  | float f =>
    have hspans : Spans f.read (·.precision.bytes) := f.read_reencodes.spans <| by
      rintro v _ ⟨⟩
      exact Bytes.length_ofNat _ _ _
    exact hspans src h
  | text f => exact f.read_reencodes.spans (fun _ _ => ByteField.length_write) src h
  | bytes f => exact f.read_reencodes.spans (fun _ _ => ByteField.length_write) src h
  | list l ih _ =>
    rw [Field.read] at h ⊢
    exact ListOf.readWith_spans ih l src h
  | bitfield b => exact b.read_spans src h
  | bundle b ih =>
    rw [Field.read] at h ⊢
    exact readBundle_spans ih src h
  | optional o ih _ =>
    rw [read_optional] at h ⊢
    split at h
    · rename_i hm
      rw [if_pos hm]
      exact (Nat.zero_add _).symm
    · rename_i hm
      rw [if_neg hm]
      obtain ⟨hi, heq⟩ := Outcome.andThen_ok h
      rw [heq]
      exact ih src hi
  | variant v ih =>
    obtain ⟨alternatives, current⟩ := v
    rw [Field.read] at h ⊢
    cases hp : probeTags src 0 none alternatives with
    | error e =>
      rw [hp] at h
      cases h
    | ok i =>
      rw [hp] at h
      exact readChoice_spans ih i src h
  | unknown data =>
    rw [Field.read]
    rfl

/-! ## Lengths that were read -/

/-- The length that a bundle read is that of what it read behind it. -/
theorem readBundle_lengthExact {b : Bundle Field} {src : Bytes}
    (h : (readBundle b src).error = none) : (readBundle b src).value.LengthExact := by
  cases b with
  | plain ms =>
    rw [readBundle]
    trivial
  | measured head name length tail trailing =>
    rw [readBundle_measured] at h ⊢
    obtain ⟨-, heq⟩ := Outcome.andThen_ok h
    rw [heq] at h ⊢
    obtain ⟨-, heq⟩ := Outcome.andThen_ok h
    rw [heq] at h ⊢
    obtain ⟨tail', trailing', rest, heq, hcount, -⟩ :=
      readTail_spans (fun m _ => m.field.read_spans) h
    rw [heq]
    exact Bundle.lengthExact_measured.2 (congrArg IntField.value hcount).symm

/-- Only bundles and variants have a length of their own. -/
theorem Field.lengthExact_of_kind {f g : Field} (h : g.kind = f.kind) (hb : f.kind ≠ .bundle)
    (hv : f.kind ≠ .variant) : g.LengthExact := by
  cases g with
  | bundle b => exact absurd h.symm hb
  | variant v => exact absurd h.symm hv
  | _ => exact lengthExact_of_none rfl

theorem Field.read_lengthExact {f : Field} {src : Bytes} (h : (f.read src).error = none) :
    (f.read src).value.LengthExact := by
  have hkind := f.read_kind src
  cases f with
  | bundle b =>
    rw [Field.read] at h ⊢
    rintro _ ⟨⟩
    exact readBundle_lengthExact h
  | variant v =>
    obtain ⟨alternatives, current⟩ := v
    rw [Field.read] at h ⊢
    cases hp : probeTags src 0 none alternatives with
    | error e =>
      rw [hp] at h
      cases h
    | ok i =>
      rw [hp] at h
      intro b hb
      simp only [Outcome.value_map, Field.bundle?, Variant.current?] at h hb
      rw [readChoice_eq] at h hb
      cases hc : alternatives[i]? with
      | none =>
        rw [hc] at hb
        simp [Outcome.done, hc] at hb
      | some c =>
        rw [hc] at h hb
        have hlt : i < alternatives.length := (List.getElem?_eq_some_iff.1 hc).1
        simp only [Option.elim_some, Outcome.value_map, List.getElem?_set_self hlt] at hb
        cases hb
        exact readBundle_lengthExact h
  | _ => exact lengthExact_of_kind hkind (by simp [Field.kind]) (by simp [Field.kind])

/-- **A field that was read is fresh**: all lengths in it are exact. -/
theorem Field.read_fresh {f : Field} {src : Bytes} (h : (f.read src).error = none) :
    (f.read src).value.Fresh := by
  refine fresh_iff.2 fun g hg => ?_
  obtain ⟨reader, -, bytes, hread, rfl⟩ := read_sends h hg
  exact read_lengthExact hread

end WireProtocol
