import WireProtocol.Field.Write
import WireProtocol.Proofs.Field.Suffix
import WireProtocol.Proofs.Field.Word

/-!
# Writing what was read

A reader reencodes if, whenever it succeeds, writing the state it reached gives exactly the bytes it
consumed. The scalars do, because they keep every bit that they read and because of a
variable-length integer only the form that is written is accepted; a size that was read is the size
of what follows it, so that it is derived as it came.
-/

set_option autoImplicit false

namespace WireProtocol

variable {α β φ : Type}

/-- After a read that succeeds, writing gives the bytes that it consumed. -/
def Reencodes (read : Bytes → Outcome α) (write : α → Except CodecError Bytes) : Prop :=
  ∀ src, (read src).error = none →
    ∃ c, src = c ++ (read src).rest ∧ write (read src).value = .ok c

/-! ## Integers -/

theorem IntField.checked_ok {f : IntField} {rest : Bytes} (h : (f.checked rest).error = none) :
    f.checked rest = .done f rest := by
  unfold checked at h ⊢
  split at h
  · cases h
  · rename_i hv
    rw [if_neg hv]

theorem IntField.wire_setWire (f : IntField) (w : Int64) : (f.setWire w).wire = w :=
  Int64.sub_add_cancel w f.offset

/-- A fixed-width integer of some bytes is sent as those bytes. -/
theorem IntFormat.encode_wordOfBits (f : IntFormat) {n : Nat} {bounds : 1 ≤ n ∧ n ≤ 8}
    (hw : f.width = .fixed n bounds) {bs : Bytes} (hl : bs.length = n) :
    f.encode (wordOfBits f.signed (bs.toNat f.order) (8 * n)) = .ok bs := by
  have hlt : bs.toNat f.order < 2 ^ (8 * n) := by
    rw [← Bytes.pow_256, ← hl]
    exact Bytes.toNat_lt f.order bs
  unfold encode
  simp only [hw]
  rw [if_pos (fitsBits_wordOfBits f.signed (by omega) hlt)]
  congr 1
  calc Bytes.ofNat f.order n (wordOfBits f.signed (bs.toNat f.order) (8 * n)).toUInt64.toNat
      = Bytes.ofNat f.order n (bs.toNat f.order) := Bytes.ofNat_congr f.order (by
        rw [Bytes.pow_256, wordOfBits_mod _ _ (by omega)])
    _ = bs := by rw [← hl, Bytes.ofNat_toNat]

/-- Reading an integer changes its value alone, and the new value is sent as the bytes read. -/
theorem IntField.read_ok {f : IntField} {src : Bytes} (h : (f.read src).error = none) :
    ∃ v c, (f.read src).value = f.withValue v ∧ src = c ++ (f.read src).rest ∧
      (f.withValue v).write = .ok c := by
  unfold read at h ⊢
  split at h <;> rename_i hw
  · obtain ⟨taken, rest, hs, hl, heq⟩ := withBytes_ok h
    rw [heq] at h ⊢
    rw [checked_ok h]
    refine ⟨_, taken, rfl, hs, ?_⟩
    rw [← IntFormat.encode_wordOfBits f.format hw hl]
    exact congrArg f.format.encode (f.wire_setWire _)
  · split at h
    · cases h
    · cases h
    · rename_i max _ _ chain rest hscan
      have hs := Groups.scan_leaves max src
      rw [hscan] at hs
      dsimp only at h ⊢
      cases hwrite : (f.setWire (f.format.ofChain chain)).write with
      | error e =>
        rw [hwrite] at h
        cases h
      | ok bytes =>
        rw [hwrite] at h
        dsimp only at h ⊢
        -- only what is written again is accepted
        by_cases hc : bytes = chain
        · subst hc
          rw [if_pos rfl] at h ⊢
          rw [checked_ok h]
          exact ⟨_, bytes, rfl, hs, hwrite⟩
        · rw [if_neg hc] at h
          cases h

theorem IntField.read_reencodes (f : IntField) : Reencodes f.read IntField.write := by
  intro src h
  obtain ⟨v, c, hv, hs, hw⟩ := read_ok h
  exact ⟨c, hs, by rw [hv]; exact hw⟩

/-- A count that was read is written as the same bytes when it is derived again. -/
theorem IntField.write_withCount {f p : IntField} {v : Int64} (hv : p = f.withValue v)
    (h : ¬ p.value < 0) : p.withCount p.value.toInt.toNat = p ∧
      f.withCount p.value.toInt.toNat = p := by
  subst hv
  unfold withCount
  rw [ofNat_toInt_toNat h]
  exact ⟨rfl, rfl⟩

theorem SizePolicy.readSize_ok {p : IntField} {src rest : Bytes} {n : Nat}
    (h : readSize p src = (.ok n, rest)) :
    ∃ c, src = c ++ rest ∧ (p.withCount n).write = .ok c := by
  rw [readSize_eq] at h
  obtain ⟨q, mid, hq, hn⟩ := Decoded.andThen_ok h
  obtain ⟨he, rfl, rfl⟩ := Decoded.ofOutcome_ok hq
  obtain ⟨v, c, hv, hs, hw⟩ := IntField.read_ok he
  by_cases hneg : (p.read src).value.value < 0
  · rw [if_pos hneg] at hn
    cases hn
  · rw [if_neg hneg] at hn
    cases hn
    refine ⟨c, hs, ?_⟩
    rw [(IntField.write_withCount hv hneg).2, hv]
    exact hw

/-! ## Other scalars -/

theorem EnumField.read_reencodes (f : EnumField) :
    Reencodes f.read fun f => f.storage.write := by
  intro src h
  rw [read_eq] at h ⊢
  obtain ⟨he, heq⟩ := Outcome.andThen_ok h
  obtain ⟨c, hs, hw⟩ := f.storage.read_reencodes src he
  rw [heq] at h ⊢
  unfold checked at h ⊢
  dsimp only at h ⊢
  split at h
  · cases h
  · rename_i hv
    rw [if_neg hv]
    exact ⟨c, hs, hw⟩

theorem BitmaskField.read_reencodes (f : BitmaskField) :
    Reencodes f.read fun f => .ok f.write := by
  intro src h
  unfold read at h ⊢
  obtain ⟨taken, rest, hs, hl, heq⟩ := withBytes_ok h
  rw [heq] at h ⊢
  dsimp only at h ⊢
  split at h
  · cases h
  · rename_i hv
    rw [if_neg hv]
    refine ⟨taken, hs, congrArg Except.ok ?_⟩
    have hb := f.bounds
    unfold write
    dsimp only [Outcome.done]
    rw [Bytes.toNat_word f.order (by omega), ← hl, Bytes.ofNat_toNat]

theorem FloatField.read_reencodes (f : FloatField) : Reencodes f.read fun f => .ok f.write := by
  intro src h
  unfold read at h ⊢
  obtain ⟨taken, rest, hs, hl, heq⟩ := withBytes_ok h
  rw [heq]
  refine ⟨taken, hs, congrArg Except.ok ?_⟩
  have hb : f.precision.bytes ≤ 8 := by cases f.precision <;> decide
  unfold write
  dsimp only [Outcome.done]
  rw [Bytes.toNat_word f.order (by omega), ← hl, Bytes.ofNat_toNat]

theorem ByteField.readData_ok {f : ByteField} {n : Nat} {src : Bytes}
    (h : (f.readData n src).error = none) : ∃ taken rest, src = taken ++ rest ∧ taken.length = n ∧
      f.readData n src = .done { f with data := taken } rest := withBytes_ok h

theorem SizePolicy.writeSize_ok {size : SizePolicy} {p : IntField} {n : Nat} {c : Bytes}
    (h : size.sizeField? = some p) (hw : (p.withCount n).write = .ok c) :
    size.writeSize n = .ok c := by
  unfold writeSize
  rw [h]
  exact hw

theorem ByteField.write_sized {f : ByteField} {p : IntField} {c : Bytes}
    (h : f.size.sizeField? = some p) (hw : (p.withCount f.data.length).write = .ok c) :
    f.write = .ok (c ++ f.data) := by
  have hs := SizePolicy.writeSize_ok h hw
  obtain ⟨size, data⟩ := f
  cases size with
  | remainder => cases h
  | fixed n => cases h
  | count q | length q =>
    unfold write
    dsimp only at hs ⊢
    rw [hs]
    rfl

theorem ByteField.read_reencodes (f : ByteField) : Reencodes f.read ByteField.write := by
  intro src h
  cases hp : f.size.sizeField? with
  | some p =>
    rw [f.read_sized hp] at h ⊢
    obtain ⟨n, mid, hr, heq⟩ := Decoded.resume_ok h
    rw [heq] at h ⊢
    obtain ⟨c, hc, hw⟩ := SizePolicy.readSize_ok hr
    obtain ⟨taken, rest, hs, hl, hd⟩ := readData_ok h
    rw [hd]
    refine ⟨c ++ taken, by rw [hc, hs, List.append_assoc]; rfl, ?_⟩
    exact write_sized (f := { f with data := taken }) hp (by rw [hl]; exact hw)
  | none =>
    obtain ⟨size, data⟩ := f
    cases size with
    | fixed n =>
      obtain ⟨taken, rest, hs, hl, hd⟩ := readData_ok (f := ⟨.fixed n, data⟩) h
      have hr : (⟨.fixed n, data⟩ : ByteField).read src = .done ⟨.fixed n, taken⟩ rest := hd
      rw [hr]
      refine ⟨taken, hs, ?_⟩
      simp [write, Outcome.done, Bytes.resize, ← hl]
    | remainder =>
      refine ⟨src, (List.append_nil src).symm, rfl⟩
    | count q | length q => cases hp

/-! ## Lists -/

/-- The bytes of an element as they stand in a list. -/
def writeElement (elemLength : Option IntField) (e : Field × Bytes) : Except CodecError Bytes := do
  let content ← e.1.write
  frameElement elemLength (content ++ e.2)

/-- What stands in front of the elements of a list: their count, the length of their bytes or
nothing. -/
def writePrefix (size : SizePolicy) (count length : Nat) : Except CodecError Bytes :=
  match size with
  | .count _ => size.writeSize count
  | .length _ => size.writeSize length
  | .fixed _ | .remainder => .ok []

/-- Elements and the bytes that they are written as. -/
inductive Written (elemLength : Option IntField) : List (Field × Bytes) → Bytes → Prop
  | nil : Written elemLength [] []
  | cons {e : Field × Bytes} {c : Bytes} {es : List (Field × Bytes)} {bytes : Bytes} :
    writeElement elemLength e = .ok c → Written elemLength es bytes →
      Written elemLength (e :: es) (c ++ bytes)

theorem writeElement_ok {elemLength : Option IntField} {e : Field × Bytes} {content c : Bytes}
    (h : e.1.write = .ok content) (hf : frameElement elemLength (content ++ e.2) = .ok c) :
    writeElement elemLength e = .ok c := by
  unfold writeElement
  rw [h]
  exact hf

theorem writeElements_written {elemLength : Option IntField} {es : List (Field × Bytes)}
    {bytes : Bytes} (h : Written elemLength es bytes) {n : Nat} (hn : es.length ≤ n)
    (before : List Bytes) :
    writeElements elemLength n before es = .ok (before.reverse.flatten ++ bytes) := by
  induction h generalizing n before with
  | nil =>
    rw [List.append_nil]
    cases n <;> rw [writeElements]
    exact nofun
  | @cons e c es bytes he hes ih =>
    obtain ⟨n, rfl⟩ : ∃ k, n = k + 1 := ⟨n - 1, by simp at hn; omega⟩
    obtain ⟨field, rest⟩ := e
    have ih := ih (Nat.le_of_succ_le_succ hn) (c :: before)
    rw [writeElements]
    cases hw : field.write with
    | error e =>
      unfold writeElement at he
      rw [hw] at he
      cases he
    | ok content =>
      have hf : frameElement elemLength (content ++ rest) = .ok c := by
        unfold writeElement at he
        rw [hw] at he
        exact he
      calc (do
            let content ← Except.ok content
            let framed ← frameElement elemLength (content ++ rest)
            writeElements elemLength n (framed :: before) es)
          = (do
            let framed ← frameElement elemLength (content ++ rest)
            writeElements elemLength n (framed :: before) es) := rfl
        _ = writeElements elemLength n (c :: before) es := by rw [hf]; rfl
        _ = .ok (before.reverse.flatten ++ (c ++ bytes)) := by
          rw [ih, List.reverse_cons, List.flatten_append, List.append_assoc, List.flatten_singleton]

namespace ListOf

theorem readRegion_ok {readOne : Bytes → Outcome φ} {length : IntField} {src rest : Bytes}
    {e : φ × Bytes} (h : readRegion readOne length src = (.ok e, rest)) :
    ¬ length.value < 0 ∧ ∃ region, src = region ++ rest ∧
      region.length = length.value.toInt.toNat ∧ (readOne region).error = none ∧
        e = ((readOne region).value, (readOne region).rest) := by
  unfold readRegion at h
  split at h
  · cases h
  · rename_i hneg
    refine ⟨hneg, ?_⟩
    split at h
    · cases h
    · rename_i region rest' ht
      obtain ⟨hs, hl⟩ := Bytes.take?_ok ht
      dsimp only at h
      split at h
      · rename_i he
        cases h
        exact ⟨region, hs, hl, he, rfl⟩
      · cases h

variable {readOne : Bytes → Outcome Field} (hr : Reencodes readOne Field.write)
include hr

theorem readElement_ok {elemLength : Option IntField} {src rest : Bytes} {e : Field × Bytes}
    (h : readElement readOne elemLength src = (.ok e, rest)) :
    ∃ c, src = c ++ rest ∧ writeElement elemLength e = .ok c := by
  cases elemLength with
  | none =>
    rw [readElement_none] at h
    obtain ⟨v, mid, hv, hn⟩ := Decoded.andThen_ok h
    obtain ⟨he, rfl, rfl⟩ := Decoded.ofOutcome_ok hv
    cases hn
    obtain ⟨c, hs, hw⟩ := hr src he
    exact ⟨c, hs, writeElement_ok hw (congrArg Except.ok (List.append_nil c))⟩
  | some p =>
    rw [readElement_some] at h
    obtain ⟨q, mid, hq, hn⟩ := Decoded.andThen_ok h
    obtain ⟨he, rfl, rfl⟩ := Decoded.ofOutcome_ok hq
    obtain ⟨v, c, hv, hs, hw⟩ := IntField.read_ok he
    obtain ⟨hneg, region, hreg, hl, hone, rfl⟩ := readRegion_ok hn
    obtain ⟨content, hc, hwrite⟩ := hr region hone
    refine ⟨c ++ region, by rw [hs, hreg, List.append_assoc], ?_⟩
    -- the bytes that the element left are written after it, so the region is whole again
    refine writeElement_ok hwrite ?_
    rw [← hc]
    unfold frameElement
    dsimp only
    rw [hl, (IntField.write_withCount hv hneg).2, hv, hw]
    rfl

theorem readMany_ok {elemLength : Option IntField} {n : Nat} {before es : List (Field × Bytes)}
    {src rest : Bytes} (h : readMany readOne elemLength n before src = (.ok es, rest)) :
    ∃ new c, es = before.reverse ++ new ∧ new.length = n ∧ src = c ++ rest ∧
      Written elemLength new c := by
  induction n generalizing before src with
  | zero =>
    cases h
    exact ⟨[], [], (List.append_nil _).symm, rfl, rfl, .nil⟩
  | succ n ih =>
    rw [readMany_succ] at h
    obtain ⟨e, mid, he, hn⟩ := Decoded.andThen_ok h
    obtain ⟨c, hs, hw⟩ := readElement_ok hr he
    obtain ⟨new, bytes, hes, hl, hmid, hwritten⟩ := ih hn
    refine ⟨e :: new, c ++ bytes, ?_, congrArg (· + 1) hl, ?_, .cons hw hwritten⟩
    · rw [hes, List.reverse_cons, List.append_assoc]
      rfl
    · rw [hs, hmid, List.append_assoc]

theorem readUpTo_ok {elemLength : Option IntField} {limit : Nat}
    {before es : List (Field × Bytes)} {src rest : Bytes}
    (h : readUpTo readOne elemLength limit before src = (.ok es, rest)) :
    ∃ new, es = before.reverse ++ new ∧ rest = [] ∧ Written elemLength new src := by
  induction limit generalizing before src with
  | zero =>
    cases src with
    | nil =>
      cases h
      exact ⟨[], (List.append_nil _).symm, rfl, .nil⟩
    | cons b bs => cases h
  | succ n ih =>
    cases src with
    | nil =>
      cases h
      exact ⟨[], (List.append_nil _).symm, rfl, .nil⟩
    | cons b bs =>
      unfold readUpTo at h
      split at h
      · rename_i e mid he
        obtain ⟨c, hs, hw⟩ := readElement_ok hr he
        obtain ⟨new, hes, hrest, hwritten⟩ := ih h
        refine ⟨e :: new, ?_, hrest, ?_⟩
        · rw [hes, List.reverse_cons, List.append_assoc]
          rfl
        · rw [hs]
          exact .cons hw hwritten
      · cases h

omit hr in
theorem finish_ok {l : ListOf φ} {d : Decoded (List (φ × Bytes))} (h : (l.finish d).error = none) :
    ∃ es rest, d = (.ok es, rest) ∧ l.finish d = .done { l with elements := es } rest := by
  rw [finish_eq] at h ⊢
  obtain ⟨es, rest, hd, heq⟩ := Decoded.resume_ok h
  exact ⟨es, rest, hd, heq⟩

omit hr in
/-- What a list writes, with the size in front that its policy asks for. -/
theorem write_written {l : ListOf Field} {bytes c : Bytes}
    (hw : Written l.elemLength l.elements bytes)
    (hn : ∀ n, l.size = .fixed n → l.elements.length = n)
    (hc : writePrefix l.size l.elements.length bytes.length = .ok c) :
    (Field.list l).write = .ok (c ++ bytes) := by
  obtain ⟨prototype, size, elemLength, elements⟩ := l
  have he := writeElements_written hw (Nat.le_refl _) []
  cases size with
  | fixed n =>
    obtain rfl : elements.length = n := hn n rfl
    cases hc
    simp [Field.write, he, bind, Except.bind, pure, Except.pure]
  | remainder =>
    cases hc
    simp [Field.write, he, bind, Except.bind, pure, Except.pure]
  | count p =>
    simp only [writePrefix] at hc
    simp [Field.write, he, hc, bind, Except.bind, pure, Except.pure]
  | length p =>
    simp only [writePrefix] at hc
    simp [Field.write, he, hc, bind, Except.bind, pure, Except.pure]

theorem readBounded_ok {l : ListOf Field} {n : Nat} {src : Bytes}
    (h : (readBounded readOne l n src).error = none) :
    ∃ region es rest, src = region ++ rest ∧ region.length = n ∧
      readBounded readOne l n src = .done { l with elements := es } rest ∧
      Written l.elemLength es region := by
  unfold readBounded at h ⊢
  obtain ⟨region, rest, hs, hl, hregion⟩ := withBytes_ok h
  rw [hregion] at h ⊢
  obtain ⟨es, rest', hd, hf⟩ := finish_ok h
  rw [hf]
  obtain ⟨hall, rfl⟩ := Prod.mk.inj hd
  refine ⟨region, es, rest, hs, hl, rfl, ?_⟩
  cases hread : readAll readOne l.elemLength region with
  | mk result left =>
    rw [hread] at hall
    cases result with
    | error e => cases hall
    | ok es' =>
      cases hall
      obtain ⟨new, rfl, -, hw⟩ := readUpTo_ok hr hread
      exact hw

theorem readWith_reencodes (l : ListOf Field) :
    Reencodes (readWith readOne l) fun l => (Field.list l).write := by
  intro src h
  cases hs : l.size with
  | fixed n =>
    have heq : readWith readOne l src = l.finish (readMany readOne l.elemLength n [] src) := by
      simp only [readWith, hs]
    rw [heq] at h ⊢
    obtain ⟨es, rest, hd, hf⟩ := finish_ok h
    obtain ⟨new, bytes, rfl, hl, hb, hw⟩ := readMany_ok hr hd
    rw [hf]
    refine ⟨bytes, hb, write_written (c := []) hw (fun k hk => ?_)
      (by simp only [Outcome.done, hs, writePrefix])⟩
    cases hs.symm.trans hk
    exact hl
  | remainder =>
    have heq : readWith readOne l src = l.finish (readAll readOne l.elemLength src) := by
      simp only [readWith, hs]
    rw [heq] at h ⊢
    obtain ⟨es, rest, hd, hf⟩ := finish_ok h
    obtain ⟨new, rfl, rfl, hw⟩ := readUpTo_ok hr hd
    rw [hf]
    refine ⟨src, (List.append_nil src).symm, write_written (c := []) hw (fun k hk => ?_)
      (by simp only [Outcome.done, hs, writePrefix])⟩
    cases hs.symm.trans hk
  | count p =>
    rw [readWith_count readOne l hs] at h ⊢
    obtain ⟨n, mid, hsize, heq⟩ := Decoded.resume_ok h
    rw [heq] at h ⊢
    obtain ⟨c, hc, hwc⟩ := SizePolicy.readSize_ok hsize
    obtain ⟨es, rest, hd, hf⟩ := finish_ok h
    obtain ⟨new, bytes, rfl, rfl, hb, hw⟩ := readMany_ok hr hd
    rw [hf]
    refine ⟨c ++ bytes, ?_, write_written hw (fun k hk => ?_) ?_⟩
    · rw [hc, hb, List.append_assoc]
      rfl
    · cases hs.symm.trans hk
    · simp only [Outcome.done, hs, writePrefix]
      exact SizePolicy.writeSize_ok rfl hwc
  | length p =>
    rw [readWith_length readOne l hs] at h ⊢
    obtain ⟨n, mid, hsize, heq⟩ := Decoded.resume_ok h
    rw [heq] at h ⊢
    obtain ⟨c, hc, hwc⟩ := SizePolicy.readSize_ok hsize
    obtain ⟨region, es, rest, hmid, rfl, hb, hw⟩ := readBounded_ok hr h
    rw [hb]
    refine ⟨c ++ region, ?_, write_written hw (fun k hk => ?_) ?_⟩
    · rw [hc, hmid, List.append_assoc]
      rfl
    · cases hs.symm.trans hk
    · simp only [Outcome.done, hs, writePrefix]
      exact SizePolicy.writeSize_ok rfl hwc

end ListOf

end WireProtocol
