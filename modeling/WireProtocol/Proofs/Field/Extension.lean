import WireProtocol.Proofs.Field.Induction
import WireProtocol.Proofs.Field.Sequence

/-!
# Reading more input

A reader is steady if only a shortage of input makes it depend on what comes later: any other
result stays as it is when bytes are appended, which are left over. Integers, byte strings of a
known size and everything inside a region of declared length are steady, and parts in order are
steady if each of them is. A field that does not read to the end of the input is steady
(`Field.read_steady`) as long as its variants are: a variant may choose an alternative while an
earlier one is short of the bytes of its tag, and `Variant.Settled` says that no such choice is
revised later.
-/

set_option autoImplicit false

namespace WireProtocol

variable {α β φ : Type}

namespace Outcome

/-- The read was short of input. -/
def IsShort (o : Outcome α) : Prop := ∃ n, o.error = some (.notEnoughData n)

/-- The outcome with more input left. -/
def extend (o : Outcome α) (more : Bytes) : Outcome α := { o with rest := o.rest ++ more }

theorem not_isShort_of_none {o : Outcome α} (h : o.error = none) : ¬ o.IsShort := by
  rintro ⟨n, hn⟩
  rw [h] at hn
  cases hn

theorem not_isShort_of_some {o : Outcome α} {e : CodecError} (h : o.error = some e)
    (he : ∀ n, e ≠ .notEnoughData n) : ¬ o.IsShort := by
  rintro ⟨n, hn⟩
  rw [h] at hn
  cases hn
  exact he n rfl

end Outcome

/-- A result that is not a shortage of input stays when more input comes. -/
def Steady (read : Bytes → Outcome α) : Prop :=
  ∀ src more, ¬ (read src).IsShort → read (src ++ more) = (read src).extend more

theorem Bytes.take?_extend {n : Nat} {src taken rest : Bytes} (more : Bytes)
    (h : take? n src = .ok (taken, rest)) : take? n (src ++ more) = .ok (taken, rest ++ more) := by
  rw [take?_eq] at h ⊢
  split at h
  · cases h
  · rename_i hl
    cases h
    rw [if_neg (by rw [List.length_append]; omega), List.take_append_of_le_length (by omega),
      List.drop_append_of_le_length (by omega)]

namespace Steady

theorem map {read : Bytes → Outcome α} (h : Steady read) (f : α → β) :
    Steady fun src => (read src).map f := by
  intro src more hs
  dsimp only
  rw [h src more hs]
  rfl

theorem andThen {read : Bytes → Outcome α} {failed : α → β} {next : α → Bytes → Outcome β}
    (h : Steady read) (hn : ∀ v, Steady (next v)) :
    Steady fun src => (read src).andThen failed next := by
  intro src more hs
  dsimp only at hs ⊢
  cases he : (read src).error with
  | some e =>
    rw [Outcome.andThen_of_some he] at hs ⊢
    have hr := Outcome.not_isShort_of_some he fun n hn => hs ⟨n, congrArg some hn⟩
    rw [h src more hr, Outcome.andThen_of_some (o := (read src).extend more) he]
    rfl
  | none =>
    rw [Outcome.andThen_of_none he] at hs ⊢
    rw [h src more (Outcome.not_isShort_of_none he),
      Outcome.andThen_of_none (o := (read src).extend more) he]
    exact hn _ _ more hs

theorem withBytes {n : Nat} {value : α} {next : Bytes → Bytes → Outcome α}
    (h : ∀ taken, Steady (next taken)) : Steady fun src => withBytes n src value next := by
  intro src more hs
  dsimp only [WireProtocol.withBytes] at hs ⊢
  cases ht : Bytes.take? n src with
  | error missing =>
    rw [ht] at hs
    exact absurd ⟨missing, rfl⟩ hs
  | ok p =>
    obtain ⟨taken, rest⟩ := p
    rw [ht] at hs
    rw [Bytes.take?_extend more ht]
    exact h taken rest more hs

end Steady

/-! ## Scalars -/

/-- The same finding with more input left. -/
def Groups.Scan.extend (more : Bytes) : Scan → Scan
  | .ended chain rest => .ended chain (rest ++ more)
  | .short => .short
  | .tooLong rest => .tooLong (rest ++ more)

theorem Groups.Scan.extend_cons (s : Scan) (more : Bytes) (b : UInt8) :
    (s.cons b).extend more = (s.extend more).cons b := by
  cases s <;> rfl

theorem Groups.scan_append (max : Nat) (src more : Bytes) (h : scan max src ≠ .short) :
    scan max (src ++ more) = (scan max src).extend more := by
  induction max generalizing src with
  | zero => rfl
  | succ max ih =>
    cases src with
    | nil => exact absurd rfl h
    | cons b bs =>
      rw [List.cons_append]
      unfold scan at h ⊢
      by_cases hb : b < 128
      · rw [if_pos hb, if_pos hb]
        rfl
      · rw [if_neg hb] at h
        rw [if_neg hb, if_neg hb, Scan.extend_cons, ih]
        intro hs
        rw [hs] at h
        exact h rfl

theorem IntField.checked_steady (f : IntField) : Steady f.checked := by
  intro rest more _
  unfold IntField.checked
  split <;> rfl

theorem IntField.read_steady (f : IntField) : Steady f.read := by
  cases hw : f.format.width with
  | fixed n bounds =>
    have : f.read = fun src => withBytes n src f fun taken rest =>
        (f.setWire (wordOfBits f.format.signed (taken.toNat f.format.order)
          (8 * n))).checked rest := by
      funext src
      simp only [IntField.read, hw]
    rw [this]
    exact Steady.withBytes fun taken => IntField.checked_steady _
  | var min max bounds =>
    intro src more hs
    simp only [IntField.read, hw] at hs ⊢
    have happend := Groups.scan_append max src more
    cases hc : Groups.scan max src with
    | short =>
      rw [hc] at hs
      exact absurd ⟨1, rfl⟩ hs
    | tooLong rest =>
      rw [happend (by rw [hc]; exact nofun), hc]
      rfl
    | ended chain rest =>
      rw [happend (by rw [hc]; exact nofun), hc]
      rw [hc] at hs
      dsimp only [Groups.Scan.extend] at hs ⊢
      split
      · split
        · exact IntField.checked_steady _ _ _ (by simpa [*] using hs)
        · rfl
      · rfl

theorem EnumField.checked_steady (f : EnumField) (storage : IntField) :
    Steady (f.checked storage) := by
  intro rest more _
  unfold EnumField.checked
  dsimp only
  split <;> rfl

theorem EnumField.read_steady (f : EnumField) : Steady f.read := by
  rw [funext f.read_eq]
  exact f.storage.read_steady.andThen f.checked_steady

theorem BitmaskField.read_steady (f : BitmaskField) : Steady f.read :=
  Steady.withBytes fun taken rest more _ => by
    dsimp only
    split <;> rfl

theorem FloatField.read_steady (f : FloatField) : Steady f.read :=
  Steady.withBytes fun _ _ _ _ => rfl

theorem Bitfield.read_steady (f : Bitfield) : Steady f.read :=
  Steady.withBytes fun _ _ _ _ => rfl

/-! ## Sequences of elements -/

/-- A result of a decoder that is not a shortage of input stays when more input comes. -/
def SteadyDecoder (read : Bytes → Decoded α) : Prop :=
  ∀ src more, (∀ n, (read src).1 ≠ .error (.notEnoughData n)) →
    read (src ++ more) = ((read src).1, (read src).2 ++ more)

namespace SteadyDecoder

theorem ofOutcome {read : Bytes → Outcome α} (h : Steady read) :
    SteadyDecoder fun src => .ofOutcome (read src) := by
  intro src more hs
  dsimp only [Decoded.ofOutcome] at hs ⊢
  cases he : (read src).error with
  | some e =>
    rw [he] at hs
    rw [h src more (Outcome.not_isShort_of_some he fun n hn => hs n (congrArg _ hn))]
    simp only [Outcome.extend, he]
  | none =>
    rw [h src more (Outcome.not_isShort_of_none he)]
    simp only [Outcome.extend, he]

theorem andThen {read : Bytes → Decoded α} {next : α → Bytes → Decoded β}
    (h : SteadyDecoder read) (hn : ∀ v, SteadyDecoder (next v)) :
    SteadyDecoder fun src => Decoded.andThen (read src) next := by
  intro src more hs
  dsimp only at hs ⊢
  rw [h src more fun n he => hs n (Decoded.andThen_error he)]
  cases hd : read src with
  | mk result rest =>
    rw [hd] at hs
    cases result with
    | ok v => exact hn v rest more hs
    | error e => rfl

theorem resume {read : Bytes → Decoded α} {value : β} {next : α → Bytes → Outcome β}
    (h : SteadyDecoder read) (hn : ∀ v, Steady (next v)) :
    Steady fun src => Decoded.resume (read src) value next := by
  intro src more hs
  dsimp only at hs ⊢
  rw [h src more fun n he => hs ⟨n, Decoded.resume_error he⟩]
  cases hd : read src with
  | mk result rest =>
    rw [hd] at hs
    cases result with
    | ok v => exact hn v rest more hs
    | error e => rfl

end SteadyDecoder

theorem SizePolicy.readSize_steady (p : IntField) : SteadyDecoder (readSize p) := by
  rw [funext (readSize_eq p)]
  refine (SteadyDecoder.ofOutcome p.read_steady).andThen fun n rest more _ => ?_
  split <;> rfl

theorem ByteField.readData_steady (f : ByteField) (n : Nat) : Steady (f.readData n) :=
  Steady.withBytes fun _ _ _ _ => rfl

theorem ByteField.read_steady (f : ByteField) (h : f.size.endsWithInput = false) :
    Steady f.read := by
  cases hp : f.size.sizeField? with
  | some p =>
    rw [funext (f.read_sized hp)]
    exact (SizePolicy.readSize_steady p).resume f.readData_steady
  | none =>
    obtain ⟨size, data⟩ := f
    cases size with
    | remainder => cases h
    | fixed n => exact readData_steady _ n
    | count p | length p => cases hp

namespace ListOf

variable {readOne : Bytes → Outcome φ}

theorem readRegion_steady (length : IntField) : SteadyDecoder (readRegion readOne length) := by
  intro src more hs
  dsimp only [readRegion] at hs ⊢
  split
  · rfl
  · rename_i hneg
    rw [if_neg hneg] at hs
    cases ht : Bytes.take? length.value.toInt.toNat src with
    | error missing =>
      rw [ht] at hs
      exact absurd rfl (hs missing)
    | ok region =>
      rw [Bytes.take?_extend more ht]
      dsimp only
      split <;> rfl

/-- An element is steady if it is read by a steady reader or has a region of its own. -/
theorem readElement_steady {elemLength : Option IntField} (h : elemLength = none → Steady readOne) :
    SteadyDecoder (readElement readOne elemLength) := by
  cases elemLength with
  | none =>
    rw [funext (readElement_none readOne)]
    exact (SteadyDecoder.ofOutcome (h rfl)).andThen fun v rest more _ => rfl
  | some p =>
    rw [funext (readElement_some readOne p)]
    exact (SteadyDecoder.ofOutcome p.read_steady).andThen readRegion_steady

theorem readMany_steady {elemLength : Option IntField} (h : elemLength = none → Steady readOne)
    (n : Nat) (before : List (φ × Bytes)) :
    SteadyDecoder (readMany readOne elemLength n before) := by
  induction n generalizing before with
  | zero => exact fun src more _ => rfl
  | succ n ih =>
    rw [funext (readMany_succ readOne elemLength n before)]
    exact (readElement_steady h).andThen fun e => ih (e :: before)

theorem finish_steady (l : ListOf φ) {read : Bytes → Decoded (List (φ × Bytes))}
    (h : SteadyDecoder read) : Steady fun src => l.finish (read src) := by
  rw [show (fun src => l.finish (read src)) = _ from funext fun src => finish_eq l (read src)]
  exact h.resume fun elements rest more _ => rfl

theorem readBounded_steady (l : ListOf φ) (n : Nat) : Steady (readBounded readOne l n) :=
  Steady.withBytes fun _ => finish_steady l fun _ _ _ => rfl

/-- A list in a region of declared length is steady; another one that does not take the whole
input is if its elements are. -/
theorem readWith_steady {l : ListOf φ} (hl : l.size.endsWithInput = false)
    (h : (∀ p, l.size ≠ .length p) → l.elemLength = none → Steady readOne) :
    Steady (readWith readOne l) := by
  cases hs : l.size with
  | remainder =>
    rw [hs] at hl
    cases hl
  | fixed n =>
    have : readWith readOne l = fun src => l.finish (readMany readOne l.elemLength n [] src) := by
      funext src
      simp only [readWith, hs]
    rw [this]
    exact finish_steady l (readMany_steady (h (by rw [hs]; exact nofun)) n [])
  | count p =>
    rw [funext (readWith_count readOne l hs)]
    exact (SizePolicy.readSize_steady p).resume fun n =>
      finish_steady l (readMany_steady (h (by rw [hs]; exact nofun)) n [])
  | length p =>
    rw [funext (readWith_length readOne l hs)]
    exact (SizePolicy.readSize_steady p).resume (readBounded_steady l)

end ListOf

/-! ## Members -/

/-- The fields directly inside a bundle that its length member does not enclose. -/
def Bundle.exposed : Bundle Field → List Field
  | .plain ms => ms.map (·.field)
  | .measured head .. => head.map (·.field)

theorem readMembers_steady {ms : List (Member Field)} (h : ∀ m ∈ ms, Steady m.field.read) :
    Steady (readMembers ms) := by
  induction ms with
  | nil => exact fun src more _ => rfl
  | cons m ms ih =>
    rw [funext (readMembers_cons m ms)]
    exact (h m (.head _)).andThen fun v =>
      (ih fun m hm => h m (.tail _ hm)).map ({ m with field := v } :: ·)

theorem readTail_steady (head : List (Member Field)) (name : String)
    (tail : List (Member Field)) (trailing : Bytes) (length : IntField) :
    Steady (readTail head name tail trailing length) := by
  intro src more hs
  dsimp only [readTail] at hs ⊢
  split
  · rfl
  · rename_i hneg
    rw [if_neg hneg] at hs
    refine Steady.withBytes (fun region rest more _ => ?_) src more hs
    split <;> rfl

/-- A bundle is steady if the members outside its region are. -/
theorem readBundle_steady {b : Bundle Field} (h : ∀ f ∈ b.exposed, Steady f.read) :
    Steady (readBundle b) := by
  cases b with
  | plain ms =>
    have : readBundle (.plain ms) = fun src => (readMembers ms src).map .plain := by
      funext src
      rw [readBundle]
    rw [this]
    exact (readMembers_steady fun m hm => h _ (List.mem_map_of_mem hm)).map _
  | measured head name length tail trailing =>
    rw [funext (readBundle_measured head name length tail trailing)]
    exact (readMembers_steady fun m hm => h _ (List.mem_map_of_mem hm)).andThen fun hs =>
      length.read_steady.andThen fun n => readTail_steady hs name tail trailing n

theorem readChoice_steady {cs : List (Choice Field)}
    (h : ∀ c ∈ cs, Steady (readBundle c.bundle)) (i : Nat) : Steady (readChoice cs i) := by
  induction cs generalizing i with
  | nil =>
    intro src more _
    rw [readChoice, readChoice]
    rfl
  | cons c cs ih =>
    intro src more hs
    cases i with
    | zero =>
      rw [readChoice] at hs ⊢
      rw [readChoice]
      exact (h c (.head _)).map _ src more hs
    | succ i =>
      rw [readChoice] at hs ⊢
      rw [readChoice]
      exact (ih (fun c hc => h c (.tail _ hc)) i).map _ src more hs

end WireProtocol
