import WireProtocol.Proofs.Field.Integer
import WireProtocol.Proofs.Field.Settled
import WireProtocol.Proofs.Frame.Extension

/-!
# How much input a frame waits for

Reading a frame asks for more input only in layers outside every region of declared size, since
what is short inside a region is malformed. If the outermost size has a greatest allowed value, the
input of a frame that is short of input is below the greatest lengths of the layers down to that
size and that value together (`readOne_short_lt`), whatever the messages are.
-/

set_option autoImplicit false

namespace WireProtocol

/-! ## Fields of layers -/

/-- Reading takes at most `n` bytes, and is short of input only in front of fewer. -/
structure ReadsAtMost {α : Type} (n : Nat) (read : Bytes → Outcome α) : Prop where
  short : ∀ src, (read src).IsShort → src.length < n
  taken : ∀ src, (read src).error = none → src.length ≤ (read src).rest.length + n

theorem Groups.scan_short_lt {max : Nat} {src : Bytes} (h : scan max src = .short) :
    src.length < max := by
  induction max generalizing src with
  | zero => cases h
  | succ max ih =>
    cases src with
    | nil => exact Nat.succ_pos max
    | cons b src =>
      rw [scan] at h
      split at h
      · cases h
      · cases hs : scan max src with
        | short => exact Nat.succ_lt_succ (ih hs)
        | ended chain rest | tooLong rest =>
          rw [hs] at h
          cases h

theorem IntWidth.IsShort.lt {w : IntWidth} {src : Bytes} (h : w.IsShort src) :
    src.length < w.maxLength := by
  cases w with
  | fixed n bounds => exact h
  | var min max bounds => exact Groups.scan_short_lt h

theorem IntField.readsAtMost (f : IntField) : ReadsAtMost f.maxLength f.read where
  short src h := ((f.read_isShort src).1 h).lt
  taken src h := by
    obtain ⟨v, c, -, hs, hw⟩ := IntField.read_ok h
    have hc : c.length ≤ f.maxLength := by
      rw [IntField.length_write hw]
      exact IntField.length_le_maxLength _
    have := congrArg List.length hs
    rw [List.length_append] at this
    omega

theorem EnumField.readsAtMost (f : EnumField) : ReadsAtMost f.storage.maxLength f.read where
  short src h := ((f.read_isShort src).1 h).lt
  taken src h := by
    rw [read_eq] at h ⊢
    obtain ⟨hs, heq⟩ := Outcome.andThen_ok h
    rw [heq, checked_rest]
    exact f.storage.readsAtMost.taken src hs

/-- The greatest count of bytes that the field of a layer takes. -/
def Layer.maxLength (l : Layer) : Nat :=
  match l.kind with
  | .sync field | .size field _ | .transport field _ | .checksum field _ _ => field.maxLength
  -- an id is an integer or an enumeration, whose greatest length is known
  | .id field => field.maxLength.getD 0
  | .payload => 0

/-- The greatest count of bytes that the fields of layers take. -/
def layersMaxLength : List Layer → Nat
  | [] => 0
  | l :: ls => l.maxLength + layersMaxLength ls

/-- An id, if the layer is one, is read within its greatest length. -/
def Layer.BoundedId (l : Layer) : Prop :=
  ∀ field, l.kind = .id field → ReadsAtMost l.maxLength field.read

theorem Frame.boundedId (f : Frame) : ∀ l ∈ f.layers, l.BoundedId := by
  intro l hl field hk
  unfold Layer.maxLength
  rw [hk]
  rcases f.id_kind hl hk with ⟨g, rfl⟩ | ⟨g, rfl⟩
  · exact ⟨g.readsAtMost.short, g.readsAtMost.taken⟩
  · exact ⟨g.readsAtMost.short, g.readsAtMost.taken⟩

/-! ## Results -/

namespace LayerRead

/-- Reading `src` consumed at most `n` bytes, and if input was missing there are fewer. -/
def NeedsAtMost (n : Nat) (src : Bytes) : LayerRead → Prop
  | .done _ consumed => consumed ≤ n
  | .failed (.notEnoughData _) => src.length < n
  | _ => True

theorem needsAtMost_failed {n : Nat} {src : Bytes} {e : CodecError}
    (h : ∀ missing, e = .notEnoughData missing → src.length < n) :
    (LayerRead.failed e).NeedsAtMost n src := by
  cases e with
  | notEnoughData missing => exact h missing rfl
  | _ => trivial

theorem NeedsAtMost.seenFrom {r : LayerRead} {src rest : Bytes} {k n : Nat}
    (h : r.NeedsAtMost n rest) (hl : src.length ≤ rest.length + k) :
    (r.seenFrom src rest).NeedsAtMost (k + n) src := by
  cases r with
  | done m consumed =>
    simp only [NeedsAtMost, LayerRead.seenFrom, taken] at h ⊢
    omega
  | mismatch computed received m extent => trivial
  | failed e =>
    refine needsAtMost_failed fun missing he => ?_
    subst he
    simp only [NeedsAtMost] at h
    omega

theorem NeedsAtMost.mono {r : LayerRead} {src : Bytes} {k n : Nat} (h : r.NeedsAtMost k src)
    (hk : k ≤ n) : r.NeedsAtMost n src := by
  cases r with
  | done m consumed => exact Nat.le_trans h hk
  | mismatch computed received m extent => trivial
  | failed e =>
    refine needsAtMost_failed fun missing he => ?_
    subst he
    exact Nat.lt_of_lt_of_le h hk

/-- Nothing is missing for layers inside a region, once the region is there. -/
theorem inRegion_needs (len : Nat) (r : LayerRead) (src : Bytes) :
    (r.inRegion len).NeedsAtMost len src := by
  cases r with
  | done m consumed => exact Nat.le_refl len
  | mismatch computed received m extent => trivial
  | failed e => cases e <;> trivial

theorem compare_needs {computed received : UInt64} {m : Option Message} {consumed n : Nat}
    (h : consumed ≤ n) (src : Bytes) : (compare computed received m consumed).NeedsAtMost n src := by
  unfold compare
  split
  · exact h
  · trivial

end LayerRead

open LayerRead

theorem withInt_needs {field : IntField} {front src : Bytes} {next : IntField → Bytes → LayerRead}
    {n : Nat} (hshort : front.length < field.maxLength → src.length < n)
    (hnext : ∀ f rest, front.length ≤ rest.length + field.maxLength →
      (next f rest).NeedsAtMost n src) : (withInt field front next).NeedsAtMost n src := by
  unfold withInt
  dsimp only
  cases he : (field.read front).error with
  | some e =>
    refine needsAtMost_failed fun missing hm => hshort (field.readsAtMost.short front ?_)
    exact ⟨missing, by rw [he, hm]⟩
  | none => exact hnext _ _ (field.readsAtMost.taken front he)

/-- A field in front of the layers inside. -/
theorem withInt_front_needs {field : IntField} {src : Bytes}
    {next : IntField → Bytes → LayerRead} {n : Nat}
    (h : ∀ f rest, src.length ≤ rest.length + field.maxLength →
      (next f rest).NeedsAtMost (field.maxLength + n) src) :
    (withInt field src next).NeedsAtMost (field.maxLength + n) src :=
  withInt_needs (fun hs => Nat.lt_of_lt_of_le hs (Nat.le_add_right _ _)) h

theorem dispatch_needs {id : UInt64} {attempt : Message → LayerRead} {n : Nat} {src : Bytes}
    (h : ∀ m, (attempt m).NeedsAtMost n src) (types : List Message) :
    (dispatch id attempt types).NeedsAtMost n src := by
  induction types with
  | nil => trivial
  | cons m ms ih =>
    cases ms with
    | nil => exact h m
    | cons m' ms =>
      unfold dispatch
      split
      · exact ih
      · exact h m

/-! ## Layers -/

section
variable {registry : Registry} {sized : Bool} {name : String} {ls : List Layer}
  {supplied : List Supplied} {message : Option Message} {src : Bytes}

/-- A size layer waits for its own field and for the region that it announces, whatever is in it. -/
theorem readLayers_size_needs (field : IntField) (max : Nat) :
    (readLayers registry sized (⟨name, .size field (some max)⟩ :: ls) supplied message
      src).NeedsAtMost (field.maxLength + max) src := by
  simp only [readLayers]
  refine withInt_front_needs fun f rest hl => ?_
  split
  · trivial
  split
  · trivial
  rename_i hmax
  have hmax : f.value.toInt.toNat ≤ max := by simpa using hmax
  rw [Bytes.take?_eq]
  by_cases hr : rest.length < f.value.toInt.toNat
  · rw [if_pos hr]
    show src.length < field.maxLength + max
    omega
  · rw [if_neg hr]
    exact ((inRegion_needs _ _ rest).mono hmax).seenFrom hl

/-- A layer other than a size adds the length of its own field to what the layers inside it wait
for. -/
theorem readLayers_cons_needs {l : Layer} {n : Nat} (hsize : l.isSize = false)
    (hpayload : l.isPayload = false) (hid : l.BoundedId)
    (h : ∀ supplied message src, (readLayers registry sized ls supplied message src).NeedsAtMost n
      src) :
    (readLayers registry sized (l :: ls) supplied message src).NeedsAtMost (l.maxLength + n)
      src := by
  obtain ⟨name, kind⟩ := l
  cases kind with
  | sync field =>
    simp only [readLayers]
    refine withInt_front_needs fun f rest hl => ?_
    split
    · exact (h supplied message rest).seenFrom hl
    · trivial
  | size field max => cases hsize
  | id field =>
    have hf := hid field rfl
    simp only [readLayers]
    cases he : (field.read src).error with
    | some e =>
      refine needsAtMost_failed fun missing hm => ?_
      have := hf.short src ⟨missing, by rw [he, hm]⟩
      omega
    | none =>
      have hl := hf.taken src he
      dsimp only
      split
      · split
        · exact (h _ _ _).seenFrom hl
        · trivial
      · exact (dispatch_needs (fun m => h _ _ _) _).seenFrom hl
  | transport field version =>
    simp only [readLayers]
    exact withInt_front_needs fun f rest hl => (h _ message rest).seenFrom hl
  | payload => cases hpayload
  | checksum field algorithm placement =>
    cases placement with
    | after =>
      have hi := h supplied message src
      simp only [readLayers]
      split
      · rename_i m k hk
        rw [hk] at hi
        -- the checksum follows the `k` bytes that the layers inside took
        refine withInt_needs (fun hs => ?_) fun f rest hl => compare_needs ?_ src
        · simp only [NeedsAtMost, List.length_drop, Layer.maxLength] at hi hs ⊢
          omega
        · simp only [NeedsAtMost, taken, Layer.maxLength] at hi ⊢
          omega
      · exact hi.mono (Nat.le_add_left _ _)
    | before =>
      simp only [readLayers]
      refine withInt_front_needs fun f rest hl => ?_
      have hi := h supplied message rest
      split
      · rename_i m k hk
        rw [hk] at hi
        refine compare_needs ?_ src
        simp only [NeedsAtMost, taken] at hi ⊢
        omega
      · exact hi.seenFrom hl

/-- **Layers down to a size with a greatest allowed value** wait for no more than that value and
their own fields. -/
theorem readLayers_needs {outer inner : List Layer} {field : IntField} {max : Nat}
    (hsize : ∀ l ∈ outer, l.isSize = false) (hpayload : ∀ l ∈ outer, l.isPayload = false)
    (hid : ∀ l ∈ outer, l.BoundedId) :
    (readLayers registry sized (outer ++ ⟨name, .size field (some max)⟩ :: inner) supplied message
      src).NeedsAtMost (layersMaxLength outer + field.maxLength + max) src := by
  induction outer generalizing supplied message src with
  | nil =>
    rw [List.nil_append, layersMaxLength, Nat.zero_add]
    exact readLayers_size_needs field max
  | cons l outer ih =>
    rw [List.cons_append, layersMaxLength, Nat.add_assoc, Nat.add_assoc,
      ← Nat.add_assoc _ field.maxLength]
    exact readLayers_cons_needs (hsize l (.head _)) (hpayload l (.head _)) (hid l (.head _))
      fun supplied message src => ih (fun l hl => hsize l (.tail _ hl))
        (fun l hl => hpayload l (.tail _ hl)) fun l hl => hid l (.tail _ hl)

end

/-! ## Frames -/

/-- **A frame that is short of input** has received less than the greatest lengths of its layers
down to the outermost size and the greatest allowed value of that size. -/
theorem Frame.readOne_short_lt {f : Frame} {outer inner : List Layer} {name : String}
    {field : IntField} {max : Nat} (hl : f.layers = outer ++ ⟨name, .size field (some max)⟩ :: inner)
    (hsize : ∀ l ∈ outer, l.isSize = false) {src : Bytes} {missing : Nat}
    (h : f.readOne src = .notEnoughData missing) :
    src.length < layersMaxLength outer + field.maxLength + max := by
  have hpayload : ∀ l ∈ outer, l.isPayload = false := by
    have hlast := f.payload_last
    rw [hl, List.pairwise_append] at hlast
    exact fun l hm => hlast.2.2 l hm _ (.head _)
  have hid : ∀ l ∈ outer, l.BoundedId := fun l hm =>
    f.boundedId l (by rw [hl]; exact List.mem_append_left _ hm)
  have hn : (readLayers f.registry f.sized f.layers [] none src).NeedsAtMost
      (layersMaxLength outer + field.maxLength + max) src := by
    rw [hl]
    exact readLayers_needs hsize hpayload hid
  unfold readOne at h
  split at h <;> cases h
  rename_i hr
  rw [hr] at hn
  exact hn

end WireProtocol
