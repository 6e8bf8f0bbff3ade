import WireProtocol.Proofs.Field.Settled
import WireProtocol.Proofs.Frame.Extent
import WireProtocol.Proofs.Frame.Messages

/-!
# Reading a frame with more input

What is read from the beginning of a byte string, if no input was missing, is read in the same way
when more bytes follow (`Frame.readOne_steady`). With a size layer this holds of every frame:
whatever could run to the end of the input lies inside its region. Without one it holds if the
messages delimit themselves.
-/

set_option autoImplicit false

namespace WireProtocol

namespace LayerRead

/-- Reading was short of input. -/
def IsShort (r : LayerRead) : Prop := ∃ n, r = .failed (.notEnoughData n)

theorem seenFrom_isShort {r : LayerRead} {src rest : Bytes} (h : r.IsShort) :
    (r.seenFrom src rest).IsShort := by
  obtain ⟨n, rfl⟩ := h
  exact ⟨n, rfl⟩

end LayerRead

open LayerRead

/-- A result that is not a shortage of input stays when more input comes. -/
def SteadyLayers (read : Bytes → LayerRead) : Prop :=
  ∀ src more, ¬ (read src).IsShort → read (src ++ more) = read src

theorem taken_append (src rest more : Bytes) :
    taken (src ++ more) (rest ++ more) = taken src rest := by
  simp only [taken, List.length_append]
  omega

theorem LayerRead.seenFrom_append (r : LayerRead) (src rest more : Bytes) :
    r.seenFrom (src ++ more) (rest ++ more) = r.seenFrom src rest := by
  unfold seenFrom
  rw [taken_append]

/-- A reader behind some bytes that were read before it. -/
theorem SteadyLayers.seenFrom {read : Bytes → LayerRead} (h : SteadyLayers read)
    {src rest : Bytes} (more : Bytes) (hs : ¬ ((read rest).seenFrom src rest).IsShort) :
    (read (rest ++ more)).seenFrom (src ++ more) (rest ++ more) =
      (read rest).seenFrom src rest := by
  rw [seenFrom_append, h rest more fun hr => hs (seenFrom_isShort hr)]

theorem withInt_steady {field : IntField} {next : Bytes → IntField → Bytes → LayerRead}
    (h : ∀ f src rest more, rest <:+ src → ¬ (next src f rest).IsShort →
      next (src ++ more) f (rest ++ more) = next src f rest) :
    SteadyLayers fun src => withInt field src (next src) := by
  intro src more hs
  dsimp only [withInt] at hs ⊢
  cases he : (field.read src).error with
  | some e =>
    rw [he] at hs
    have hr := Outcome.not_isShort_of_some he fun n hn => hs ⟨n, congrArg _ hn⟩
    rw [field.read_steady src more hr]
    simp only [Outcome.extend, he]
  | none =>
    rw [he] at hs
    rw [field.read_steady src more (Outcome.not_isShort_of_none he)]
    simp only [Outcome.extend, he]
    exact h _ _ _ more (field.read_suffix src) hs

/-- Message types are tried in the same order with the same results. -/
theorem dispatch_steady {id : UInt64} {attempt attempt' : Message → LayerRead}
    {types : List Message} (h : ∀ m ∈ types, ¬ (attempt m).IsShort → attempt' m = attempt m)
    (hs : ¬ (dispatch id attempt types).IsShort) :
    dispatch id attempt' types = dispatch id attempt types := by
  induction types with
  | nil => rfl
  | cons m ms ih =>
    cases ms with
    | nil => exact h m (.head _) hs
    | cons m' ms =>
      have ih := ih fun x hx => h x (.tail _ hx)
      have hm : ¬ (attempt m).IsShort := by
        rintro ⟨n, hn⟩
        refine hs ⟨n, ?_⟩
        unfold dispatch
        rw [hn]
      unfold dispatch at hs ⊢
      rw [h m (.head _) hm]
      split
      · rename_i e he
        rw [he] at hs
        exact ih hs
      · rfl

/-! ## Messages -/

/-- The end of the message is known from its bytes: nothing in it runs to the end of the input, and
its variants outside every region are settled. -/
def Message.SelfDelimiting (m : Message) : Prop := m.readsToEnd = false ∧ m.TagsSettled

theorem Message.SelfDelimiting.of_fields {m m' : Message} (h : m.SelfDelimiting)
    (hf : m'.fields = m.fields) : m'.SelfDelimiting := by
  unfold SelfDelimiting readsToEnd TagsSettled
  rw [hf]
  exact h

theorem readPayload_steady (supplied : List Supplied) {message : Option Message}
    (h : ∀ m, message = some m → m.SelfDelimiting) :
    SteadyLayers (readPayload supplied message) := by
  intro src more hs
  cases message with
  | none => rfl
  | some m =>
    have hm := (h m rfl).of_fields (Supplied.giveAll_fields supplied m)
    have hr := Message.read_steady hm.1 hm.2
    unfold readPayload at hs ⊢
    dsimp only at hs ⊢
    cases he : ((supplied.foldl Supplied.giveTo m).read src).error with
    | some e =>
      rw [he] at hs
      rw [hr src more (Outcome.not_isShort_of_some he fun n hn => hs ⟨n, congrArg _ hn⟩)]
      simp only [Outcome.extend, he]
    | none =>
      rw [hr src more (Outcome.not_isShort_of_none he)]
      simp only [Outcome.extend, he, taken_append]

/-! ## Layers -/

/-- The types of a registry may stand outside every region of declared length. -/
def Registry.SelfDelimiting (r : Registry) : Prop := ∀ m ∈ r.prototypes, m.SelfDelimiting

/-- An id, if the layer is one, is read by a steady reader. -/
def Layer.SteadyId (l : Layer) : Prop := ∀ field, l.kind = .id field → Steady field.read

section
variable {registry : Registry} {sized : Bool} {name : String} {ls : List Layer}
  {supplied : List Supplied} {message : Option Message}

theorem readLayers_sync_steady {field : IntField}
    (h : SteadyLayers (readLayers registry sized ls supplied message)) :
    SteadyLayers (readLayers registry sized (⟨name, .sync field⟩ :: ls) supplied message) := by
  simp only [readLayers]
  refine withInt_steady fun f src rest more _ hs => ?_
  split
  · rename_i hf
    rw [if_pos hf] at hs
    exact h.seenFrom more hs
  · rfl

/-- The layers inside a size see their region and nothing that comes after it. -/
theorem readLayers_size_steady {field : IntField} {max : Option Nat} :
    SteadyLayers (readLayers registry sized (⟨name, .size field max⟩ :: ls) supplied message) := by
  simp only [readLayers]
  refine withInt_steady fun f src rest more _ hs => ?_
  split
  · rfl
  · rename_i hneg
    rw [if_neg hneg] at hs
    split
    · rfl
    · rename_i hmax
      rw [if_neg hmax] at hs
      cases ht : Bytes.take? f.value.toInt.toNat rest with
      | error missing =>
        rw [ht] at hs
        exact absurd ⟨missing, rfl⟩ hs
      | ok region =>
        rw [Bytes.take?_extend more ht]
        exact seenFrom_append _ _ _ _

/-- An id that is read by a steady reader selects raw data, or types to try. -/
theorem readLayers_id_steady {field : Field} (hf : Steady field.read)
    (hraw : sized = true → ∀ id,
      SteadyLayers (readLayers registry sized ls supplied (some (.rawData id))))
    (htypes : ∀ m ∈ registry.prototypes,
      SteadyLayers (readLayers registry sized ls supplied (some m))) :
    SteadyLayers (readLayers registry sized (⟨name, .id field⟩ :: ls) supplied message) := by
  intro src more hs
  simp only [readLayers] at hs ⊢
  cases he : (field.read src).error with
  | some e =>
    rw [he] at hs
    rw [hf src more (Outcome.not_isShort_of_some he fun n hn => hs ⟨n, congrArg _ hn⟩)]
    simp only [Outcome.extend, he]
  | none =>
    rw [hf src more (Outcome.not_isShort_of_none he)]
    simp only [Outcome.extend, he] at hs ⊢
    cases ht : registry.ofId ((field.read src).value.value.bits?.getD 0) with
    | nil =>
      simp only [ht] at hs ⊢
      split
      · rename_i hsz
        rw [if_pos hsz] at hs
        exact (hraw hsz _).seenFrom more hs
      · rfl
    | cons m ms =>
      simp only [ht] at hs ⊢
      rw [seenFrom_append,
        dispatch_steady (fun x hx hn => ?_) fun hd => hs (seenFrom_isShort hd)]
      rw [← ht] at hx
      exact htypes x (List.mem_filter.1 hx).1 _ more hn

theorem readLayers_transport_steady {field : IntField} {version : Bool}
    (h : ∀ supplied, SteadyLayers (readLayers registry sized ls supplied message)) :
    SteadyLayers
      (readLayers registry sized (⟨name, .transport field version⟩ :: ls) supplied message) := by
  simp only [readLayers]
  exact withInt_steady fun f src rest more _ hs => (h _).seenFrom more hs

theorem readLayers_after_steady {field : IntField} {algorithm : Checksum}
    (h : SteadyLayers (readLayers registry sized ls supplied message)) :
    SteadyLayers
      (readLayers registry sized (⟨name, .checksum field algorithm .after⟩ :: ls) supplied
        message) := by
  intro src more hs
  have hw := readLayers_within registry sized ls supplied message src
  simp only [readLayers] at hs ⊢
  have hi : ¬ (readLayers registry sized ls supplied message src).IsShort := by
    rintro ⟨n, hn⟩
    rw [hn] at hs
    exact hs ⟨n, rfl⟩
  rw [h src more hi]
  split
  · rename_i m n hd
    rw [hd] at hs hw
    rw [List.take_append_of_le_length hw, List.drop_append_of_le_length hw]
    -- from here on only the bytes behind the layers inside are read
    have hc : SteadyLayers fun outside => withInt field outside fun f rest =>
        compare (algorithm.compute (src.take n) &&& checksumMask field)
          (f.value.toUInt64 &&& checksumMask field) m (n + taken outside rest) :=
      withInt_steady fun f outside rest more _ _ => by rw [taken_append]
    exact hc (src.drop n) more hs
  · rfl

theorem readLayers_before_steady {field : IntField} {algorithm : Checksum}
    (h : SteadyLayers (readLayers registry sized ls supplied message)) :
    SteadyLayers
      (readLayers registry sized (⟨name, .checksum field algorithm .before⟩ :: ls) supplied
        message) := by
  simp only [readLayers]
  refine withInt_steady fun f src rest more _ hs => ?_
  have hi : ¬ (readLayers registry sized ls supplied message rest).IsShort := by
    rintro ⟨n, hn⟩
    rw [hn] at hs
    exact hs ⟨n, rfl⟩
  have hw := readLayers_within registry sized ls supplied message rest
  rw [h rest more hi]
  split
  · rename_i m n hd
    rw [hd] at hw
    rw [taken_append, List.take_append_of_le_length hw]
  · exact seenFrom_append _ _ _ _

end

/-- **Reading layers is steady** if a size layer is among them, or else if the messages that may be
read delimit themselves. -/
theorem readLayers_steady {registry : Registry} {sized : Bool} {ls : List Layer}
    (supplied : List Supplied) (message : Option Message) (hid : ∀ l ∈ ls, l.SteadyId)
    (hlast : ls.Pairwise fun l _ => l.isPayload = false)
    (h : isSized ls = true ∨ sized = false ∧ registry.SelfDelimiting ∧
      ∀ m, message = some m → m.SelfDelimiting) :
    SteadyLayers (readLayers registry sized ls supplied message) := by
  induction ls generalizing supplied message with
  | nil => exact fun src more _ => rfl
  | cons l ls ih =>
    obtain ⟨name, kind⟩ := l
    have ih := fun supplied message => ih supplied message
      (fun l hl => hid l (.tail _ hl)) (List.pairwise_cons.1 hlast).2
    cases kind with
    | sync field => exact readLayers_sync_steady (ih supplied message h)
    | size field max => exact readLayers_size_steady
    | id field =>
      refine readLayers_id_steady (hid _ (.head _) field rfl) (fun hsz id => ?_) fun m hm => ?_
      · refine ih _ _ (.inl (h.resolve_right fun ⟨hsz', _⟩ => ?_))
        rw [hsz'] at hsz
        cases hsz
      · refine ih _ _ (h.imp_right fun ⟨hsz, hr, _⟩ => ⟨hsz, hr, fun y hy => ?_⟩)
        cases hy
        exact hr m hm
    | transport field version => exact readLayers_transport_steady fun _ => ih _ message h
    | payload =>
      simp only [readLayers]
      refine readPayload_steady supplied ?_
      rcases h with h | ⟨-, -, h⟩
      · cases ls with
        | nil => cases h
        | cons l ls => cases (List.pairwise_cons.1 hlast).1 l (.head _)
      · exact h
    | checksum field algorithm placement =>
      cases placement with
      | after => exact readLayers_after_steady (ih supplied message h)
      | before => exact readLayers_before_steady (ih supplied message h)

/-! ## Frames -/

namespace Frame

variable {f : Frame}

/-- A frame is read as before from more input, unless input was missing. -/
theorem readOne_steady (h : f.sized = true ∨ f.registry.SelfDelimiting) {src : Bytes}
    (more : Bytes) (hs : ∀ n, f.readOne src ≠ .notEnoughData n) :
    f.readOne (src ++ more) = f.readOne src := by
  have hid : ∀ l ∈ f.layers, l.SteadyId := by
    intro l hl field hk
    rcases f.id_kind hl hk with ⟨g, rfl⟩ | ⟨g, rfl⟩
    · exact g.read_steady.map Field.int
    · exact g.read_steady.map Field.enumeration
  have hl : isSized f.layers = true ∨ f.sized = false ∧ f.registry.SelfDelimiting ∧
      ∀ m, (none : Option Message) = some m → m.SelfDelimiting := by
    cases hsz : f.sized with
    | true => exact .inl hsz
    | false => exact .inr ⟨rfl, h.resolve_left (by rw [hsz]; exact nofun), nofun⟩
  have hr : ¬ (readLayers f.registry f.sized f.layers [] none src).IsShort := by
    rintro ⟨n, hn⟩
    refine hs n ?_
    unfold readOne
    rw [hn]
  have hw := readLayers_within f.registry f.sized f.layers [] none src
  unfold readOne
  rw [readLayers_steady [] none hid f.payload_last hl src more hr]
  -- only the bytes of the frame itself go into the message
  split <;> rename_i hd <;> try rfl
  · rw [hd] at hw
    rw [List.take_append_of_le_length hw]
  · rw [hd] at hw
    rw [List.take_append_of_le_length hw]

end Frame

end WireProtocol
