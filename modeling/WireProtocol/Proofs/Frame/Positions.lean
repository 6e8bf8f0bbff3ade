import WireProtocol.Proofs.Frame.Dispatch

/-!
# Reading frames by positions

A reader that keeps the whole buffer cuts what it reads out between two positions, and has branches
for what should not occur: a payload without a message type, an id whose types are all used up, a
checksum failure without a message. `Frame.readChecked` reads a frame so and stops with a
`ReaderFault` at positions that are not in order and in all of these branches. It gives what
`Frame.readOne` gives and never a fault (`Frame.readChecked_ok`).
-/

set_option autoImplicit false

namespace WireProtocol

/-! ## The reader -/

/-- What a reader of a buffer should never meet. -/
inductive ReaderFault where
  /-- Positions that are not in order or not in the buffer. -/
  | outOfBounds (positions : List Nat)
  /-- The layers give no message. -/
  | noMessage
  /-- There is no message to read the payload into. -/
  | noMessageType
  /-- A checksum fails and the message or the end of the frame is not known. -/
  | noExtent
  /-- All message types of the id were tried. -/
  | typesExhausted (id : UInt64)

abbrev Guarded (α : Type) := Except ReaderFault α

/-- The bytes of a buffer between two positions. -/
def slice (buf : Bytes) (pos stop : Nat) : Bytes := (buf.take stop).drop pos

/-- The bytes between two positions, which have to be in order and in the buffer. -/
def slice? (buf : Bytes) (pos stop : Nat) : Guarded Bytes :=
  if pos ≤ stop ∧ stop ≤ buf.length then .ok (slice buf pos stop)
  else .error (.outOfBounds [pos, stop, buf.length])

/-- The position at which `rest` begins if it ends at `stop`. It may not be in front of `pos`. -/
def startOf? (buf : Bytes) (pos stop : Nat) (rest : Bytes) : Guarded Nat :=
  if rest.length ≤ stop ∧ pos ≤ stop - rest.length ∧ stop ≤ buf.length then
    .ok (stop - rest.length)
  else .error (.outOfBounds [pos, stop - rest.length, stop, buf.length])

namespace ReadState

/-- Reads something between two positions; if that fails the state stays. -/
def readAt {α : Type} (st : ReadState) (read : Bytes → Outcome α) (buf : Bytes) (pos stop : Nat)
    (next : α → Nat → Guarded (Ended × ReadState)) : Guarded (Ended × ReadState) := do
  let o := read (← slice? buf pos stop)
  match o.error with
  | some e => return (.failed e, st)
  | none => next o.value (← startOf? buf pos stop o.rest)

/-- Tries `left` message types of an id, the one of that index first. -/
def tryFrom (registry : Registry) (id : UInt64)
    (attempt : ReadState → Guarded (Ended × ReadState)) :
    (left index : Nat) → ReadState → Guarded (Ended × ReadState)
  | 0, _, _ => .error (.typesExhausted id)
  | left + 1, index, st => do
    match ← attempt { st with message := registry.create? id index } with
    | (.failed (.invalidData fault), st) =>
      if left = 0 then return (.failed (.invalidData fault), st)
      else tryFrom registry id attempt left (index + 1) st
    | r => return r

/-- Reads the layers behind an id, as each of its message types or as raw data. -/
def readTypes (st : ReadState) (registry : Registry) (sized : Bool) (id : UInt64)
    (attempt : ReadState → Guarded (Ended × ReadState)) : Guarded (Ended × ReadState) :=
  let count := registry.count id
  if count = 0 then
    if sized then attempt { st with message := some (.rawData id) }
    else return (.failed (.unknownId id), st)
  else tryFrom registry id attempt count 0 st

/-- Reads the payload between two positions into the message of the state. -/
def readPayloadAt (st : ReadState) (buf : Bytes) (pos stop : Nat) :
    Guarded (Ended × ReadState) := do
  match st.message with
  | none => throw .noMessageType
  | some m =>
    let o := (st.supplied.foldl Supplied.giveTo m).read (← slice? buf pos stop)
    let st := { st with message := some o.value }
    match o.error with
    | some e => return (.failed e, st)
    | none => return (.upTo (← startOf? buf pos stop o.rest), st)

/-- Compares a checksum that was received with that of the bytes between two positions. -/
def compareAt (st : ReadState) (buf : Bytes) (pos stop : Nat) (field : IntField)
    (algorithm : Checksum) (received : IntField) (next : Nat) : Guarded (Ended × ReadState) := do
  let covered ← slice? buf pos stop
  return st.compare (algorithm.compute covered &&& checksumMask field)
    (received.value.toUInt64 &&& checksumMask field) next

end ReadState

/-- Layers that end have to do so between two positions of the buffer. -/
def ended? (buf : Bytes) (pos stop : Nat) : Ended × ReadState → Guarded (Ended × ReadState)
  | (.upTo n, st) =>
    if pos ≤ n ∧ n ≤ stop ∧ stop ≤ buf.length then .ok (.upTo n, st)
    else .error (.outOfBounds [pos, n, stop, buf.length])
  | r => .ok r

/-- Reads layers between two positions of a buffer, in a state. -/
def readChecked (registry : Registry) (sized : Bool) (buf : Bytes) :
    List Layer → (pos stop : Nat) → ReadState → Guarded (Ended × ReadState)
  | [], pos, stop, st => ended? buf pos stop (.upTo pos, st)
  | ⟨name, kind⟩ :: ls, pos, stop, st =>
    let inside := readChecked registry sized buf ls
    let r : Guarded (Ended × ReadState) := match kind with
      | .sync field =>
        st.readAt field.read buf pos stop fun f next =>
          if f.value = field.default then inside next stop st
          else return (.failed (.notAFrame (.syncMismatch f.value)), st)
      | .size field max =>
        st.readAt field.read buf pos stop fun f start =>
          let len := f.value.toInt.toNat
          if f.value < 0 then return (.failed (.notAFrame (.negativeSize f.value)), st)
          else if max.any (· < len) then
            return (.failed (.notAFrame (.sizeAboveMaximum len (max.getD 0))), st)
          else if stop - start < len then
            return (.failed (.notEnoughData (len - (stop - start))), st)
          else (inside start (start + len) st).map (ReadState.leaveRegion (start + len))
      | .id field =>
        st.readAt field.read buf pos stop fun g next =>
          st.readTypes registry sized (g.value.bits?.getD 0) (inside next stop)
      | .transport field version =>
        st.readAt field.read buf pos stop fun f next =>
          inside next stop { st with supplied := Supplied.put ⟨name, f, version⟩ st.supplied }
      | .payload => st.readPayloadAt buf pos stop
      | .checksum field algorithm .after => do
        match ← inside pos stop st with
        | (.upTo innerStop, st) =>
          st.readAt field.read buf innerStop stop (st.compareAt buf pos innerStop field algorithm)
        | r => return r
      | .checksum field algorithm .before =>
        st.readAt field.read buf pos stop fun f start => do
          match ← inside start stop st with
          | (.upTo innerStop, st) => st.compareAt buf start innerStop field algorithm f innerStop
          | r => return r
    r >>= ended? buf pos stop

/-- Tries to read a frame from the front of a buffer. -/
def Frame.readChecked (f : Frame) (buf : Bytes) : Guarded FrameRead := do
  match ← WireProtocol.readChecked f.registry f.sized buf f.layers 0 buf.length {} with
  | (.upTo n, st) =>
    match st.message with
    | some m => return .message { m with frameBytes := ← slice? buf 0 n } n
    | none => throw .noMessage
  | (.mismatch _ _, st) =>
    match st.message, st.extent with
    | some m, some n =>
      let frameBytes ← slice? buf 0 n
      return .checksumFailure { m with kind := .invalid .checksumFailure, frameBytes } n
    | _, _ => throw .noExtent
  | (.failed (.notEnoughData missing), _) => return .notEnoughData missing
  | (.failed e, _) => return .garbage (.codec e)

/-! ## Slices -/

section
variable {buf : Bytes} {pos stop : Nat}

theorem length_slice (hstop : stop ≤ buf.length) : (slice buf pos stop).length = stop - pos := by
  rw [slice, List.length_drop, List.length_take, Nat.min_eq_left hstop]

theorem slice_all (buf : Bytes) : slice buf 0 buf.length = buf := by
  rw [slice, List.take_length, List.drop_zero]

theorem slice_zero (buf : Bytes) (n : Nat) : slice buf 0 n = buf.take n := rfl

theorem slice_take {n : Nat} (hpos : pos ≤ n) (hn : n ≤ stop) :
    (slice buf pos stop).take (n - pos) = slice buf pos n := by
  rw [slice, slice, List.take_drop, List.take_take, Nat.add_sub_cancel' hpos, Nat.min_eq_left hn]

theorem slice_drop {n : Nat} (hpos : pos ≤ n) :
    (slice buf pos stop).drop (n - pos) = slice buf n stop := by
  rw [slice, slice, List.drop_drop, Nat.add_sub_cancel' hpos]

theorem add_taken_slice {n : Nat} (hpos : pos ≤ n) (hn : n ≤ stop) (hstop : stop ≤ buf.length) :
    pos + taken (slice buf pos stop) (slice buf n stop) = n := by
  rw [taken, length_slice hstop, length_slice hstop]
  omega

/-- What a reader leaves of a slice ends where the slice ends. -/
theorem slice_of_suffix {rest : Bytes} (hpos : pos ≤ stop) (hstop : stop ≤ buf.length)
    (h : rest <:+ slice buf pos stop) :
    ∃ n, pos ≤ n ∧ n ≤ stop ∧ rest = slice buf n stop := by
  have hlength := h.length_le
  have hdrop := List.suffix_iff_eq_drop.1 h
  rw [length_slice hstop] at hlength hdrop
  have hstart : pos ≤ stop - rest.length := by omega
  refine ⟨stop - rest.length, hstart, Nat.sub_le _ _, ?_⟩
  rw [← slice_drop hstart, Nat.sub_right_comm]
  exact hdrop

theorem slice?_ok (hpos : pos ≤ stop) (hstop : stop ≤ buf.length) :
    slice? buf pos stop = .ok (slice buf pos stop) :=
  if_pos ⟨hpos, hstop⟩

theorem startOf?_slice {n : Nat} (hpos : pos ≤ n) (hn : n ≤ stop) (hstop : stop ≤ buf.length) :
    startOf? buf pos stop (slice buf n stop) = .ok n := by
  have hstart : stop - (slice buf n stop).length = n := by
    rw [length_slice hstop]
    omega
  rw [startOf?, hstart, if_pos ⟨by rw [length_slice hstop]; omega, hpos, hstop⟩]

theorem ended?_upTo {n : Nat} {st : ReadState} (hpos : pos ≤ n) (hn : n ≤ stop)
    (hstop : stop ≤ buf.length) : ended? buf pos stop (.upTo n, st) = .ok (.upTo n, st) :=
  if_pos ⟨hpos, hn, hstop⟩

end

/-! ## What the layers leave -/

/-- The layers end between two positions with a message, or fail. -/
def EndsBetween (low stop : Nat) : Ended × ReadState → Prop
  | (.upTo n, st) => st.message.isSome ∧ low ≤ n ∧ n ≤ stop
  | (.mismatch _ _, st) => st.message.isSome ∧ ∃ n, st.extent = some n ∧ low ≤ n ∧ n ≤ stop
  | (.failed _, _) => True

/-- The checked reader meets no fault, ends as the other one does and between two positions. -/
structure ReadsAs (low stop : Nat) (checked : Guarded (Ended × ReadState))
    (inPlace : Ended × ReadState) : Prop where
  eq : checked = .ok inPlace
  ends : EndsBetween low stop inPlace

section
variable {buf : Bytes} {pos stop low : Nat} {st : ReadState}

theorem EndsBetween.mono {o : Ended × ReadState} (h : EndsBetween low stop o) {low' : Nat}
    (hlow : low' ≤ low) : EndsBetween low' stop o := by
  obtain ⟨ended, st⟩ := o
  cases ended with
  | upTo n => exact ⟨h.1, Nat.le_trans hlow h.2.1, h.2.2⟩
  | mismatch computed received =>
    obtain ⟨hm, n, hn, hle, hstop⟩ := h
    exact ⟨hm, n, hn, Nat.le_trans hlow hle, hstop⟩
  | failed e => trivial

/-- Leaving a region the layers end where it ends. -/
theorem EndsBetween.leaveRegion {o : Ended × ReadState} {inner : Nat}
    (h : EndsBetween low inner o) (hstop : inner ≤ stop) :
    EndsBetween low stop (ReadState.leaveRegion inner o) := by
  obtain ⟨ended, st⟩ := o
  cases ended with
  | upTo n => exact ⟨h.1, Nat.le_trans h.2.1 h.2.2, hstop⟩
  | mismatch computed received =>
    obtain ⟨hm, n, -, hle, hn⟩ := h
    exact ⟨hm, inner, rfl, Nat.le_trans hle hn, hstop⟩
  | failed e => cases e <;> trivial

theorem endsBetween_compare (computed received : UInt64) {n : Nat} (hm : st.message.isSome)
    (hlow : low ≤ n) (hn : n ≤ stop) :
    EndsBetween low stop (st.compare computed received n) := by
  unfold ReadState.compare
  split
  · exact ⟨hm, hlow, hn⟩
  · exact ⟨hm, n, rfl, hlow, hn⟩

theorem ReadsAs.mono {c : Guarded (Ended × ReadState)} {o : Ended × ReadState}
    (h : ReadsAs low stop c o) {low' : Nat} (hlow : low' ≤ low) : ReadsAs low' stop c o :=
  ⟨h.eq, h.ends.mono hlow⟩

theorem ReadsAs.failed (e : CodecError) :
    ReadsAs low stop (.ok (.failed e, st)) (.failed e, st) :=
  ⟨rfl, trivial⟩

/-- That the layers end between the positions can be checked in the end. -/
theorem ReadsAs.checked {c : Guarded (Ended × ReadState)} {o : Ended × ReadState}
    (h : ReadsAs low stop c o) (hpos : pos ≤ low) (hstop : stop ≤ buf.length) :
    ReadsAs low stop (c >>= ended? buf pos stop) o := by
  obtain ⟨rfl, hends⟩ := h
  refine ⟨?_, hends⟩
  obtain ⟨ended, st⟩ := o
  cases ended with
  | upTo n => exact ended?_upTo (Nat.le_trans hpos hends.2.1) hends.2.2 hstop
  | mismatch computed received => rfl
  | failed e => rfl

end

/-! ## One step -/

section
variable {buf : Bytes} {pos stop low : Nat}

/-- Reading between two positions of the buffer fails, or goes on at a position between them. -/
theorem ReadState.readAt_slice {α : Type} {read : Bytes → Outcome α} (hread : LeavesSuffix read)
    (hpos : pos ≤ stop) (hstop : stop ≤ buf.length) (st : ReadState) :
    (∃ e, (read (slice buf pos stop)).error = some e ∧
      ∀ next, st.readAt read buf pos stop next = .ok (.failed e, st)) ∨
    ∃ n, pos ≤ n ∧ n ≤ stop ∧ (read (slice buf pos stop)).error = none ∧
      (read (slice buf pos stop)).rest = slice buf n stop ∧
      ∀ next, st.readAt read buf pos stop next = next (read (slice buf pos stop)).value n := by
  have hslice := slice?_ok hpos hstop
  cases he : (read (slice buf pos stop)).error with
  | some e =>
    refine .inl ⟨e, rfl, fun next => ?_⟩
    simp only [readAt, hslice, bind, Except.bind, he]
    rfl
  | none =>
    obtain ⟨n, hn, hns, hrest⟩ := slice_of_suffix hpos hstop (hread _)
    refine .inr ⟨n, hn, hns, rfl, hrest, fun next => ?_⟩
    simp only [readAt, hslice, bind, Except.bind, he, hrest, startOf?_slice hn hns hstop]

/-- An integer in front of layers. -/
theorem ReadsAs.withInt {field : IntField} {st : ReadState}
    {checked : IntField → Nat → Guarded (Ended × ReadState)}
    {next : IntField → Bytes → Ended × ReadState} (hpos : pos ≤ stop) (hstop : stop ≤ buf.length)
    (h : ∀ f n, pos ≤ n → n ≤ stop → ReadsAs low stop (checked f n) (next f (slice buf n stop))) :
    ReadsAs low stop (st.readAt field.read buf pos stop checked)
      (st.withInt field (slice buf pos stop) next) := by
  obtain ⟨e, he, hread⟩ | ⟨n, hn, hns, he, hrest, hread⟩ :=
    ReadState.readAt_slice field.read_suffix hpos hstop st
  · rw [hread, ReadState.withInt_of_some he]
    exact .failed e
  · rw [hread, ReadState.withInt_of_none he, hrest]
    exact h _ n hn hns

/-- **The message types of an id are never used up**: the last one ends the loop. -/
theorem ReadsAs.tryFrom {registry : Registry} {id : UInt64}
    {attempt : ReadState → Guarded (Ended × ReadState)} {inside : ReadState → Ended × ReadState}
    (h : ∀ st, st.message.isSome → ReadsAs low stop (attempt st) (inside st))
    {before types : List Message} (hne : types ≠ []) (htypes : registry.ofId id = before ++ types)
    (st : ReadState) :
    ReadsAs low stop
      (ReadState.tryFrom registry id attempt types.length before.length st)
      (ReadState.tryTypes id inside types st) := by
  induction types generalizing before st with
  | nil => exact absurd rfl hne
  | cons m types ih =>
    have hcreate : registry.create? id before.length = some m := by
      rw [Registry.create?, htypes, List.getElem?_append_right (Nat.le_refl _), Nat.sub_self]
      rfl
    obtain ⟨heq, hends⟩ := h { st with message := some m } rfl
    rw [List.length_cons, ReadState.tryFrom, hcreate, heq]
    cases types with
    | nil =>
      show ReadsAs low stop _ (inside { st with message := some m })
      generalize inside { st with message := some m } = o at hends ⊢
      refine ⟨?_, hends⟩
      obtain ⟨ended, st'⟩ := o
      cases ended with
      | failed e => cases e <;> rfl
      | _ => rfl
    | cons m' types =>
      have ih := @ih (before ++ [m]) nofun (by rw [htypes, List.append_assoc]; rfl)
      rw [List.length_append] at ih
      unfold ReadState.tryTypes
      generalize inside { st with message := some m } = o at hends ⊢
      obtain ⟨ended, st'⟩ := o
      cases ended with
      | failed e =>
        cases e with
        | invalidData fault => exact ih st'
        | _ => exact .failed _
      | _ => exact ⟨rfl, hends⟩

theorem ReadsAs.types {registry : Registry} (sized : Bool) (id : UInt64)
    {attempt : ReadState → Guarded (Ended × ReadState)} {inside : ReadState → Ended × ReadState}
    (h : ∀ st, st.message.isSome → ReadsAs low stop (attempt st) (inside st)) (st : ReadState) :
    ReadsAs low stop (st.readTypes registry sized id attempt)
      (match registry.ofId id with
      | [] =>
        if sized then inside { st with message := some (.rawData id) }
        else (.failed (.unknownId id), st)
      | types => ReadState.tryTypes id inside types st) := by
  rw [ReadState.readTypes, Registry.count]
  cases htypes : registry.ofId id with
  | nil =>
    rw [List.length_nil, if_pos rfl]
    dsimp only
    split
    · exact h _ rfl
    · exact .failed _
  | cons m types =>
    rw [List.length_cons, if_neg (Nat.succ_ne_zero types.length)]
    exact @ReadsAs.tryFrom _ _ registry id _ _ h [] _ (List.cons_ne_nil m types) htypes st

theorem ReadsAs.payload {st : ReadState} (hm : st.message.isSome) (hpos : pos ≤ stop)
    (hstop : stop ≤ buf.length) :
    ReadsAs pos stop (st.readPayloadAt buf pos stop)
      (st.readPayload pos (slice buf pos stop)) := by
  obtain ⟨m, hm⟩ := Option.isSome_iff_exists.1 hm
  have hslice := slice?_ok hpos hstop
  simp only [ReadState.readPayloadAt, ReadState.readPayload, hm, hslice, bind, Except.bind]
  generalize st.supplied.foldl Supplied.giveTo m = given
  obtain ⟨n, hn, hns, hrest⟩ := slice_of_suffix hpos hstop (given.read_suffix (slice buf pos stop))
  cases he : (given.read (slice buf pos stop)).error with
  | some e => exact .failed e
  | none =>
    simp only [hrest, startOf?_slice hn hns hstop, add_taken_slice hn hns hstop]
    exact ⟨rfl, rfl, hn, hns⟩

theorem ReadsAs.region {c : Guarded (Ended × ReadState)} {o : Ended × ReadState} {inner : Nat}
    (h : ReadsAs low inner c o) (hinner : inner ≤ stop) :
    ReadsAs low stop (c.map (ReadState.leaveRegion inner)) (ReadState.leaveRegion inner o) :=
  ⟨by rw [h.eq]; rfl, h.ends.leaveRegion hinner⟩

theorem ReadsAs.compareAt {st : ReadState} (hm : st.message.isSome) {inner next : Nat}
    (hpos : pos ≤ inner) (hinner : inner ≤ buf.length) (field : IntField) (algorithm : Checksum)
    (received : IntField) (hlow : low ≤ next) (hnext : next ≤ stop) :
    ReadsAs low stop (st.compareAt buf pos inner field algorithm received next)
      (st.compare (algorithm.compute (slice buf pos inner) &&& checksumMask field)
        (received.value.toUInt64 &&& checksumMask field) next) := by
  rw [ReadState.compareAt, slice?_ok hpos hinner]
  exact ⟨rfl, endsBetween_compare _ _ hm hlow hnext⟩

/-- Layers that ended are followed by what comes behind them; those that did not stay. -/
theorem ReadsAs.followed {c : Guarded (Ended × ReadState)} {o : Ended × ReadState}
    {behind : Nat → ReadState → Guarded (Ended × ReadState)}
    {behind' : Nat → ReadState → Ended × ReadState}
    (h : ∀ inner st, st.message.isSome → low ≤ inner → inner ≤ stop →
      ReadsAs low stop (behind inner st) (behind' inner st)) :
    ReadsAs low stop c o →
      ReadsAs low stop
        (do match ← c with
          | (.upTo inner, st) => behind inner st
          | r => return r)
        (match o with
        | (.upTo inner, st) => behind' inner st
        | r => r) := by
  rintro ⟨rfl, hends⟩
  obtain ⟨ended, st⟩ := o
  cases ended with
  | upTo inner => exact h inner st hends.1 hends.2.1 hends.2.2
  | mismatch computed received => exact ⟨rfl, hends⟩
  | failed e => exact .failed e

end

/-! ## All layers -/

/-- An id that is read takes some bytes. -/
def Layer.TakesId (l : Layer) : Prop :=
  ∀ field, l.kind = .id field → ∀ src, (field.read src).error = none →
    (field.read src).rest.length < src.length

theorem IntField.read_consumes {f : IntField} {src : Bytes} (h : (f.read src).error = none) :
    (f.read src).rest.length < src.length := by
  obtain ⟨v, c, rest, ht⟩ := TakesInt.of_ok h
  have hpos := ht.length_pos
  rw [ht.read, ht.split]
  show rest.length < (c ++ rest).length
  rw [List.length_append]
  omega

theorem Frame.takesId (f : Frame) : ∀ l ∈ f.layers, l.TakesId := by
  intro l hl field hk src h
  obtain ⟨g, rfl⟩ | ⟨g, rfl⟩ := f.id_kind hl hk
  · exact IntField.read_consumes h
  · have he : (g.read src).error = none := h
    show (g.read src).rest.length < src.length
    rw [EnumField.read_eq] at he ⊢
    obtain ⟨hstorage, heq⟩ := Outcome.andThen_ok he
    rw [heq, EnumField.checked_rest]
    exact IntField.read_consumes hstorage

/-- The layers meet no fault when they are read by positions, and end as they do without a buffer,
behind at least that many bytes. -/
def ReadAlike (registry : Registry) (sized : Bool) (buf : Bytes) (ls : List Layer) (least : Nat)
    (st : ReadState) : Prop :=
  ∀ ⦃pos stop : Nat⦄, pos ≤ stop → stop ≤ buf.length →
    ReadsAs (pos + least) stop (readChecked registry sized buf ls pos stop st)
      (readInPlace registry sized ls pos (slice buf pos stop) st)

section
variable {registry : Registry} {sized : Bool} {buf : Bytes} {name : String} {ls : List Layer}
  {least : Nat} {st : ReadState}

-- the equations of all kinds of layers are made here once: they are slow, and each lemma needs one
attribute [local simp] readChecked

theorem readAlike_sync {field : IntField} (h : ReadAlike registry sized buf ls least st) :
    ReadAlike registry sized buf (⟨name, .sync field⟩ :: ls) least st := by
  intro pos stop hpos hstop
  simp only [readChecked, readInPlace]
  refine ReadsAs.checked (.withInt hpos hstop fun f n hn hns => ?_) (Nat.le_add_right _ _) hstop
  rw [add_taken_slice hn hns hstop]
  split
  · exact (h hns hstop).mono (by omega)
  · exact .failed _

theorem readAlike_size {field : IntField} {max : Option Nat}
    (h : ReadAlike registry sized buf ls least st) :
    ReadAlike registry sized buf (⟨name, .size field max⟩ :: ls) least st := by
  intro pos stop hpos hstop
  simp only [readChecked, readInPlace]
  refine ReadsAs.checked (.withInt hpos hstop fun f n hn hns => ?_) (Nat.le_add_right _ _) hstop
  rw [add_taken_slice hn hns hstop, Bytes.take?_eq, length_slice hstop]
  split
  · exact .failed _
  split
  · exact .failed _
  split
  · exact .failed _
  · rename_i hlen
    have hinner : n + f.value.toInt.toNat ≤ stop := by omega
    have hregion := @slice_take buf n stop _ (Nat.le_add_right n f.value.toInt.toNat) hinner
    rw [Nat.add_sub_cancel_left] at hregion
    dsimp only
    rw [hregion]
    have hinside := h (Nat.le_add_right n f.value.toInt.toNat) (Nat.le_trans hinner hstop)
    exact (hinside.region hinner).mono (by omega)

/-- An id takes a byte at least, and the layers behind it have a message. -/
theorem readAlike_id {field : Field} (htakes : Layer.TakesId ⟨name, .id field⟩)
    (h : ∀ st : ReadState, st.message.isSome → ReadAlike registry sized buf ls least st) :
    ReadAlike registry sized buf (⟨name, .id field⟩ :: ls) (least + 1) st := by
  intro pos stop hpos hstop
  simp only [readChecked, readInPlace]
  refine ReadsAs.checked ?_ (Nat.le_add_right _ _) hstop
  obtain ⟨e, he, hread⟩ | ⟨n, hn, hns, he, hrest, hread⟩ :=
    ReadState.readAt_slice field.read_suffix hpos hstop st
  · rw [hread, he]
    exact .failed e
  · have hshorter := htakes field rfl _ he
    rw [hrest, length_slice hstop, length_slice hstop] at hshorter
    have hlow : pos + (least + 1) ≤ n + least := by omega
    rw [hread, he, hrest]
    dsimp only
    rw [add_taken_slice hn hns hstop]
    exact .types sized _ (fun st' hm => (h st' hm hns hstop).mono hlow) st

theorem readAlike_transport {field : IntField} {version : Bool}
    (h : ∀ supplied, ReadAlike registry sized buf ls least { st with supplied }) :
    ReadAlike registry sized buf (⟨name, .transport field version⟩ :: ls) least st := by
  intro pos stop hpos hstop
  simp only [readChecked, readInPlace]
  refine ReadsAs.checked (.withInt hpos hstop fun f n hn hns => ?_) (Nat.le_add_right _ _) hstop
  rw [add_taken_slice hn hns hstop]
  exact (h _ hns hstop).mono (by omega)

theorem readAlike_payload (hm : st.message.isSome) :
    ReadAlike registry sized buf [⟨name, .payload⟩] 0 st := by
  intro pos stop hpos hstop
  simp only [readChecked, readInPlace]
  exact (ReadsAs.payload hm hpos hstop).checked (Nat.le_refl _) hstop

theorem readAlike_after {field : IntField} {algorithm : Checksum}
    (h : ReadAlike registry sized buf ls least st) :
    ReadAlike registry sized buf (⟨name, .checksum field algorithm .after⟩ :: ls) least st := by
  intro pos stop hpos hstop
  simp only [readChecked, readInPlace]
  refine ReadsAs.checked ?_ (Nat.le_add_right _ _) hstop
  refine .followed (fun inner st' hm hlow hinner => ?_) (h hpos hstop)
  have hpi : pos ≤ inner := by omega
  rw [slice_take hpi hinner, slice_drop hpi]
  refine .withInt hinner hstop fun f n hn hns => ?_
  rw [add_taken_slice hn hns hstop]
  exact .compareAt hm hpi (by omega) field algorithm f (by omega) hns

theorem readAlike_before {field : IntField} {algorithm : Checksum}
    (h : ReadAlike registry sized buf ls least st) :
    ReadAlike registry sized buf (⟨name, .checksum field algorithm .before⟩ :: ls) least st := by
  intro pos stop hpos hstop
  simp only [readChecked, readInPlace]
  refine ReadsAs.checked (.withInt hpos hstop fun f n hn hns => ?_) (Nat.le_add_right _ _) hstop
  rw [add_taken_slice hn hns hstop]
  refine ReadsAs.mono (.followed (fun inner st' hm hlow hinner => ?_) (h hns hstop)) (by omega)
  have hni : n ≤ inner := by omega
  rw [slice_take hni hinner]
  exact .compareAt hm hni (by omega) field algorithm f hlow hinner

end

/-- **Layers read by positions** meet no fault and end as they do without a buffer, behind at least
one byte for each id. The message is known where the payload is read, or the id is still to come. -/
theorem readAlike {registry : Registry} {sized : Bool} {buf : Bytes} {ls : List Layer}
    (htakes : ∀ l ∈ ls, l.TakesId) (hlast : ls.Pairwise fun l _ => l.isPayload = false)
    (st : ReadState) (hm : st.message.isSome ∨ ∃ l ∈ ls, l.isId) :
    ReadAlike registry sized buf ls (ls.countP Layer.isId) st := by
  induction ls generalizing st with
  | nil =>
    have hm : st.message.isSome := hm.resolve_right fun ⟨l, hl, _⟩ => List.not_mem_nil hl
    intro pos stop hpos hstop
    exact ⟨ended?_upTo (Nat.le_refl _) hpos hstop, hm, Nat.le_refl _, hpos⟩
  | cons l ls ih =>
    have ih := ih (fun l hl => htakes l (.tail _ hl)) (List.pairwise_cons.1 hlast).2
    cases hl : l.isId with
    | true =>
      obtain ⟨name, kind⟩ := l
      rw [List.countP_cons_of_pos hl]
      cases kind with
      | id field => exact readAlike_id (htakes _ (.head _)) fun st' hm' => ih st' (.inl hm')
      | _ => cases hl
    | false =>
      replace hm : st.message.isSome ∨ ∃ l ∈ ls, l.isId := by
        simpa only [List.exists_mem_cons_iff, hl, Bool.false_eq_true, false_or] using hm
      rw [List.countP_cons_of_neg (by rw [hl]; exact Bool.false_ne_true)]
      obtain ⟨name, kind⟩ := l
      cases kind with
      | sync field => exact readAlike_sync (ih st hm)
      | size field max => exact readAlike_size (ih st hm)
      | id field => cases hl
      | transport field version => exact readAlike_transport fun _ => ih _ hm
      | payload =>
        obtain rfl := inside_payload (List.pairwise_cons.1 hlast).1
        exact readAlike_payload (hm.resolve_right fun ⟨l, hl, _⟩ => List.not_mem_nil hl)
      | checksum field algorithm placement =>
        cases placement with
        | after => exact readAlike_after (ih st hm)
        | before => exact readAlike_before (ih st hm)

/-! ## One frame -/

namespace Frame

/-- **Reading a frame never leaves the buffer.** For every frame and every buffer all positions are
in order and in the buffer, the branches for what should not occur are not entered, and the result
is that of `readOne`. A frame that was found, with a right or a wrong checksum, takes at least one
byte and at most all. -/
theorem readChecked_ok (f : Frame) (buf : Bytes) :
    f.readChecked buf = .ok (f.readOne buf) ∧
      f.readOne buf ≠ .garbage .noMessage ∧ f.readOne buf ≠ .garbage .mismatch ∧
      ∀ m n, f.readOne buf = .message m n ∨ f.readOne buf = .checksumFailure m n →
        1 ≤ n ∧ n ≤ buf.length := by
  have h := @readAlike f.registry f.sized buf _ f.takesId f.payload_last {}
    (.inr (List.any_eq_true.1 f.any_isId)) _ _ (Nat.zero_le buf.length) (Nat.le_refl _)
  rw [slice_all, (frameFault?_eq_none f.wellFormed).2.2.1] at h
  rw [← f.readInPlace_eq]
  unfold readChecked readInPlace
  rw [h.eq]
  have hends := h.ends
  generalize WireProtocol.readInPlace f.registry f.sized f.layers 0 buf {} = o at hends ⊢
  obtain ⟨ended, st⟩ := o
  cases ended with
  | upTo n =>
    obtain ⟨hm, hlow, hn⟩ := hends
    obtain ⟨m, hm⟩ := Option.isSome_iff_exists.1 hm
    simp only [bind, Except.bind, hm, slice?_ok (Nat.zero_le n) hn, slice_zero]
    refine ⟨rfl, nofun, nofun, fun m' n' h => ?_⟩
    rcases h with h | h <;> cases h
    exact ⟨hlow, hn⟩
  | mismatch computed received =>
    obtain ⟨hm, n, hextent, hlow, hn⟩ := hends
    obtain ⟨m, hm⟩ := Option.isSome_iff_exists.1 hm
    simp only [bind, Except.bind, hm, hextent, slice?_ok (Nat.zero_le n) hn, slice_zero]
    refine ⟨rfl, nofun, nofun, fun m' n' h => ?_⟩
    rcases h with h | h <;> cases h
    exact ⟨hlow, hn⟩
  | failed e =>
    refine ⟨by cases e <;> rfl, ?_, ?_, fun m' n' h => ?_⟩
    · cases e <;> nofun
    · cases e <;> nofun
    · cases e <;> rcases h with h | h <;> cases h

end Frame

set_option maxRecDepth 20000 in
/-- The content is no flag and is read as the next type; the wrong checksum ends in front of the
last byte. -/
theorem sharedIdFrame_readChecked :
    ∃ x, sharedIdFrame.readChecked [4, 1, 9, 8, 7, 6] = .ok (.checksumFailure x 5) ∧
      1 ≤ 5 ∧ 5 ≤ [4, 1, 9, 8, 7, 6].length := by
  let x : Message := { ping 8 with
    transport := [⟨"hops", .int ((octet 3).withValue 9)⟩]
    kind := .invalid .checksumFailure
    frameBytes := [4, 1, 9, 8, 7] }
  have hread : sharedIdFrame.readOne [4, 1, 9, 8, 7, 6] = .checksumFailure x 5 := rfl
  obtain ⟨heq, -, -, hbounds⟩ := sharedIdFrame.readChecked_ok [4, 1, 9, 8, 7, 6]
  exact ⟨x, heq.trans (congrArg _ hread), hbounds x 5 (.inr hread)⟩

end WireProtocol
