import Mathlib.Data.List.Induction
import WireProtocol.Frame.Read
import WireProtocol.Proofs.Frame.WellFormed

/-!
# Reading frames in one state

A reader that keeps what it finds in one `ReadState` need not copy it for each message type that it
tries: the state that a failed attempt leaves goes into the next one. `Frame.readInPlace` reads a
frame so, and gives what `Frame.readOne` gives (`Frame.readInPlace_eq`). Of what an attempt leaves,
the message and the extent are written again before they are used; the transport values are the ones
that the next attempt finds once more, and put into the same places (`putAll_putAll`).
-/

set_option autoImplicit false

namespace WireProtocol

/-! ## The reader -/

/-- What is kept while a frame is read. -/
structure ReadState where
  message : Option Message := none
  supplied : List Supplied := []
  /-- Where a frame ends whose checksum did not match. -/
  extent : Option Nat := none

/-- How reading layers in a state ended. -/
inductive Ended where
  /-- The layers end at that position of the input. -/
  | upTo (position : Nat)
  | mismatch (computed received : UInt64)
  | failed (e : CodecError)

namespace ReadState

/-- Reads an integer; if that fails the state stays. -/
def withInt (st : ReadState) (field : IntField) (src : Bytes)
    (next : IntField → Bytes → Ended × ReadState) : Ended × ReadState :=
  match (field.read src).error with
  | some e => (.failed e, st)
  | none => next (field.read src).value (field.read src).rest

/-- Compares a checksum at the end of a frame. -/
def compare (st : ReadState) (computed received : UInt64) (stop : Nat) : Ended × ReadState :=
  if computed = received then (.upTo stop, st)
  else (.mismatch computed received, { st with extent := some stop })

/-- Leaves a region that ends at `stop`. -/
def leaveRegion (stop : Nat) : Ended × ReadState → Ended × ReadState
  | (.upTo _, st) => (.upTo stop, st)
  | (.mismatch computed received, st) =>
    (.mismatch computed received, { st with extent := some stop })
  | (.failed (.notEnoughData missing), st) => (.failed (.notAFrame (.contentOverrun missing)), st)
  | (.failed e, st) => (.failed e, st)

/-- Tries message types in order, each in the state that the one before it left. -/
def tryTypes (id : UInt64) (attempt : ReadState → Ended × ReadState) :
    List Message → ReadState → Ended × ReadState
  | [], st => (.failed (.unknownId id), st)
  | [m], st => attempt { st with message := some m }
  | m :: ms, st =>
    match attempt { st with message := some m } with
    | (.failed (.invalidData _), st) => tryTypes id attempt ms st
    | r => r

/-- Reads the payload into the message of the state. -/
def readPayload (st : ReadState) (position : Nat) (src : Bytes) : Ended × ReadState :=
  match st.message with
  | none => (.failed (.notAFrame .noMessageType), st)
  | some m =>
    let o := (st.supplied.foldl Supplied.giveTo m).read src
    let st := { st with message := some o.value }
    match o.error with
    | some e => (.failed e, st)
    | none => (.upTo (position + taken src o.rest), st)

end ReadState

/-- Reads layers from `src`, which starts at `position`, in a state. -/
def readInPlace (registry : Registry) (sized : Bool) :
    List Layer → (position : Nat) → Bytes → ReadState → Ended × ReadState
  | [], position, _, st => (.upTo position, st)
  | ⟨name, kind⟩ :: ls, position, src, st =>
    match kind with
    | .sync field =>
      st.withInt field src fun f rest =>
        if f.value = field.default then
          readInPlace registry sized ls (position + taken src rest) rest st
        else (.failed (.notAFrame (.syncMismatch f.value)), st)
    | .size field max =>
      st.withInt field src fun f rest =>
        let len := f.value.toInt.toNat
        let start := position + taken src rest
        if f.value < 0 then (.failed (.notAFrame (.negativeSize f.value)), st)
        else if max.any (· < len) then
          (.failed (.notAFrame (.sizeAboveMaximum len (max.getD 0))), st)
        else
          match Bytes.take? len rest with
          | .error missing => (.failed (.notEnoughData missing), st)
          | .ok (region, _) =>
            ReadState.leaveRegion (start + len) (readInPlace registry sized ls start region st)
    | .id field =>
      let o := field.read src
      match o.error with
      | some e => (.failed e, st)
      | none =>
        let id := o.value.value.bits?.getD 0
        let inside := readInPlace registry sized ls (position + taken src o.rest) o.rest
        match registry.ofId id with
        | [] =>
          if sized then inside { st with message := some (.rawData id) }
          else (.failed (.unknownId id), st)
        | types => ReadState.tryTypes id inside types st
    | .transport field version =>
      st.withInt field src fun f rest =>
        readInPlace registry sized ls (position + taken src rest) rest
          { st with supplied := Supplied.put ⟨name, f, version⟩ st.supplied }
    | .payload => st.readPayload position src
    | .checksum field algorithm .after =>
      match readInPlace registry sized ls position src st with
      | (.upTo stop, st) =>
        let n := stop - position
        st.withInt field (src.drop n) fun f rest =>
          st.compare (algorithm.compute (src.take n) &&& checksumMask field)
            (f.value.toUInt64 &&& checksumMask field) (stop + taken (src.drop n) rest)
      | r => r
    | .checksum field algorithm .before =>
      st.withInt field src fun f rest =>
        let start := position + taken src rest
        match readInPlace registry sized ls start rest st with
        | (.upTo stop, st) =>
          st.compare (algorithm.compute (rest.take (stop - start)) &&& checksumMask field)
            (f.value.toUInt64 &&& checksumMask field) stop
        | r => r

/-- Tries to read a frame from the front of a byte string, in one state. -/
def Frame.readInPlace (f : Frame) (src : Bytes) : FrameRead :=
  match WireProtocol.readInPlace f.registry f.sized f.layers 0 src {} with
  | (.upTo n, st) =>
    match st.message with
    | some m => .message { m with frameBytes := src.take n } n
    | none => .garbage .noMessage
  | (.mismatch _ _, st) =>
    match st.message, st.extent with
    | some m, some n =>
      .checksumFailure { m with kind := .invalid .checksumFailure, frameBytes := src.take n } n
    | _, _ => .garbage .mismatch
  | (.failed (.notEnoughData missing), _) => .notEnoughData missing
  | (.failed e, _) => .garbage (.codec e)

/-! ## Transport values that are found again -/

namespace Supplied

/-- Puts values in order. -/
def putAll (ts supplied : List Supplied) : List Supplied :=
  ts.foldl (fun ss t => put t ss) supplied

variable {s t : Supplied} {ts ss : List Supplied}

theorem put_cons (u : Supplied) :
    put t (u :: ss) = if u.name = t.name then t :: ss else u :: put t ss := by
  simp [put]

theorem mem_names_put {name : String} (h : name ∈ ss.map Supplied.name ∨ name = t.name) :
    name ∈ (put t ss).map Supplied.name := by
  induction ss with
  | nil => simpa [put] using h
  | cons u us ih =>
    rw [List.map_cons, List.mem_cons] at h
    rw [put_cons]
    by_cases hu : u.name = t.name
    · rw [if_pos hu, List.map_cons, List.mem_cons]
      rcases h with (h | h) | h
      · exact .inl (h.trans hu)
      · exact .inr h
      · exact .inl h
    · rw [if_neg hu, List.map_cons, List.mem_cons]
      rcases h with (h | h) | h
      · exact .inl h
      · exact .inr (ih (.inl h))
      · exact .inr (ih (.inr h))

theorem mem_names_putAll {name : String}
    (h : name ∈ ss.map Supplied.name ∨ name ∈ ts.map Supplied.name) :
    name ∈ (putAll ts ss).map Supplied.name := by
  induction ts generalizing ss with
  | nil => simpa [putAll] using h
  | cons t ts ih =>
    refine ih ?_
    rw [List.map_cons, List.mem_cons] at h
    rcases h with h | h | h
    · exact .inl (mem_names_put (.inl h))
    · exact .inl (mem_names_put (.inr h))
    · exact .inr h

/-- The later of two values of one name stays. -/
theorem put_put (h : s.name = t.name) : put s (put t ss) = put s ss := by
  induction ss with
  | nil => simp [put, h]
  | cons u us ih =>
    by_cases hu : u.name = t.name
    · simp [put_cons, hu, h]
    · simp [put_cons, hu, h, ih]

/-- Values of two names may be put in any order if one of them has a place. -/
theorem put_comm (h : s.name ≠ t.name) (hs : s.name ∈ ss.map Supplied.name) :
    put s (put t ss) = put t (put s ss) := by
  induction ss with
  | nil => cases hs
  | cons u us ih =>
    by_cases hu : u.name = s.name
    · have hut : u.name ≠ t.name := fun he => h (hu.symm.trans he)
      simp [put_cons, hu, h]
    · have hs : s.name ∈ us.map Supplied.name := by
        rcases List.mem_cons.1 hs with he | hs
        · exact absurd he.symm hu
        · exact hs
      by_cases hut : u.name = t.name
      · simp [put_cons, hut, Ne.symm h]
      · simp [put_cons, hu, hut, ih hs]

/-- A value that is put in the end hides what stood in its place. -/
theorem put_putAll_put (h : ∀ u ∈ ts, u.name ∈ ss.map Supplied.name) :
    put t (putAll ts (put t ss)) = put t (putAll ts ss) := by
  induction ts generalizing ss with
  | nil => exact put_put rfl
  | cons s ts ih =>
    show put t (putAll ts (put s (put t ss))) = put t (putAll ts (put s ss))
    by_cases hst : s.name = t.name
    · rw [put_put hst]
    · rw [put_comm hst (h s (.head _))]
      exact ih fun u hu => mem_names_put (.inl (h u (.tail _ hu)))

/-- **Values that are put again** change nothing. -/
theorem putAll_putAll (ts ss : List Supplied) : putAll ts (putAll ts ss) = putAll ts ss := by
  induction ts using List.reverseRecOn generalizing ss with
  | nil => rfl
  | append_singleton ts t ih =>
    have hput (us : List Supplied) : putAll (ts ++ [t]) us = put t (putAll ts us) := by
      simp [putAll]
    rw [hput, hput, put_putAll_put, ih]
    exact fun u hu => mem_names_putAll (.inr (List.mem_map_of_mem hu))

end Supplied

/-- Reading in place puts the values `ts`, and only what stands behind them counts for the
result. -/
structure Finds (ts : List Supplied) (inPlace : Nat → ReadState → Ended × ReadState)
    (read : List Supplied → Option Message → LayerRead) : Prop where
  state : ∀ position st, (inPlace position st).2.supplied = Supplied.putAll ts st.supplied
  result : ∀ ss ss' message, Supplied.putAll ts ss = Supplied.putAll ts ss' →
    read ss message = read ss' message

namespace ReadState

variable {field : IntField} {src : Bytes}

theorem withInt_of_some {e : CodecError} (he : (field.read src).error = some e) (st : ReadState)
    (next : IntField → Bytes → Ended × ReadState) :
    st.withInt field src next = (.failed e, st) := by
  unfold withInt
  rw [he]

theorem withInt_of_none (he : (field.read src).error = none) (st : ReadState)
    (next : IntField → Bytes → Ended × ReadState) :
    st.withInt field src next = next (field.read src).value (field.read src).rest := by
  unfold withInt
  rw [he]

theorem withInt_supplied {st : ReadState} {next : IntField → Bytes → Ended × ReadState}
    {ss : List Supplied} (hst : st.supplied = ss) (h : ∀ f rest, (next f rest).2.supplied = ss) :
    (st.withInt field src next).2.supplied = ss := by
  unfold withInt
  split
  · exact hst
  · exact h _ _

theorem compare_supplied (st : ReadState) (computed received : UInt64) (stop : Nat) :
    (st.compare computed received stop).2.supplied = st.supplied := by
  unfold compare
  split <;> rfl

theorem leaveRegion_supplied (stop : Nat) (o : Ended × ReadState) :
    (leaveRegion stop o).2.supplied = o.2.supplied := by
  unfold leaveRegion
  split <;> rfl

theorem readPayload_supplied (st : ReadState) (position : Nat) (src : Bytes) :
    (st.readPayload position src).2.supplied = st.supplied := by
  unfold readPayload
  split
  · rfl
  · dsimp only
    split <;> rfl

end ReadState

theorem withInt_of_some {field : IntField} {src : Bytes} {e : CodecError}
    (he : (field.read src).error = some e) (next : IntField → Bytes → LayerRead) :
    withInt field src next = .failed e := by
  simp only [withInt, he]

theorem withInt_of_none {field : IntField} {src : Bytes} (he : (field.read src).error = none)
    (next : IntField → Bytes → LayerRead) :
    withInt field src next = next (field.read src).value (field.read src).rest := by
  simp only [withInt, he]

section
variable {registry : Registry} {sized : Bool} {ls : List Layer}

/-- A field in front of the layers inside. -/
theorem Finds.front {field : IntField} {src : Bytes}
    {inPlace : ReadState → Nat → IntField → Bytes → Ended × ReadState}
    {read : List Supplied → Option Message → IntField → Bytes → LayerRead}
    (h : ∀ f rest, ∃ ts, Finds ts (fun position st => inPlace st position f rest)
      fun ss message => read ss message f rest) :
    ∃ ts, Finds ts (fun position st => st.withInt field src (inPlace st position))
      fun ss message => withInt field src (read ss message) := by
  cases he : (field.read src).error with
  | some e =>
    refine ⟨[], fun position st => ?_, fun ss ss' message _ => ?_⟩
    · rw [ReadState.withInt_of_some he]
      rfl
    · rw [withInt_of_some he, withInt_of_some he]
  | none =>
    simp only [ReadState.withInt_of_none he, withInt_of_none he]
    exact h _ _

/-- Reading ends in the same way whatever was supplied. -/
theorem Finds.failed {failure : Ended} {r : LayerRead} :
    Finds [] (fun _ st => (failure, st)) fun _ _ => r :=
  ⟨fun _ _ => rfl, fun _ _ _ _ => rfl⟩

section
variable {name : String} {ts : List Supplied} {src : Bytes}

-- the equations of all kinds of layers are made here once: they are slow, and each lemma needs one
attribute [local simp] readInPlace

theorem finds_size {field : IntField} {max : Option Nat}
    (h : ∀ src, ∃ ts, Finds ts (fun position => readInPlace registry sized ls position src)
      fun ss message => readLayers registry sized ls ss message src) :
    ∃ ts, Finds ts
      (fun position => readInPlace registry sized (⟨name, .size field max⟩ :: ls) position src)
      fun ss message => readLayers registry sized (⟨name, .size field max⟩ :: ls) ss message src := by
  simp only [readInPlace, readLayers]
  refine Finds.front fun f rest => ?_
  by_cases hneg : f.value < 0
  · simp only [hneg, if_true]
    exact ⟨[], .failed⟩
  by_cases hmax : max.any (· < f.value.toInt.toNat)
  · simp only [hneg, hmax, if_true, if_false]
    exact ⟨[], .failed⟩
  simp only [hneg, hmax, if_false]
  cases Bytes.take? f.value.toInt.toNat rest with
  | error missing => exact ⟨[], .failed⟩
  | ok p =>
    obtain ⟨ts, h⟩ := h p.1
    refine ⟨ts, fun position st => ?_,
      fun ss ss' message hs => by simp only [h.result ss ss' message hs]⟩
    exact (ReadState.leaveRegion_supplied _ _).trans (h.state _ st)

theorem finds_after {field : IntField} {algorithm : Checksum}
    (h : Finds ts (fun position => readInPlace registry sized ls position src)
      fun ss message => readLayers registry sized ls ss message src) :
    Finds ts
      (fun position =>
        readInPlace registry sized (⟨name, .checksum field algorithm .after⟩ :: ls) position src)
      fun ss message =>
        readLayers registry sized (⟨name, .checksum field algorithm .after⟩ :: ls) ss message
          src := by
  refine ⟨fun position st => ?_, fun ss ss' message hs => ?_⟩
  · have hst := h.state position st
    simp only [readInPlace]
    split
    · rename_i stop st' hr
      rw [hr] at hst
      refine ReadState.withInt_supplied hst fun f rest => ?_
      exact (ReadState.compare_supplied _ _ _ _).trans hst
    · exact hst
  · simp only [readLayers, h.result ss ss' message hs]

theorem finds_before {field : IntField} {algorithm : Checksum}
    (h : ∀ src, ∃ ts, Finds ts (fun position => readInPlace registry sized ls position src)
      fun ss message => readLayers registry sized ls ss message src) :
    ∃ ts, Finds ts
      (fun position =>
        readInPlace registry sized (⟨name, .checksum field algorithm .before⟩ :: ls) position src)
      fun ss message =>
        readLayers registry sized (⟨name, .checksum field algorithm .before⟩ :: ls) ss message
          src := by
  simp only [readInPlace, readLayers]
  refine Finds.front fun f rest => ?_
  obtain ⟨ts, h⟩ := h rest
  refine ⟨ts, fun position st => ?_, fun ss ss' message hs => ?_⟩
  · have hst := h.state (position + taken src rest) st
    split
    · rename_i stop st' hr
      rw [hr] at hst
      exact (ReadState.compare_supplied _ _ _ _).trans hst
    · exact hst
  · simp only [h.result ss ss' message hs]

end

/-- **Layers without an id put the same transport values every time**, and their result depends only
on the state behind these. -/
theorem readInPlace_finds (hid : ∀ l ∈ ls, l.isId = false) (src : Bytes) :
    ∃ ts, Finds ts (fun position => readInPlace registry sized ls position src)
      fun ss message => readLayers registry sized ls ss message src := by
  induction ls generalizing src with
  | nil => exact ⟨[], fun _ _ => rfl, fun _ _ _ _ => rfl⟩
  | cons l ls ih =>
    have ih := @ih fun l hl => hid l (.tail _ hl)
    have hl := hid l (.head _)
    obtain ⟨name, kind⟩ := l
    cases kind with
    | sync field =>
      simp only [readInPlace, readLayers]
      refine Finds.front fun f rest => ?_
      by_cases hf : f.value = field.default
      · obtain ⟨ts, h⟩ := ih rest
        simp only [hf, if_true]
        exact ⟨ts, fun position st => h.state _ st,
          fun ss ss' message hs => by rw [h.result ss ss' message hs]⟩
      · simp only [hf, if_false]
        exact ⟨[], .failed⟩
    | size field max => exact finds_size ih
    | id field => cases hl
    | transport field version =>
      simp only [readInPlace, readLayers]
      refine Finds.front fun f rest => ?_
      obtain ⟨ts, h⟩ := ih rest
      refine ⟨⟨name, f, version⟩ :: ts, fun position st => h.state _ _, fun ss ss' message hs => ?_⟩
      rw [h.result _ _ message hs]
    | payload =>
      refine ⟨[], fun position st => st.readPayload_supplied position src,
        fun ss ss' message hs => ?_⟩
      obtain rfl : ss = ss' := hs
      rfl
    | checksum field algorithm placement =>
      cases placement with
      | after =>
        obtain ⟨ts, h⟩ := ih src
        exact ⟨ts, finds_after h⟩
      | before => exact finds_before ih

end

/-! ## The same result -/

/-- What was read in place is the result for the bytes from `position` on. -/
inductive Agrees (position : Nat) : LayerRead → Ended × ReadState → Prop
  | done {m : Option Message} {n stop : Nat} {st : ReadState} (hstop : stop = position + n)
      (hm : st.message = m) : Agrees position (.done m n) (.upTo stop, st)
  | mismatch {computed received : UInt64} {m : Option Message} {n stop : Nat} {st : ReadState}
      (hstop : stop = position + n) (hm : st.message = m) (hextent : st.extent = some stop) :
      Agrees position (.mismatch computed received m n) (.mismatch computed received, st)
  | failed {e : CodecError} {st : ReadState} : Agrees position (.failed e) (.failed e, st)

section
variable {position : Nat} {r : LayerRead} {o : Ended × ReadState}

theorem Agrees.seenFrom {src rest : Bytes} (h : Agrees (position + taken src rest) r o) :
    Agrees position (r.seenFrom src rest) o := by
  cases h with
  | done hstop hm => exact .done (hstop.trans (Nat.add_assoc _ _ _)) hm
  | mismatch hstop hm hextent => exact .mismatch (hstop.trans (Nat.add_assoc _ _ _)) hm hextent
  | failed => exact .failed

theorem Agrees.inRegion {start : Nat} (h : Agrees start r o) (len : Nat) :
    Agrees start (r.inRegion len) (ReadState.leaveRegion (start + len) o) := by
  cases h with
  | done hstop hm => exact .done rfl hm
  | mismatch hstop hm hextent => exact .mismatch rfl hm rfl
  | @failed e st => cases e <;> exact .failed

theorem withInt_agrees {field : IntField} {src : Bytes} {st : ReadState}
    {next : IntField → Bytes → LayerRead} {next' : IntField → Bytes → Ended × ReadState}
    (h : ∀ f rest, Agrees position (next f rest) (next' f rest)) :
    Agrees position (withInt field src next) (st.withInt field src next') := by
  cases he : (field.read src).error with
  | some e =>
    rw [withInt_of_some he, ReadState.withInt_of_some he]
    exact .failed
  | none =>
    rw [withInt_of_none he, ReadState.withInt_of_none he]
    exact h _ _

theorem compare_agrees {computed received : UInt64} {m : Option Message} {n stop : Nat}
    {st : ReadState} (hstop : stop = position + n) (hm : st.message = m) :
    Agrees position (.compare computed received m n) (st.compare computed received stop) := by
  unfold LayerRead.compare ReadState.compare
  split
  · exact .done hstop hm
  · exact .mismatch hstop hm rfl

theorem readPayload_agrees (st : ReadState) (position : Nat) (src : Bytes) :
    Agrees position (readPayload st.supplied st.message src) (st.readPayload position src) := by
  obtain ⟨message, supplied, extent⟩ := st
  cases message with
  | none => exact .failed
  | some m =>
    simp only [readPayload, ReadState.readPayload]
    cases ((supplied.foldl Supplied.giveTo m).read src).error with
    | some e => exact .failed
    | none => exact .done rfl rfl

/-- Attempts that depend on the transport values only by `P`, which each of them keeps, end as they
do one by one. -/
theorem tryTypes_agrees {id : UInt64} {attempt : Message → LayerRead}
    {inside : ReadState → Ended × ReadState} {P : List Supplied → Prop}
    (hagrees : ∀ st m, P st.supplied → st.message = some m →
      Agrees position (attempt m) (inside st))
    (hkeep : ∀ st, P st.supplied → P (inside st).2.supplied) (types : List Message) {st : ReadState}
    (hst : P st.supplied) :
    Agrees position (dispatch id attempt types) (ReadState.tryTypes id inside types st) := by
  induction types generalizing st with
  | nil => exact .failed
  | cons m ms ih =>
    have hm := hagrees { st with message := some m } m hst rfl
    have hk := hkeep { st with message := some m } hst
    cases ms with
    | nil => exact hm
    | cons m' ms =>
      unfold dispatch ReadState.tryTypes
      generalize inside { st with message := some m } = o at hm hk ⊢
      generalize attempt m = r at hm ⊢
      cases hm with
      | done hstop hm => exact .done hstop hm
      | mismatch hstop hm hextent => exact .mismatch hstop hm hextent
      | @failed e st' =>
        cases e with
        | invalidData fault => exact ih hk
        | _ => exact .failed

end

/-- Layers end in a state as they do without one, from any position and input. -/
def ReadsInPlace (registry : Registry) (sized : Bool) (ls : List Layer) : Prop :=
  ∀ (position : Nat) (src : Bytes) (st : ReadState),
    Agrees position (readLayers registry sized ls st.supplied st.message src)
      (readInPlace registry sized ls position src st)

section
variable {registry : Registry} {sized : Bool} {name : String} {ls : List Layer}

/-- The types of an id are tried one after the other in the state that the one before has left. -/
theorem readsInPlace_id {field : Field} (h : ReadsInPlace registry sized ls)
    (hid : ∀ l ∈ ls, l.isId = false) :
    ReadsInPlace registry sized (⟨name, .id field⟩ :: ls) := by
  intro position src st
  simp only [readInPlace, readLayers]
  cases (field.read src).error with
  | some e => exact .failed
  | none =>
    cases registry.ofId ((field.read src).value.value.bits?.getD 0) with
    | nil =>
      dsimp only
      split
      · exact (h _ (field.read src).rest { st with message := some _ }).seenFrom
      · exact .failed
    | cons m ms =>
      obtain ⟨ts, hts⟩ := @readInPlace_finds registry sized ls hid (field.read src).rest
      -- an attempt finds behind `ts` what the first one found
      refine Agrees.seenFrom (tryTypes_agrees
        (P := fun ss => Supplied.putAll ts ss = Supplied.putAll ts st.supplied)
        (fun st' m hst hm => ?_) (fun st' hst => ?_) (m :: ms) rfl)
      · have h := h (position + taken src (field.read src).rest) (field.read src).rest st'
        rw [hm, hts.result _ _ (some m) hst] at h
        exact h
      · rw [hts.state _ st', Supplied.putAll_putAll]
        exact hst

theorem readsInPlace_after {field : IntField} {algorithm : Checksum}
    (h : ReadsInPlace registry sized ls) :
    ReadsInPlace registry sized (⟨name, .checksum field algorithm .after⟩ :: ls) := by
  intro position src st
  have h := h position src st
  simp only [readInPlace, readLayers]
  generalize readInPlace registry sized ls position src st = o at h ⊢
  generalize readLayers registry sized ls st.supplied st.message src = r at h ⊢
  cases h with
  | done hstop hm =>
    subst hstop
    dsimp only
    rw [Nat.add_sub_cancel_left]
    exact withInt_agrees fun f rest => compare_agrees (Nat.add_assoc _ _ _) hm
  | mismatch hstop hm hextent => exact .mismatch hstop hm hextent
  | failed => exact .failed

theorem readsInPlace_before {field : IntField} {algorithm : Checksum}
    (h : ReadsInPlace registry sized ls) :
    ReadsInPlace registry sized (⟨name, .checksum field algorithm .before⟩ :: ls) := by
  intro position src st
  simp only [readInPlace, readLayers]
  refine withInt_agrees fun f rest => ?_
  have h := h (position + taken src rest) rest st
  generalize readInPlace registry sized ls (position + taken src rest) rest st = o at h ⊢
  generalize readLayers registry sized ls st.supplied st.message rest = r at h ⊢
  cases h with
  | done hstop hm =>
    subst hstop
    dsimp only
    rw [Nat.add_sub_cancel_left]
    exact compare_agrees (Nat.add_assoc _ _ _) hm
  | mismatch hstop hm hextent => exact (Agrees.mismatch hstop hm hextent).seenFrom
  | failed => exact .failed

/-- **Layers read in place** end as they do without a state. -/
theorem readsInPlace (hid : ls.countP Layer.isId ≤ 1) : ReadsInPlace registry sized ls := by
  induction ls with
  | nil => exact fun _ _ _ => .done rfl rfl
  | cons l ls ih =>
    rw [List.countP_cons] at hid
    have ih := ih (by omega)
    obtain ⟨name, kind⟩ := l
    cases kind with
    | sync field =>
      intro position src st
      simp only [readInPlace, readLayers]
      refine withInt_agrees fun f rest => ?_
      split
      · exact (ih _ rest st).seenFrom
      · exact .failed
    | size field max =>
      intro position src st
      simp only [readInPlace, readLayers]
      refine withInt_agrees fun f rest => ?_
      split
      · exact .failed
      split
      · exact .failed
      cases Bytes.take? f.value.toInt.toNat rest with
      | error missing => exact .failed
      | ok p => exact ((ih _ p.1 st).inRegion _).seenFrom
    | id field =>
      have hzero : ls.countP Layer.isId = 0 := by
        simp only [Layer.isId, if_true] at hid
        omega
      exact readsInPlace_id ih fun l hl => by simpa using List.countP_eq_zero.1 hzero l hl
    | transport field version =>
      intro position src st
      simp only [readInPlace, readLayers]
      exact withInt_agrees fun f rest => (ih _ rest { st with supplied := _ }).seenFrom
    | payload =>
      intro position src st
      simp only [readInPlace, readLayers]
      exact readPayload_agrees st position src
    | checksum field algorithm placement =>
      cases placement with
      | after => exact readsInPlace_after ih
      | before => exact readsInPlace_before ih

end

/-- **A frame read in one state** is read as it is without one. -/
theorem Frame.readInPlace_eq (f : Frame) (src : Bytes) : f.readInPlace src = f.readOne src := by
  have hid := (frameFault?_eq_none f.wellFormed).2.2.1
  have h := @readsInPlace f.registry f.sized f.layers (Nat.le_of_eq hid) 0 src {}
  unfold readInPlace readOne
  generalize WireProtocol.readInPlace f.registry f.sized f.layers 0 src {} = o at h ⊢
  change Agrees 0 (readLayers f.registry f.sized f.layers [] none src) o at h
  generalize readLayers f.registry f.sized f.layers [] none src = r at h ⊢
  cases h with
  | @done m n stop st hstop hm =>
    obtain rfl : stop = n := by omega
    dsimp only
    rw [hm]
    cases m <;> rfl
  | @mismatch computed received m n stop st hstop hm hextent =>
    obtain rfl : stop = n := by omega
    dsimp only
    rw [hm, hextent]
    cases m <;> rfl
  | @failed e st => cases e <;> rfl

end WireProtocol
