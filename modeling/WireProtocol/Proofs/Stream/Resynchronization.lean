import WireProtocol.Proofs.Frame.Extension
import WireProtocol.Proofs.Frame.Reading
import WireProtocol.Proofs.Stream.Backlog

/-!
# Resynchronization

Between frames a stream may hold any bytes among which the marker of the frames does not begin. A
byte at which the marker does not begin is skipped (`take_unmarked`), so that noise turns into
garbage byte by byte, and a frame with a size layer is read from the front of the input whatever
comes after it. Hence the frames are found and nothing else is (`feed_resynchronizes`).
-/

set_option autoImplicit false

namespace WireProtocol

/-! ## Frames among noise -/

/-- A frame on the wire, the message that it is, and the bytes up to the next frame. -/
structure Segment where
  frame : Bytes
  message : Message
  noise : Bytes

/-- The bytes of segments in order. -/
def wireBytes (segments : List Segment) : Bytes := segments.flatMap fun s => s.frame ++ s.noise

/-- In front of `after` the marker does not begin inside the noise. It may go on into it. -/
def Unmarked (marker noise after : Bytes) : Prop :=
  ∀ i < noise.length, ¬ marker <+: (noise ++ after).drop i

instance (marker noise after : Bytes) : Decidable (Unmarked marker noise after) :=
  inferInstanceAs (Decidable (∀ i < noise.length, ¬ marker <+: (noise ++ after).drop i))

/-- The marker begins neither inside the noise in front of the segments nor inside that of one. -/
def AllUnmarked (marker : Bytes) : Bytes → List Segment → Prop
  | noise, [] => Unmarked marker noise []
  | noise, s :: segments =>
    Unmarked marker noise (wireBytes (s :: segments)) ∧ AllUnmarked marker s.noise segments

instance decidableAllUnmarked (marker : Bytes) :
    (noise : Bytes) → (segments : List Segment) → Decidable (AllUnmarked marker noise segments)
  | noise, [] => inferInstanceAs (Decidable (Unmarked marker noise []))
  | noise, s :: segments =>
    have := decidableAllUnmarked marker s.noise segments
    inferInstanceAs (Decidable (Unmarked marker noise (wireBytes (s :: segments)) ∧
      AllUnmarked marker s.noise segments))

/-- Garbage messages whose bytes are the given ones in order, none of them without bytes. -/
structure GarbageOf (bytes : Bytes) (out : List Message) : Prop where
  garbage : ∀ m ∈ out, m = .invalid .garbage m.frameBytes
  nonempty : ∀ m ∈ out, m.frameBytes ≠ []
  bytes : replay out = bytes

/-- What is given out for noise and segments: garbage for the noise in front, then for each segment
its message and garbage for its noise. -/
inductive Resynchronized : Bytes → List Segment → List Message → Prop
  | noise {noise : Bytes} {out : List Message} : GarbageOf noise out → Resynchronized noise [] out
  | segment {noise : Bytes} {s : Segment} {segments : List Segment} {out later : List Message} :
    GarbageOf noise out → Resynchronized s.noise segments later →
    Resynchronized noise (s :: segments) (out ++ s.message :: later)

theorem AllUnmarked.front {marker noise : Bytes} {segments : List Segment}
    (h : AllUnmarked marker noise segments) : Unmarked marker noise (wireBytes segments) := by
  cases segments with
  | nil => exact h
  | cons s segments => exact h.1

theorem GarbageOf.append {b c : Bytes} {xs ys : List Message} (hx : GarbageOf b xs)
    (hy : GarbageOf c ys) : GarbageOf (b ++ c) (xs ++ ys) where
  garbage m hm := (List.mem_append.1 hm).elim (hx.garbage m) (hy.garbage m)
  nonempty m hm := (List.mem_append.1 hm).elim (hx.nonempty m) (hy.nonempty m)
  bytes := by rw [replay_append, hx.bytes, hy.bytes]

/-! ## Decisions about the front -/

section
variable {frame : Frame} {name : String} {field : IntField} {ls : List Layer}

/-- Where the marker does not begin the first byte is skipped at the end of the input. -/
theorem Reader.take_unmarked (hl : frame.layers = ⟨name, .sync field⟩ :: ls) {src : Bytes}
    (h : ∀ marker, (field.withValue field.default).write = .ok marker → ¬ marker <+: src) :
    Reader.take true (frame.readOne src) = .skip := by
  obtain ⟨e, he⟩ : ∃ e, readLayers frame.registry frame.sized frame.layers [] none src =
      .failed e := by
    rw [hl]
    simp only [readLayers, withInt]
    cases hr : (field.read src).error with
    | some e => exact ⟨e, rfl⟩
    | none =>
      obtain ⟨v, c, hv, hc, hw⟩ := IntField.read_ok hr
      have hne : v ≠ field.default := by
        rintro rfl
        exact h c hw ⟨_, hc.symm⟩
      rw [hv]
      exact ⟨_, if_neg hne⟩
  unfold Frame.readOne
  rw [he]
  cases e <;> rfl

/-- A frame that starts with a marker has bytes. -/
theorem Frame.readOne_pos (hl : frame.layers = ⟨name, .sync field⟩ :: ls) {src : Bytes}
    {m : Message} {n : Nat} (h : frame.readOne src = .message m n) : 0 < n := by
  obtain ⟨y, hy, -⟩ := Frame.readOne_inv h
  rw [hl] at hy
  obtain ⟨c, rest, k, ht, -, rfl⟩ := readLayers_sync_inv hy
  exact Nat.lt_of_lt_of_le ht.length_pos (Nat.le_add_right _ _)

end

namespace Reader

/-! ## What is given out at the end of the input -/

/-- The collected garbage as it is given out. -/
def collected (garbage : Bytes) : List Message := (flush garbage []).reverse

theorem flush_reverse (garbage : Bytes) (out : List Message) :
    (flush garbage out).reverse = out.reverse ++ collected garbage := by
  rw [← List.nil_append out, flush_append, List.reverse_append]
  rfl

theorem collected_garbageOf (garbage : Bytes) : GarbageOf garbage.reverse (collected garbage) := by
  cases garbage with
  | nil => exact ⟨nofun, nofun, rfl⟩
  | cons b bs =>
    refine ⟨fun m hm => ?_, fun m hm => ?_, replay_singleton _⟩
    · cases List.mem_singleton.1 hm
      rfl
    · cases List.mem_singleton.1 hm
      exact mt List.reverse_eq_nil_iff.1 (List.cons_ne_nil b bs)

/-- What a reader that holds these bytes gives out if no more come. -/
def remaining (frame : Frame) (config : ReaderConfig) (src garbage : Bytes) : List Message :=
  let r := drain frame config true src garbage []
  r.2.reverse ++ collected r.1.garbage

theorem feed_final (frame : Frame) (config : ReaderConfig) (r : Reader) (chunk : Bytes) :
    (feed frame config r chunk true).2 =
      remaining frame config (r.backlog ++ chunk) r.garbage :=
  flush_reverse _ _

section
variable {frame : Frame} {config : ReaderConfig} {src garbage : Bytes}

theorem remaining_eq : remaining frame config src garbage =
    (drain frame config true src garbage []).2.reverse ++
      collected (drain frame config true src garbage []).1.garbage := rfl

/-- Draining gives out first what was there before. -/
theorem drain_remaining (out : List Message) :
    (drain frame config true src garbage out).2.reverse ++
        collected (drain frame config true src garbage out).1.garbage =
      out.reverse ++ remaining frame config src garbage := by
  have h := drain_out frame config true src garbage [] out
  rw [List.nil_append] at h
  rw [h, List.reverse_append, List.append_assoc, remaining_eq]

theorem remaining_nil : remaining frame config [] garbage = collected garbage := by
  rw [remaining_eq, drain_nil]
  rfl

theorem remaining_message {m : Message} {n : Nat}
    (h : take true (frame.readOne src) = .message m n) :
    remaining frame config src garbage =
      collected garbage ++ m :: remaining frame config (src.drop n) [] := by
  rw [remaining_eq, drain_message h, drain_remaining, List.reverse_cons, List.append_assoc,
    flush_reverse]
  rfl

theorem remaining_skip {b : UInt8} (h : take true (frame.readOne (b :: src)) = .skip) :
    remaining frame config (b :: src) garbage =
      if max config.maxGarbage 1 ≤ garbage.length + 1 then
        collected (b :: garbage) ++ remaining frame config src []
      else remaining frame config src (b :: garbage) := by
  rw [remaining_eq, drain_skip h]
  split
  · rw [drain_remaining, flush_reverse]
    rfl
  · rfl

/-- Bytes that are skipped one after the other become garbage, given out or still collected. -/
theorem remaining_skips (config : ReaderConfig) (garbage : Bytes) {noise after : Bytes}
    (h : ∀ i < noise.length, take true (frame.readOne ((noise ++ after).drop i)) = .skip) :
    ∃ out held, remaining frame config (noise ++ after) garbage =
        out ++ remaining frame config after held ∧
      GarbageOf (garbage.reverse ++ noise) (out ++ collected held) := by
  induction noise generalizing garbage with
  | nil =>
    refine ⟨[], garbage, rfl, ?_⟩
    rw [List.append_nil]
    exact collected_garbageOf garbage
  | cons b noise ih =>
    have hskip : take true (frame.readOne (b :: (noise ++ after))) = .skip :=
      h 0 (Nat.succ_pos _)
    have htail : ∀ i < noise.length,
        take true (frame.readOne ((noise ++ after).drop i)) = .skip :=
      fun i hi => h (i + 1) (Nat.succ_lt_succ hi)
    rw [List.cons_append, remaining_skip hskip]
    split
    · obtain ⟨out, held, hr, hg⟩ := ih [] htail
      refine ⟨collected (b :: garbage) ++ out, held, ?_, ?_⟩
      · rw [hr, List.append_assoc]
      · simpa using (collected_garbageOf (b :: garbage)).append hg
    · obtain ⟨out, held, hr, hg⟩ := ih (b :: garbage) htail
      exact ⟨out, held, hr, by simpa using hg⟩

end

/-! ## Noise and frames -/

section
variable {frame : Frame} {name : String} {field : IntField} {ls : List Layer}

/-- Noise becomes garbage, and what comes after it is drained as if it came first. -/
theorem remaining_noise (hl : frame.layers = ⟨name, .sync field⟩ :: ls) (config : ReaderConfig)
    {noise after : Bytes} (h : ∀ marker, (field.withValue field.default).write = .ok marker →
      Unmarked marker noise after) :
    ∃ out held, remaining frame config (noise ++ after) [] =
        out ++ remaining frame config after held ∧ GarbageOf noise (out ++ collected held) :=
  remaining_skips config [] fun i hi => take_unmarked hl fun marker hm => h marker hm i hi

theorem remaining_segments (hsized : frame.sized = true)
    (hl : frame.layers = ⟨name, .sync field⟩ :: ls) (config : ReaderConfig) (noise : Bytes)
    (segments : List Segment)
    (hread : ∀ s ∈ segments, frame.readOne s.frame = .message s.message s.frame.length)
    (hnoise : ∀ marker, (field.withValue field.default).write = .ok marker →
      AllUnmarked marker noise segments) :
    Resynchronized noise segments (remaining frame config (noise ++ wireBytes segments) []) := by
  obtain ⟨out, held, hr, hg⟩ :=
    remaining_noise hl config fun marker hm => (hnoise marker hm).front
  rw [hr]
  induction segments generalizing noise out held with
  | nil =>
    rw [wireBytes, List.flatMap_nil, remaining_nil]
    exact .noise hg
  | cons s segments ih =>
    have hs := hread s (.head _)
    -- the frame is read as if nothing came after it
    have hm : take true (frame.readOne (s.frame ++ (s.noise ++ wireBytes segments))) =
        .message s.message s.frame.length := by
      rw [Frame.readOne_steady (.inl hsized) _ (by rw [hs]; exact nofun), hs]
      exact if_pos (Frame.readOne_pos hl hs)
    have hw : wireBytes (s :: segments) = s.frame ++ (s.noise ++ wireBytes segments) := by
      rw [wireBytes, List.flatMap_cons, List.append_assoc]
      rfl
    obtain ⟨later, held', hr', hg'⟩ :=
      remaining_noise hl config fun marker hm => (hnoise marker hm).2.front
    rw [hw, remaining_message hm, List.drop_left, ← List.append_assoc, hr']
    exact .segment hg (ih s.noise (fun s hs => hread s (.tail _ hs))
      (fun marker hm => (hnoise marker hm).2) later held' hr' hg')

end

/-- **Resynchronization**: between frames that start with a marker there may be any bytes in which
the marker does not begin, also parts of a marker, in front of a frame, and more than the limit of
garbage. If each frame is read on its own as a message, then exactly these messages are given out,
each with the bytes of its frame, and between them only garbage messages, which carry the bytes
between the frames. -/
theorem feed_resynchronizes {frame : Frame} {name : String} {field : IntField} {ls : List Layer}
    (hsized : frame.sized = true) (hl : frame.layers = ⟨name, .sync field⟩ :: ls)
    (config : ReaderConfig) (noise : Bytes) (segments : List Segment)
    (hread : ∀ s ∈ segments, frame.readOne s.frame = .message s.message s.frame.length)
    (hnoise : ∀ marker, (field.withValue field.default).write = .ok marker →
      AllUnmarked marker noise segments) :
    Resynchronized noise segments (feed frame config {} (noise ++ wireBytes segments) true).2 ∧
      ∀ s ∈ segments, s.message.frameBytes = s.frame := by
  refine ⟨?_, fun s hs => ?_⟩
  · rw [feed_final]
    exact remaining_segments hsized hl config noise segments hread hnoise
  · rw [(readOne_extent (.inl (hread s hs))).2, List.take_length]

/-- Two frames of a text, each behind parts of a marker, and parts of a marker at the end. -/
def noisySegments : List Segment :=
  [⟨[0xaa, 0x55, 3, 1, 104, 105, 213], { note [104, 105] with
      frameBytes := [0xaa, 0x55, 3, 1, 104, 105, 213] }, [0x55, 0xaa]⟩,
    ⟨[0xaa, 0x55, 1, 1, 2], { note [] with frameBytes := [0xaa, 0x55, 1, 1, 2] }, [7, 0xaa]⟩]

/-- Garbage messages are of one byte. -/
theorem cappedFrame_resynchronizes :
    Resynchronized [0, 0xaa] noisySegments
        (feed cappedFrame ⟨1⟩ {} [0, 0xaa, 0xaa, 0x55, 3, 1, 104, 105, 213, 0x55, 0xaa,
          0xaa, 0x55, 1, 1, 2, 7, 0xaa] true).2 ∧
      ∀ s ∈ noisySegments, s.message.frameBytes = s.frame := by
  refine feed_resynchronizes rfl rfl ⟨1⟩ [0, 0xaa] noisySegments (fun s hs => ?_)
    fun marker hm => ?_
  · rcases hs with _ | ⟨_, _ | ⟨_, ⟨⟩⟩⟩ <;> rfl
  · obtain rfl : [0xaa, 0x55] = marker := Except.ok.inj hm
    decide

end Reader

end WireProtocol
