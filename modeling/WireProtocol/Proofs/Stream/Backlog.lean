import WireProtocol.Proofs.Frame.Bounded
import WireProtocol.Proofs.Frame.Waiting
import WireProtocol.Proofs.Stream.Run

/-!
# The backlog is bounded

Between calls a reader holds garbage below its limit, and a backlog only if its frame is short of
input there (`Reader.AtRest`). Draining leaves a reader so, hence every call does. If the outermost
size of the frame has a greatest allowed value, this bounds what is pending after any calls
(`run_pending_lt`).
-/

set_option autoImplicit false

namespace WireProtocol.Reader

/-- A reader that holds what it must hold until more input comes. -/
structure AtRest (frame : Frame) (config : ReaderConfig) (r : Reader) : Prop where
  garbage : r.garbage.length < max config.maxGarbage 1
  backlog : r.backlog = [] ∨ ∃ missing, frame.readOne r.backlog = .notEnoughData missing

theorem lt_maxGarbage (config : ReaderConfig) : 0 < max config.maxGarbage 1 :=
  Nat.lt_of_lt_of_le Nat.one_pos (Nat.le_max_right _ _)

theorem atRest_start (frame : Frame) (config : ReaderConfig) : AtRest frame config {} :=
  ⟨lt_maxGarbage config, .inl rfl⟩

/-- Draining takes all that can be taken, and gives garbage out at the limit. -/
theorem drain_atRest (frame : Frame) (config : ReaderConfig) (isFinal : Bool) {src garbage : Bytes}
    (out : List Message) (hg : garbage.length < max config.maxGarbage 1) :
    AtRest frame config (drain frame config isFinal src garbage out).1 := by
  induction src using drain_induction frame isFinal generalizing garbage out with
  | nil =>
    rw [drain_nil]
    exact ⟨hg, .inl rfl⟩
  | message src m n h ih =>
    rw [drain_message h]
    exact ih _ (lt_maxGarbage config)
  | wait src h =>
    rw [drain_wait h]
    exact ⟨hg, .inr (take_wait h)⟩
  | skip b src h ih =>
    rw [drain_skip h]
    split
    · exact ih _ (lt_maxGarbage config)
    · rename_i hlimit
      exact ih _ (Nat.lt_of_not_le hlimit)

/-- A call leaves the reader at rest. -/
theorem feed_atRest {frame : Frame} {config : ReaderConfig} {r : Reader}
    (h : AtRest frame config r) (chunk : Bytes) (isFinal : Bool) :
    AtRest frame config (feed frame config r chunk isFinal).1 := by
  have hd : AtRest frame config
      (drain frame config isFinal (r.backlog ++ chunk) r.garbage []).1 :=
    drain_atRest frame config isFinal [] h.garbage
  unfold feed
  cases isFinal with
  | false => exact hd
  | true => exact ⟨lt_maxGarbage config, hd.backlog⟩

theorem run_atRest {frame : Frame} {config : ReaderConfig} {r : Reader}
    (h : AtRest frame config r) (calls : List (Bytes × Bool)) :
    AtRest frame config (run frame config r calls).1 := by
  induction calls generalizing r with
  | nil => exact h
  | cons call calls ih => exact ih (feed_atRest h call.1 call.2)

/-- **The backlog is bounded**: if the outermost size of a frame has a greatest allowed value, then
after any calls less is pending than the greatest lengths of the layers down to that size, that
value and the limit of garbage together. -/
theorem run_pending_lt (frame : Frame) (outer inner : List Layer) {name : String}
    {field : IntField} {cap : Nat}
    (hl : frame.layers = outer ++ ⟨name, .size field (some cap)⟩ :: inner)
    (hsize : ∀ l ∈ outer, l.isSize = false) (config : ReaderConfig)
    (calls : List (Bytes × Bool)) :
    (run frame config {} calls).1.pending <
      layersMaxLength outer + field.maxLength + cap + max config.maxGarbage 1 := by
  obtain ⟨hg, hb⟩ := run_atRest (atRest_start frame config) calls
  unfold pending
  rcases hb with hb | ⟨missing, hb⟩
  · rw [hb, List.length_nil]
    omega
  · have := Frame.readOne_short_lt hl hsize hb
    omega

/-- A marker of two bytes and a checksum around contents of at most four bytes. -/
def cappedFrame : Frame where
  name := "Capped"
  layers := [⟨"sync", .sync (.withDefault (.ofFormat ⟨.ofBytes 2, false, .big⟩) 0xaa55)⟩,
    ⟨"sum", .checksum (octet 0) .sum .after⟩, ⟨"size", .size (octet 0) (some 4)⟩,
    ⟨"id", .id (.int (octet 0))⟩, ⟨"payload", .payload⟩]
  registry := { prototypes := [note []] }
  wellFormed := rfl

/-- Only the checksum is missing. -/
theorem cappedFrame_pending_lt :
    (run cappedFrame ⟨2⟩ {} [([0xaa, 0x55, 4, 1, 104, 105, 106], false)]).1.pending = 7 ∧
      (run cappedFrame ⟨2⟩ {} [([0xaa, 0x55, 4, 1, 104, 105, 106], false)]).1.pending <
        2 + 1 + 1 + 4 + max 2 1 := by
  have hw : take false (cappedFrame.readOne [0xaa, 0x55, 4, 1, 104, 105, 106]) = .wait := rfl
  refine ⟨?_, run_pending_lt cappedFrame
    [⟨"sync", .sync (.withDefault (.ofFormat ⟨.ofBytes 2, false, .big⟩) 0xaa55)⟩,
      ⟨"sum", .checksum (octet 0) .sum .after⟩] _ rfl (by decide) ⟨2⟩ _⟩
  rw [run_singleton]
  simp [feed, drain_wait hw, pending]

end WireProtocol.Reader
