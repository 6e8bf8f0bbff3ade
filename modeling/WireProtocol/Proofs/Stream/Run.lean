import WireProtocol.Proofs.Frame.Extent
import WireProtocol.Stream

/-!
# Runs of a reader

`Reader.run` feeds a reader a list of chunks and collects what it gives out. The equations of
`drain` (`drain_message`, `drain_wait`, `drain_skip`) say what each decision about the front of the
backlog does, and `drain_out` that messages given out before play no part in what follows.
-/

set_option autoImplicit false

namespace WireProtocol

/-- The bytes that a list of messages stands for. -/
def replay (out : List Message) : Bytes := out.flatMap (·.frameBytes)

@[simp] theorem replay_nil : replay [] = [] := rfl

@[simp] theorem replay_append (xs ys : List Message) :
    replay (xs ++ ys) = replay xs ++ replay ys := List.flatMap_append

@[simp] theorem replay_singleton (m : Message) : replay [m] = m.frameBytes := by
  simp [replay]

namespace Reader

/-- Feeds chunks in order, each with the mark of the last one, and collects the messages. -/
def run (frame : Frame) (config : ReaderConfig) (r : Reader) :
    List (Bytes × Bool) → Reader × List Message
  | [] => (r, [])
  | (chunk, isFinal) :: calls =>
    let now := feed frame config r chunk isFinal
    let later := run frame config now.1 calls
    (later.1, now.2 ++ later.2)

theorem run_append (frame : Frame) (config : ReaderConfig) (r : Reader)
    (first last : List (Bytes × Bool)) :
    run frame config r (first ++ last) =
      ((run frame config (run frame config r first).1 last).1,
        (run frame config r first).2 ++
          (run frame config (run frame config r first).1 last).2) := by
  induction first generalizing r with
  | nil => rfl
  | cons call first ih => simp only [List.cons_append, run, ih, List.append_assoc]

theorem run_singleton (frame : Frame) (config : ReaderConfig) (r : Reader) (chunk : Bytes)
    (isFinal : Bool) :
    run frame config r [(chunk, isFinal)] = feed frame config r chunk isFinal := by
  simp [run]

/-! ## Decisions -/

theorem take_message {isFinal : Bool} {read : FrameRead} {m : Message} {n : Nat}
    (h : take isFinal read = .message m n) :
    0 < n ∧ (read = .message m n ∨ read = .checksumFailure m n) := by
  cases read with
  | message m' n' =>
    simp only [take] at h
    split at h
    · cases h
      exact ⟨by assumption, .inl rfl⟩
    · cases h
  | checksumFailure m' n' =>
    simp only [take] at h
    split at h
    · cases h
      exact ⟨by assumption, .inr rfl⟩
    · cases h
  | notEnoughData missing => cases isFinal <;> cases h
  | garbage cause => cases h

/-- The reader waits only for the rest of a frame. -/
theorem take_wait {isFinal : Bool} {read : FrameRead} (h : take isFinal read = .wait) :
    ∃ missing, read = .notEnoughData missing := by
  cases read with
  | notEnoughData missing => exact ⟨missing, rfl⟩
  | message m n | checksumFailure m n =>
    simp only [take] at h
    split at h <;> cases h
  | garbage cause => cases h

theorem take_final_ne_wait (read : FrameRead) : take true read ≠ .wait := by
  cases read with
  | message m n | checksumFailure m n =>
    simp only [take]
    split <;> exact nofun
  | notEnoughData missing => exact nofun
  | garbage cause => exact nofun

/-- A message taken from the front of the backlog carries the bytes that it takes. -/
theorem take_readOne {frame : Frame} {isFinal : Bool} {src : Bytes} {m : Message} {n : Nat}
    (h : take isFinal (frame.readOne src) = .message m n) :
    0 < n ∧ n ≤ src.length ∧ m.frameBytes = src.take n := by
  obtain ⟨hn, hr⟩ := take_message h
  exact ⟨hn, readOne_extent hr⟩

/-! ## Draining the backlog -/

section
variable {frame : Frame} {config : ReaderConfig} {isFinal : Bool} {src garbage : Bytes}
  {out : List Message}

theorem drain_nil : drain frame config isFinal [] garbage out = (⟨[], garbage⟩, out) := by
  rw [drain]

theorem drain_message {m : Message} {n : Nat}
    (h : take isFinal (frame.readOne src) = .message m n) :
    drain frame config isFinal src garbage out =
      drain frame config isFinal (src.drop n) [] (m :: flush garbage out) := by
  obtain ⟨hn, hl, -⟩ := take_readOne h
  cases src with
  | nil => exact absurd hl (by simp; omega)
  | cons b bs =>
    obtain ⟨n, rfl⟩ : ∃ k, n = k + 1 := ⟨n - 1, by omega⟩
    rw [drain]
    simp only [h, Nat.add_sub_cancel, List.drop_succ_cons]

theorem drain_wait (h : take isFinal (frame.readOne src) = .wait) :
    drain frame config isFinal src garbage out = (⟨src, garbage⟩, out) := by
  cases src with
  | nil => exact drain_nil
  | cons b bs =>
    rw [drain]
    simp only [h]

theorem drain_skip {b : UInt8} (h : take isFinal (frame.readOne (b :: src)) = .skip) :
    drain frame config isFinal (b :: src) garbage out =
      if max config.maxGarbage 1 ≤ garbage.length + 1 then
        drain frame config isFinal src [] (flush (b :: garbage) out)
      else drain frame config isFinal src (b :: garbage) out := by
  rw [drain]
  simp only [h]

end

/-- **Induction along the draining of a backlog**: a case for each decision about its front. -/
theorem drain_induction (frame : Frame) (isFinal : Bool) {motive : Bytes → Prop}
    (nil : motive [])
    (message : ∀ src m n, take isFinal (frame.readOne src) = .message m n → motive (src.drop n) →
      motive src)
    (wait : ∀ src, take isFinal (frame.readOne src) = .wait → motive src)
    (skip : ∀ b src, take isFinal (frame.readOne (b :: src)) = .skip → motive src →
      motive (b :: src)) (src : Bytes) : motive src := by
  induction hn : src.length using Nat.strongRecOn generalizing src with
  | ind n ih =>
  subst hn
  cases src with
  | nil => exact nil
  | cons b src =>
    cases h : take isFinal (frame.readOne (b :: src)) with
    | message m n =>
      obtain ⟨hn, hl, -⟩ := take_readOne h
      exact message _ m n h (ih _ (by simp only [List.length_drop]; omega) _ rfl)
    | wait => exact wait _ h
    | skip => exact skip b src h (ih _ (Nat.lt_succ_self _) _ rfl)

theorem flush_append (garbage : Bytes) (out before : List Message) :
    flush garbage (out ++ before) = flush garbage out ++ before := by
  unfold flush
  split <;> rfl

/-- Messages given out before do not matter for what follows. -/
theorem drain_out (frame : Frame) (config : ReaderConfig) (isFinal : Bool) (src garbage : Bytes)
    (out before : List Message) :
    drain frame config isFinal src garbage (out ++ before) =
      ((drain frame config isFinal src garbage out).1,
        (drain frame config isFinal src garbage out).2 ++ before) := by
  induction src using drain_induction frame isFinal
    generalizing garbage out with
  | nil => simp only [drain_nil]
  | message src m n h ih =>
    rw [drain_message h, drain_message h, flush_append, ← List.cons_append, ih]
  | wait src h => rw [drain_wait h, drain_wait h]
  | skip b src h ih =>
    rw [drain_skip h, drain_skip h]
    split
    · rw [flush_append, ih]
    · rw [ih]

end Reader

end WireProtocol
