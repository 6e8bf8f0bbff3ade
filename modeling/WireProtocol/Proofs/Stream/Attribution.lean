import WireProtocol.Proofs.Stream.Run

/-!
# Every byte is attributed

Whatever the frame, the configuration and the calls, the bytes of the messages given out, then the
collected garbage, then the backlog are the input (`run_attribution`). `Reader.Accounts` is the
invariant. Draining keeps it because a message carries exactly the bytes that it takes from the
backlog (`take_readOne`), at least one, and every other byte passes through the garbage.
-/

set_option autoImplicit false

namespace WireProtocol.Reader

/-- A reader and the messages given out so far account for the input. -/
structure Accounts (r : Reader) (out : List Message) (input : Bytes) : Prop where
  bytes : replay out ++ r.garbage.reverse ++ r.backlog = input
  nonempty : ∀ m ∈ out, m.frameBytes ≠ []

theorem accounts_start : Accounts {} [] [] := ⟨rfl, nofun⟩

namespace Accounts

variable {backlog garbage : Bytes} {out : List Message} {input : Bytes}

/-- Flushing gives the garbage out as a message, if there is any. -/
theorem flush (h : Accounts ⟨backlog, garbage⟩ out.reverse input) :
    Accounts ⟨backlog, []⟩ (flush garbage out).reverse input := by
  obtain ⟨hb, hn⟩ := h
  unfold Reader.flush
  cases garbage with
  | nil => exact ⟨by simpa using hb, hn⟩
  | cons g gs =>
    refine ⟨by simpa [Message.invalid] using hb, fun m hm => ?_⟩
    simp only [List.isEmpty_cons, Bool.false_eq_true, if_false, List.reverse_cons,
      List.mem_append, List.mem_singleton] at hm
    rcases hm with hm | rfl
    · exact hn m hm
    · simp [Message.invalid]

/-- A message takes its bytes from the front of the backlog. -/
theorem message {m : Message} {n : Nat} (h : Accounts ⟨backlog, []⟩ out.reverse input)
    (hn : 0 < n) (hl : n ≤ backlog.length) (hm : m.frameBytes = backlog.take n) :
    Accounts ⟨backlog.drop n, []⟩ (m :: out).reverse input := by
  obtain ⟨hb, hne⟩ := h
  refine ⟨?_, fun m' hm' => ?_⟩
  · calc replay (m :: out).reverse ++ [] ++ backlog.drop n
        = replay out.reverse ++ [] ++ (backlog.take n ++ backlog.drop n) := by simp [hm]
      _ = input := by rw [List.take_append_drop]; exact hb
  · rw [List.reverse_cons, List.mem_append, List.mem_singleton] at hm'
    rcases hm' with hm' | rfl
    · exact hne m' hm'
    · intro h0
      have : (backlog.take n).length = 0 := by rw [← hm, h0]; rfl
      rw [List.length_take] at this
      omega

/-- A byte that is skipped goes from the backlog to the garbage. -/
theorem skip {b : UInt8} (h : Accounts ⟨b :: backlog, garbage⟩ out input) :
    Accounts ⟨backlog, b :: garbage⟩ out input := by
  obtain ⟨hb, hn⟩ := h
  exact ⟨by simpa using hb, hn⟩

/-- New input goes to the end of the backlog. -/
theorem receive (chunk : Bytes) (h : Accounts ⟨backlog, garbage⟩ out input) :
    Accounts ⟨backlog ++ chunk, garbage⟩ out (input ++ chunk) := by
  obtain ⟨hb, hn⟩ := h
  exact ⟨by rw [← hb]; simp only [List.append_assoc], hn⟩

end Accounts

/-- Draining the backlog keeps the account. -/
theorem drain_accounts (frame : Frame) (config : ReaderConfig) (isFinal : Bool)
    {src garbage : Bytes} (out : List Message) {input : Bytes}
    (h : Accounts ⟨src, garbage⟩ out.reverse input) :
    Accounts (drain frame config isFinal src garbage out).1
      (drain frame config isFinal src garbage out).2.reverse input := by
  induction src using drain_induction frame isFinal
    generalizing garbage out with
  | nil =>
    rw [drain_nil]
    exact h
  | message src m n hm ih =>
    obtain ⟨hn, hl, hb⟩ := take_readOne hm
    rw [drain_message hm]
    exact ih _ (h.flush.message hn hl hb)
  | wait src hw =>
    rw [drain_wait hw]
    exact h
  | skip b src hs ih =>
    rw [drain_skip hs]
    split
    · exact ih _ h.skip.flush
    · exact ih _ h.skip

/-- Draining at the end of the input leaves no backlog. -/
theorem drain_final_backlog (frame : Frame) (config : ReaderConfig) (src garbage : Bytes)
    (out : List Message) : (drain frame config true src garbage out).1.backlog = [] := by
  induction src using drain_induction frame true
    generalizing garbage out with
  | nil => rw [drain_nil]
  | message src m n hm ih =>
    rw [drain_message hm]
    exact ih _ _
  | wait src hw => exact absurd hw (take_final_ne_wait _)
  | skip b src hs ih =>
    rw [drain_skip hs]
    split <;> exact ih _ _

theorem feed_final_pending (frame : Frame) (config : ReaderConfig) (r : Reader) (chunk : Bytes) :
    (feed frame config r chunk true).1.pending = 0 := by
  simp [feed, pending, drain_final_backlog]

/-- One call keeps the account. -/
theorem feed_accounts (frame : Frame) (config : ReaderConfig) {r : Reader} {out : List Message}
    {input : Bytes} (chunk : Bytes) (isFinal : Bool) (h : Accounts r out input) :
    Accounts (feed frame config r chunk isFinal).1 (out ++ (feed frame config r chunk isFinal).2)
      (input ++ chunk) := by
  -- as if the messages given out before were still there to be reversed with those of this call
  have hd := drain_accounts frame config isFinal ([] ++ out.reverse)
    (by rw [List.nil_append, List.reverse_reverse]; exact h.receive chunk)
  rw [drain_out] at hd
  unfold feed
  cases isFinal with
  | false =>
    rw [List.reverse_append, List.reverse_reverse] at hd
    exact hd
  | true =>
    have hf := hd.flush
    rw [flush_append, List.reverse_append, List.reverse_reverse] at hf
    exact hf

theorem run_accounts (frame : Frame) (config : ReaderConfig) (calls : List (Bytes × Bool))
    {r : Reader} {out : List Message} {input : Bytes} (h : Accounts r out input) :
    Accounts (run frame config r calls).1 (out ++ (run frame config r calls).2)
      (input ++ calls.flatMap (·.1)) := by
  induction calls generalizing r out input with
  | nil => simpa [run] using h
  | cons call calls ih =>
    have hc := ih (feed_accounts frame config call.1 call.2 h)
    rw [List.append_assoc, List.append_assoc] at hc
    exact hc

theorem run_final_pending (frame : Frame) (config : ReaderConfig) (r : Reader)
    (calls : List (Bytes × Bool)) (chunk : Bytes) :
    (run frame config r (calls ++ [(chunk, true)])).1.pending = 0 := by
  rw [run_append, run_singleton]
  exact feed_final_pending _ _ _ _

/-- After a last call the messages given out replay the input. -/
theorem run_final_replay (frame : Frame) (config : ReaderConfig) (calls : List (Bytes × Bool))
    (chunk : Bytes) :
    replay (run frame config {} (calls ++ [(chunk, true)])).2 =
      (calls ++ [(chunk, true)]).flatMap (·.1) := by
  have hb := (run_accounts frame config (calls ++ [(chunk, true)]) accounts_start).bytes
  obtain ⟨hbl, hg⟩ := Nat.add_eq_zero_iff.1 (run_final_pending frame config {} calls chunk)
  rw [List.length_eq_zero_iff] at hbl hg
  rw [hbl, hg] at hb
  simpa using hb

/-- **Byte attribution**: after any calls the bytes of the messages given out, the collected
garbage and the backlog are the input in order, and no message is without bytes. After a call that
was marked as the last one nothing is pending, so the messages alone replay the input. -/
theorem run_attribution (frame : Frame) (config : ReaderConfig) (calls : List (Bytes × Bool)) :
    let r := run frame config {} calls
    replay r.2 ++ r.1.garbage.reverse ++ r.1.backlog = calls.flatMap (·.1) ∧
      (∀ m ∈ r.2, m.frameBytes ≠ []) ∧
      ∀ before chunk, calls = before ++ [(chunk, true)] →
        r.1.pending = 0 ∧ replay r.2 = calls.flatMap (·.1) := by
  obtain ⟨hb, hn⟩ := run_accounts frame config calls accounts_start
  rw [List.nil_append] at hb hn
  refine ⟨hb, hn, ?_⟩
  rintro before chunk rfl
  exact ⟨run_final_pending frame config {} before chunk, run_final_replay frame config before chunk⟩

end WireProtocol.Reader
