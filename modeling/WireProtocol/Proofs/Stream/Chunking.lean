import WireProtocol.Proofs.Frame.Extension
import WireProtocol.Proofs.Stream.Run

/-!
# Chunks do not matter

A frame is decisive if no decision about the beginning of the input is revised when the rest of it
comes. Then a reader gives out the same messages however the input is cut
(`run_chunks_of_decisive`): draining what has come and then the rest is draining all of it
(`drain_append`). Every frame with a size layer is decisive (`run_chunks`). Without one the chunks
do not matter exactly if the frame is decisive, and it is if the variants of its messages are
settled (`run_chunks_unsized`).
-/

set_option autoImplicit false

namespace WireProtocol

/-- No decision about the beginning of the input is revised when the rest of it comes. -/
def Frame.Decisive (f : Frame) : Prop :=
  ∀ src more, src ≠ [] → Reader.take false (f.readOne src) ≠ .wait →
    Reader.take true (f.readOne (src ++ more)) = Reader.take false (f.readOne src)

theorem Frame.decisive_of_steady {f : Frame} (h : f.sized = true ∨ f.registry.SelfDelimiting) :
    f.Decisive := by
  intro src more _ hw
  have hs : ∀ n, f.readOne src ≠ .notEnoughData n := by
    intro n hn
    rw [hn] at hw
    exact hw rfl
  rw [f.readOne_steady h more hs]
  -- the end of the input makes a difference only for the start of a frame
  cases hr : f.readOne src with
  | notEnoughData n => exact absurd hr (hs n)
  | message m n | garbage cause | checksumFailure m n => rfl

namespace Reader

section
variable {frame : Frame}

/-- Draining what has come and then the rest is draining all of it. -/
theorem drain_append (h : frame.Decisive) (config : ReaderConfig) (src more garbage : Bytes)
    (out : List Message) :
    drain frame config true (src ++ more) garbage out =
      let r := drain frame config false src garbage out
      drain frame config true (r.1.backlog ++ more) r.1.garbage r.2 := by
  induction src using drain_induction frame false
    generalizing garbage out with
  | nil => rw [drain_nil]
  | message src m n hm ih =>
    obtain ⟨hn, hl, -⟩ := take_readOne hm
    have hne : src ≠ [] := by
      rintro rfl
      exact absurd hl (by simp; omega)
    have hf := h src more hne (by rw [hm]; exact nofun)
    rw [drain_message hm, drain_message (hf.trans hm), List.drop_append_of_le_length hl]
    exact ih _ _
  | wait src hw => rw [drain_wait hw]
  | skip b src hs ih =>
    have hf := h (b :: src) more (List.cons_ne_nil _ _) (by rw [hs]; exact nofun)
    rw [List.cons_append] at hf ⊢
    rw [drain_skip hs, drain_skip (hf.trans hs)]
    split <;> exact ih _ _

/-- The first part of the last chunk might as well come in a call of its own. -/
theorem feed_append (h : frame.Decisive) (config : ReaderConfig) (r : Reader)
    (chunk more : Bytes) :
    (feed frame config r (chunk ++ more) true).2 =
      (feed frame config r chunk false).2 ++
        (feed frame config (feed frame config r chunk false).1 more true).2 := by
  have hd := drain_append h config (r.backlog ++ chunk) more r.garbage []
  dsimp only at hd
  rw [List.append_assoc, ← List.nil_append (drain frame config false _ _ _).2, drain_out] at hd
  simp only [feed, hd, Bool.false_eq_true, if_false, if_true, flush_append, List.reverse_append]

/-- **A decisive frame gives the same messages for every cutting of the input into chunks.** -/
theorem run_chunks_of_decisive (h : frame.Decisive) (config : ReaderConfig) (r : Reader)
    (chunks : List Bytes) (last : Bytes) :
    (run frame config r (chunks.map (·, false) ++ [(last, true)])).2 =
      (feed frame config r (chunks.flatten ++ last) true).2 := by
  induction chunks generalizing r with
  | nil => exact congrArg (·.2) (run_singleton frame config r last true)
  | cons chunk chunks ih =>
    rw [List.map_cons, List.cons_append, run, List.flatten_cons, List.append_assoc,
      feed_append h, ← ih]

/-! ## The condition is needed -/

/-- A message given out by the first step of draining is the first of the call. -/
theorem feed_first {config : ReaderConfig} {isFinal : Bool} {src src' : Bytes} {m : Message}
    (h : drain frame config isFinal src [] [] = drain frame config isFinal src' [] [m]) :
    ∃ later, (feed frame config {} src isFinal).2 = m :: later := by
  rw [← List.nil_append [m], drain_out] at h
  unfold feed
  rw [List.nil_append, h]
  cases isFinal with
  | false =>
    simp only [Bool.false_eq_true, if_false, List.reverse_append]
    exact ⟨_, rfl⟩
  | true =>
    simp only [if_true, flush_append, List.reverse_append]
    exact ⟨_, rfl⟩

theorem feed_message (config : ReaderConfig) {isFinal : Bool} {src : Bytes} {m : Message} {n : Nat}
    (h : take isFinal (frame.readOne src) = .message m n) :
    ∃ later, (feed frame config {} src isFinal).2 = m :: later :=
  feed_first (drain_message h)

/-- With garbage messages of one byte a byte that is skipped is given out at once. -/
theorem feed_skip {isFinal : Bool} {b : UInt8} {src : Bytes}
    (h : take isFinal (frame.readOne (b :: src)) = .skip) :
    ∃ later, (feed frame ⟨1⟩ {} (b :: src) isFinal).2 = .invalid .garbage [b] :: later :=
  feed_first (drain_skip h)

theorem take_ne_garbage (hsz : frame.sized = false) {isFinal : Bool} {src : Bytes} {m : Message}
    {n : Nat} (h : take isFinal (frame.readOne src) = .message m n) (bs : Bytes) :
    m ≠ .invalid .garbage bs :=
  readOne_ne_garbage hsz (take_message h).2 bs

theorem take_consumed {isFinal : Bool} {src : Bytes} {m : Message} {n : Nat}
    (h : take isFinal (frame.readOne src) = .message m n) : n = m.frameBytes.length := by
  obtain ⟨-, hl, hb⟩ := take_readOne h
  rw [hb, List.length_take, Nat.min_eq_left hl]

/-- A frame without a size layer for which chunks do not matter is decisive: a decision about the
beginning shows in the first message. -/
theorem decisive_of_run_chunks (hsz : frame.sized = false)
    (h : ∀ config (chunks : List Bytes) last,
      (run frame config {} (chunks.map (·, false) ++ [(last, true)])).2 =
        (feed frame config {} (chunks.flatten ++ last) true).2) : frame.Decisive := by
  intro src more hne hw
  obtain ⟨b, bs, rfl⟩ := List.exists_cons_of_ne_nil hne
  have hrun : (feed frame ⟨1⟩ {} (b :: bs) false).2 ++
      (feed frame ⟨1⟩ (feed frame ⟨1⟩ {} (b :: bs) false).1 more true).2 =
        (feed frame ⟨1⟩ {} (b :: bs ++ more) true).2 := by
    have hc := h ⟨1⟩ [b :: bs] more
    rw [List.map_singleton, run_append, run_singleton, run_singleton, List.flatten_singleton] at hc
    exact hc
  cases hd : take false (frame.readOne (b :: bs)) with
  | wait => exact absurd hd hw
  | message m n =>
    obtain ⟨later, hl⟩ := feed_message ⟨1⟩ hd
    rw [hl] at hrun
    cases hd' : take true (frame.readOne (b :: bs ++ more)) with
    | wait => exact absurd hd' (take_final_ne_wait _)
    | message m' n' =>
      obtain ⟨later', hl'⟩ := feed_message ⟨1⟩ hd'
      rw [hl', List.cons_append] at hrun
      obtain ⟨rfl, -⟩ := List.cons.inj hrun
      rw [take_consumed hd, take_consumed hd']
    | skip =>
      rw [List.cons_append] at hd' hrun
      obtain ⟨later', hl'⟩ := feed_skip hd'
      rw [List.cons_append, hl'] at hrun
      exact absurd (List.cons.inj hrun).1 (take_ne_garbage hsz hd _)
  | skip =>
    obtain ⟨later, hl⟩ := feed_skip hd
    rw [hl] at hrun
    cases hd' : take true (frame.readOne (b :: bs ++ more)) with
    | wait => exact absurd hd' (take_final_ne_wait _)
    | message m' n' =>
      obtain ⟨later', hl'⟩ := feed_message ⟨1⟩ hd'
      rw [hl', List.cons_append] at hrun
      exact absurd (List.cons.inj hrun).1.symm (take_ne_garbage hsz hd' _)
    | skip => rfl

end

/-! ## Every cutting -/

/-- **Chunks do not matter for a frame with a size layer.** -/
theorem run_chunks (frame : Frame) (h : frame.sized = true) (config : ReaderConfig)
    (chunks : List Bytes) (last : Bytes) :
    (run frame config {} (chunks.map (·, false) ++ [(last, true)])).2 =
      (feed frame config {} (chunks.flatten ++ last) true).2 :=
  run_chunks_of_decisive (Frame.decisive_of_steady (.inl h)) config {} chunks last

/-- An unsigned integer with its default. -/
def tagOf (width : IntWidth) (tag : Int64) : IntField :=
  (IntField.ofFormat ⟨width, false, .big⟩).withDefault tag

/-- An alternative that is nothing but its tag. -/
def bareChoice (name : String) (width : IntWidth) (tag : Int64) : Choice Field :=
  ⟨name, tag, .plain [⟨"tag", .int (tagOf width tag)⟩]⟩

/-- One message type with a variant field: a tag of a given width or one of a byte. -/
def tagRegistry (width : IntWidth) : Registry where
  prototypes := [{ id := 1, name := "Choice", fields := [⟨"v", .variant
    ⟨[bareChoice "Wide" width 261, bareChoice "Narrow" (.ofBytes 1) 1], 0⟩⟩] }]

/-- The message behind an id in a byte. -/
def tagFrame (width : IntWidth) : Frame where
  name := "Tagged"
  layers := [⟨"id", .id (.int (tagOf (.ofBytes 1) 0))⟩, ⟨"payload", .payload⟩]
  registry := tagRegistry width
  wellFormed := rfl

/-- The message behind an id and a size. -/
def sizedTagFrame : Frame where
  name := "Sized"
  layers := [⟨"id", .id (.int (tagOf (.ofBytes 1) 0))⟩,
    ⟨"size", .size (tagOf (.ofBytes 1) 0) none⟩, ⟨"payload", .payload⟩]
  registry := tagRegistry (.ofBytes 2)
  wellFormed := rfl

/-- The message, in three chunks and at once, with a byte behind it that is no frame. -/
theorem run_chunks_sizedTagFrame : sizedTagFrame.sized = true ∧
    (run sizedTagFrame {} {} ([[1], [1]].map (·, false) ++ [([1, 9], true)])).2 =
      (feed sizedTagFrame {} {} ([[1], [1]].flatten ++ [1, 9]) true).2 ∧
    (feed sizedTagFrame {} {} [1, 1, 1, 9] true).2.map (fun m => (m.name, m.frameBytes)) =
      [("Choice", [1, 1, 1]), ("Garbage", [9])] :=
  ⟨rfl, run_chunks sizedTagFrame rfl {} [[1], [1]] [1, 9], by decide +kernel⟩

/-- **Without a size layer chunks do not matter exactly if the frame is decisive.** It is if the
variants of its messages that stand outside every region of declared length are settled; nothing
else can depend on input that has not come yet. -/
theorem run_chunks_unsized (frame : Frame) (h : frame.sized = false) :
    ((∀ config (chunks : List Bytes) last,
      (run frame config {} (chunks.map (·, false) ++ [(last, true)])).2 =
        (feed frame config {} (chunks.flatten ++ last) true).2) ↔ frame.Decisive) ∧
      ((∀ m ∈ frame.registry.prototypes, m.TagsSettled) → frame.Decisive) := by
  refine ⟨⟨decisive_of_run_chunks h, fun hd config chunks last => ?_⟩, fun ht => ?_⟩
  · exact run_chunks_of_decisive hd config {} chunks last
  · exact Frame.decisive_of_steady (.inr fun m hm => ⟨frame.messages_bounded h m hm, ht m hm⟩)

theorem tagRegistry_settled : ∀ m ∈ (tagRegistry (.ofBytes 1)).prototypes, m.TagsSettled := by
  intro m hm x hx
  cases List.mem_singleton.1 hm
  cases List.mem_singleton.1 hx
  refine Field.tagsSettled_of_exposed (fun v hv => ?_) fun c hc => ?_
  · cases hv
    refine Variant.settled_of_width (.ofBytes 1) fun c hc => ?_
    rcases hc with _ | ⟨_, _ | ⟨_, ⟨⟩⟩⟩ <;> rfl
  · rcases hc with _ | ⟨_, _ | ⟨_, ⟨⟩⟩⟩ <;> exact Field.tagsSettled_int _

/-- With two tags of a byte each the chunks do not matter. -/
theorem run_chunks_unsized_tagFrame : (tagFrame (.ofBytes 1)).sized = false ∧
    ∀ config (chunks : List Bytes) last,
      (run (tagFrame (.ofBytes 1)) config {} (chunks.map (·, false) ++ [(last, true)])).2 =
        (feed (tagFrame (.ofBytes 1)) config {} (chunks.flatten ++ last) true).2 :=
  ⟨rfl, (run_chunks_unsized _ rfl).1.2 ((run_chunks_unsized _ rfl).2 tagRegistry_settled)⟩

/-- With a tag of two bytes before one of a byte they do: the first two bytes of the input are a
message as long as the third has not come. -/
theorem run_chunks_ne_tagFrame :
    (run (tagFrame (.ofBytes 2)) {} {} [([1, 1], false), ([5], true)]).2 ≠
      (feed (tagFrame (.ofBytes 2)) {} {} [1, 1, 5] true).2 := by
  obtain ⟨m, hm⟩ : ∃ m, take false ((tagFrame (.ofBytes 2)).readOne [1, 1]) = .message m 2 :=
    ⟨_, rfl⟩
  obtain ⟨m', hm'⟩ : ∃ m, take true ((tagFrame (.ofBytes 2)).readOne [1, 1, 5]) = .message m 3 :=
    ⟨_, rfl⟩
  obtain ⟨later, hl⟩ := feed_message {} hm
  obtain ⟨later', hl'⟩ := feed_message {} hm'
  rw [run, hl, hl', List.cons_append]
  intro h
  have hc : 2 = 3 := by rw [take_consumed hm, take_consumed hm', (List.cons.inj h).1]
  exact absurd hc (by decide)

end Reader

end WireProtocol
