import WireProtocol.Proofs.Frame.Messages
import WireProtocol.Proofs.Stream.Attribution
import WireProtocol.Proofs.Stream.Backlog

/-!
# Garbage is cut into maximal pieces

What a reader gives out are pieces of the input: garbage for bytes that it skipped, and messages
that it decoded. Garbage is never longer than its limit, and garbage that more garbage follows is as
long as that. A message is decoded only after all bytes in front of it have been given out
(`run_garbage`). `Reader.Sliced` is the invariant: as long as more input may come, the last piece is
no garbage that is short of the limit.
-/

set_option autoImplicit false

namespace WireProtocol

/-! ## Pieces -/

/-- A message that a reader gives out, by what it stands for. -/
inductive Piece where
  /-- Bytes that were skipped. -/
  | garbage (bs : Bytes)
  /-- A frame that was decoded, with a right or a wrong checksum. -/
  | decoded (m : Message)

/-- The message that is given out. -/
def Piece.message : Piece → Message
  | .garbage bs => .invalid .garbage bs
  | .decoded m => m

/-- The bytes of the input after those that the pieces stand for are a frame of that message. -/
def DecodedAfter (frame : Frame) (input : Bytes) (pieces : List Piece) (m : Message) : Prop :=
  ∃ src n, replay (pieces.map Piece.message) ++ src <+: input ∧
    (frame.readOne src = .message m n ∨ frame.readOne src = .checksumFailure m n)

/-- What a reader gives out for an input: garbage within the limit, which is used up where other
garbage follows, and messages that leave nothing behind. -/
structure Pieces (frame : Frame) (limit : Nat) (input : Bytes) (pieces : List Piece) : Prop where
  size : ∀ bs, Piece.garbage bs ∈ pieces → 1 ≤ bs.length ∧ bs.length ≤ limit
  full : ∀ i bs bs', pieces[i]? = some (.garbage bs) → pieces[i + 1]? = some (.garbage bs') →
    bs.length = limit
  order : ∀ i m, pieces[i]? = some (.decoded m) → DecodedAfter frame input (pieces.take i) m

/-- The last piece is no garbage that is short of the limit. -/
def Closed (limit : Nat) (pieces : List Piece) : Prop :=
  ∀ bs, pieces.getLast? = some (.garbage bs) → bs.length = limit

theorem pieces_nil (frame : Frame) (limit : Nat) (input : Bytes) :
    Pieces frame limit input [] :=
  ⟨fun _ h => absurd h List.not_mem_nil, fun _ _ _ h _ => absurd h (by simp), fun _ _ h =>
    absurd h (by simp)⟩

theorem closed_nil (limit : Nat) : Closed limit [] := by
  intro bs h
  cases h

/-- What stands at an index of a list with one more element at its end. -/
theorem getElem?_concat_some {α : Type} {xs : List α} {x y : α} {i : Nat}
    (h : (xs ++ [x])[i]? = some y) : xs[i]? = some y ∨ i = xs.length ∧ x = y := by
  by_cases hlt : i < xs.length
  · rw [List.getElem?_append_left hlt] at h
    exact .inl h
  · obtain ⟨hi, -⟩ := List.getElem?_eq_some_iff.1 h
    have heq : i = xs.length := by
      rw [List.length_append, List.length_singleton] at hi
      omega
    subst heq
    rw [List.getElem?_concat_length] at h
    exact .inr ⟨rfl, Option.some.inj h⟩

section
variable {frame : Frame} {limit : Nat} {input : Bytes} {pieces : List Piece}

theorem DecodedAfter.receive {m : Message} (h : DecodedAfter frame input pieces m)
    (chunk : Bytes) : DecodedAfter frame (input ++ chunk) pieces m := by
  obtain ⟨src, n, hp, hr⟩ := h
  exact ⟨src, n, hp.trans (List.prefix_append input chunk), hr⟩

namespace Pieces

/-- Pieces stay what they are when more input comes. -/
theorem receive (h : Pieces frame limit input pieces) (chunk : Bytes) :
    Pieces frame limit (input ++ chunk) pieces :=
  ⟨h.size, h.full, fun i m hi => (h.order i m hi).receive chunk⟩

/-- One more piece. -/
theorem concat (h : Pieces frame limit input pieces) {p : Piece}
    (hsize : ∀ bs, p = .garbage bs → 1 ≤ bs.length ∧ bs.length ≤ limit)
    (hfull : ∀ bs, p = .garbage bs → Closed limit pieces)
    (horder : ∀ m, p = .decoded m → DecodedAfter frame input pieces m) :
    Pieces frame limit input (pieces ++ [p]) where
  size bs hbs := by
    rcases List.mem_append.1 hbs with hbs | hbs
    · exact h.size bs hbs
    · exact hsize bs (List.mem_singleton.1 hbs).symm
  full i bs bs' hi hi' := by
    rcases getElem?_concat_some hi' with hi' | ⟨hl, hp⟩
    · have hlt := (List.getElem?_eq_some_iff.1 hi').1
      rw [List.getElem?_append_left (by omega)] at hi
      exact h.full i bs bs' hi hi'
    · rw [List.getElem?_append_left (by omega)] at hi
      refine hfull bs' hp bs ?_
      rwa [List.getLast?_eq_getElem?, ← hl, Nat.add_sub_cancel]
  order i m hi := by
    rcases getElem?_concat_some hi with hi | ⟨rfl, hp⟩
    · have hlt := (List.getElem?_eq_some_iff.1 hi).1
      rw [List.take_append_of_le_length (Nat.le_of_lt hlt)]
      exact h.order i m hi
    · rw [List.take_left]
      exact horder m hp

theorem garbage (h : Pieces frame limit input pieces) (hc : Closed limit pieces) {bs : Bytes}
    (hpos : 1 ≤ bs.length) (hle : bs.length ≤ limit) :
    Pieces frame limit input (pieces ++ [.garbage bs]) := by
  refine h.concat ?_ (fun _ _ => hc) (fun m hm => by cases hm)
  rintro _ ⟨⟩
  exact ⟨hpos, hle⟩

theorem decoded (h : Pieces frame limit input pieces) {m : Message}
    (hm : DecodedAfter frame input pieces m) :
    Pieces frame limit input (pieces ++ [.decoded m]) := by
  refine h.concat (fun bs hbs => by cases hbs) (fun bs hbs => by cases hbs) ?_
  rintro _ ⟨⟩
  exact hm

end Pieces

theorem closed_concat_decoded (pieces : List Piece) (m : Message) :
    Closed limit (pieces ++ [.decoded m]) := by
  intro bs h
  rw [List.getLast?_concat] at h
  cases h

theorem closed_concat_garbage (pieces : List Piece) {bs : Bytes} (h : bs.length = limit) :
    Closed limit (pieces ++ [.garbage bs]) := by
  intro bs' h'
  rw [List.getLast?_concat] at h'
  cases h'
  exact h

end

namespace Reader

/-! ## Slicing the input -/

/-- The collected garbage as a piece, if there is any. -/
def held (garbage : Bytes) : List Piece :=
  if garbage.isEmpty then [] else [.garbage garbage.reverse]

theorem flush_held (garbage : Bytes) (out : List Message) :
    (flush garbage out).reverse = out.reverse ++ (held garbage).map Piece.message := by
  unfold flush held
  split
  · exact (List.append_nil _).symm
  · exact List.reverse_cons

/-- A reader has cut its input so far into pieces, and what it holds may still become garbage. -/
structure Sliced (frame : Frame) (config : ReaderConfig) (r : Reader) (pieces : List Piece)
    (input : Bytes) : Prop where
  cut : Pieces frame (max config.maxGarbage 1) input pieces
  accounts : Accounts r (pieces.map Piece.message) input
  collected : r.garbage.length < max config.maxGarbage 1
  closed : Closed (max config.maxGarbage 1) pieces

section
variable {frame : Frame} {config : ReaderConfig} {src garbage input : Bytes}
  {pieces : List Piece}

theorem sliced_start (frame : Frame) (config : ReaderConfig) : Sliced frame config {} [] [] :=
  ⟨pieces_nil _ _ _, accounts_start, lt_maxGarbage config, closed_nil _⟩

theorem accounts_held (h : Accounts ⟨src, garbage⟩ (pieces.map Piece.message) input) :
    Accounts ⟨src, []⟩ ((pieces ++ held garbage).map Piece.message) input := by
  rw [← List.reverse_reverse (pieces.map Piece.message)] at h
  have hf := h.flush
  rwa [flush_held, List.reverse_reverse, ← List.map_append] at hf

namespace Sliced

/-- The collected garbage is given out. -/
theorem flush (h : Sliced frame config ⟨src, garbage⟩ pieces input) :
    Pieces frame (max config.maxGarbage 1) input (pieces ++ held garbage) := by
  unfold held
  cases garbage with
  | nil =>
    rw [List.isEmpty_nil, if_pos rfl, List.append_nil]
    exact h.cut
  | cons b garbage =>
    rw [List.isEmpty_cons, if_neg Bool.false_ne_true]
    have hl : (b :: garbage).reverse.length = garbage.length + 1 := List.length_reverse
    exact h.cut.garbage h.closed (by omega) (hl ▸ Nat.le_of_lt h.collected)

/-- A message is decoded from the front of the backlog, behind the garbage. -/
theorem message (h : Sliced frame config ⟨src, garbage⟩ pieces input) {isFinal : Bool}
    {m : Message} {n : Nat} (hm : take isFinal (frame.readOne src) = .message m n) :
    Sliced frame config ⟨src.drop n, []⟩ (pieces ++ held garbage ++ [.decoded m]) input := by
  have ha := accounts_held h.accounts
  have hsrc : replay ((pieces ++ held garbage).map Piece.message) ++ src = input := by
    simpa using ha.bytes
  have hp := h.flush.decoded ⟨src, n, hsrc ▸ List.prefix_rfl, (take_message hm).2⟩
  refine ⟨hp, ?_, lt_maxGarbage config, closed_concat_decoded _ m⟩
  obtain ⟨hn, hl, hb⟩ := take_readOne hm
  rw [← List.reverse_reverse (List.map _ _)] at ha
  have hnext := ha.message hn hl hb
  rw [List.reverse_cons, List.reverse_reverse] at hnext
  rw [List.map_append]
  exact hnext

/-- Garbage that has come up to the limit is given out. -/
theorem fill {b : UInt8} (h : Sliced frame config ⟨b :: src, garbage⟩ pieces input)
    (hfull : max config.maxGarbage 1 ≤ garbage.length + 1) :
    Sliced frame config ⟨src, []⟩ (pieces ++ held (b :: garbage)) input := by
  have hl : (b :: garbage).reverse.length = max config.maxGarbage 1 := by
    have hlt : garbage.length < max config.maxGarbage 1 := h.collected
    rw [List.length_reverse, List.length_cons]
    omega
  have hpos := lt_maxGarbage config
  refine ⟨?_, accounts_held h.accounts.skip, hpos, closed_concat_garbage _ hl⟩
  exact h.cut.garbage h.closed (by omega) (Nat.le_of_eq hl)

/-- A byte is skipped and collected. -/
theorem skip {b : UInt8} (h : Sliced frame config ⟨b :: src, garbage⟩ pieces input)
    (hlt : garbage.length + 1 < max config.maxGarbage 1) :
    Sliced frame config ⟨src, b :: garbage⟩ pieces input :=
  ⟨h.cut, h.accounts.skip, hlt, h.closed⟩

theorem receive (h : Sliced frame config ⟨src, garbage⟩ pieces input) (chunk : Bytes) :
    Sliced frame config ⟨src ++ chunk, garbage⟩ pieces (input ++ chunk) :=
  ⟨h.cut.receive chunk, h.accounts.receive chunk, h.collected, h.closed⟩

end Sliced

/-- Draining cuts further pieces off. -/
theorem drain_sliced (isFinal : Bool) (out : List Message)
    (h : Sliced frame config ⟨src, garbage⟩ pieces input) :
    ∃ new, (drain frame config isFinal src garbage out).2.reverse =
        out.reverse ++ new.map Piece.message ∧
      Sliced frame config (drain frame config isFinal src garbage out).1 (pieces ++ new)
        input := by
  induction src using drain_induction frame isFinal generalizing garbage out pieces with
  | nil =>
    rw [drain_nil]
    exact ⟨[], (List.append_nil _).symm, by rwa [List.append_nil]⟩
  | message src m n hm ih =>
    rw [drain_message hm]
    obtain ⟨new, hout, hnew⟩ := ih (m :: Reader.flush garbage out) (h.message hm)
    refine ⟨held garbage ++ .decoded m :: new, ?_, by simpa using hnew⟩
    rw [hout, List.reverse_cons, flush_held]
    simp [Piece.message]
  | wait src hw =>
    rw [drain_wait hw]
    exact ⟨[], (List.append_nil _).symm, by rwa [List.append_nil]⟩
  | skip b src hs ih =>
    rw [drain_skip hs]
    split
    · rename_i hfull
      obtain ⟨new, hout, hnew⟩ := ih (Reader.flush (b :: garbage) out) (h.fill hfull)
      refine ⟨held (b :: garbage) ++ new, ?_, by rwa [← List.append_assoc]⟩
      rw [hout, flush_held, List.map_append, List.append_assoc]
    · rename_i hlimit
      exact ih out (h.skip (Nat.lt_of_not_le hlimit))

end

/-! ## Calls -/

section
variable {frame : Frame} {config : ReaderConfig} {r : Reader} {input : Bytes}
  {pieces : List Piece}

/-- A call with more input to come keeps the invariant. -/
theorem feed_sliced (h : Sliced frame config r pieces input) (chunk : Bytes) :
    ∃ new, (feed frame config r chunk false).2 = new.map Piece.message ∧
      Sliced frame config (feed frame config r chunk false).1 (pieces ++ new)
        (input ++ chunk) :=
  drain_sliced false [] (h.receive chunk)

/-- So does the last call, but for garbage at the end that is short of the limit. -/
theorem feed_final_sliced (h : Sliced frame config r pieces input) (chunk : Bytes) :
    ∃ new, (feed frame config r chunk true).2 = new.map Piece.message ∧
      Pieces frame (max config.maxGarbage 1) (input ++ chunk) (pieces ++ new) := by
  obtain ⟨new, hout, hnew⟩ := drain_sliced true [] (h.receive chunk)
  refine ⟨new ++ held _, ?_, by rw [← List.append_assoc]; exact hnew.flush⟩
  show (Reader.flush _ _).reverse = _
  rw [flush_held, hout, List.map_append]
  rfl

theorem run_sliced (h : Sliced frame config r pieces input) (chunks : List Bytes) :
    ∃ new, (run frame config r (chunks.map (·, false))).2 = new.map Piece.message ∧
      Sliced frame config (run frame config r (chunks.map (·, false))).1 (pieces ++ new)
        (input ++ chunks.flatten) := by
  induction chunks generalizing r pieces input with
  | nil => exact ⟨[], rfl, by simpa [run] using h⟩
  | cons chunk chunks ih =>
    obtain ⟨first, hfirst, hs⟩ := feed_sliced h chunk
    obtain ⟨new, hnew, hs⟩ := ih hs
    refine ⟨first ++ new, ?_, ?_⟩
    · rw [List.map_cons, run, hfirst, hnew, List.map_append]
    · rw [← List.append_assoc, List.flatten_cons, ← List.append_assoc]
      exact hs

end

/-! ## Classes -/

/-- If no message type is of the class of garbage, nothing that is decoded is. -/
theorem readOne_kind {frame : Frame}
    (h : ∀ p ∈ frame.registry.prototypes, p.kind ≠ .invalid .garbage) {src : Bytes} {m : Message}
    {n : Nat} (hr : frame.readOne src = .message m n ∨ frame.readOne src = .checksumFailure m n) :
    m.kind ≠ .invalid .garbage := by
  have hc : (readLayers frame.registry frame.sized frame.layers [] none src).Carries
      fun m => m.kind ≠ .invalid .garbage := by
    refine readLayers_carries (fun m s hm => ?_) (fun m src hm => hm) h (fun _ id => ?_)
      _ _ (fun m hm => by cases hm) _
    · rw [Supplied.giveTo_eq]
      exact hm
    · intro hk
      cases hk
  unfold Frame.readOne at hr
  rcases hr with hr | hr
  · split at hr <;> cases hr
    rename_i heq
    rw [heq] at hc
    have hkind := hc _ rfl
    exact hkind
  · split at hr <;> cases hr
    intro hk
    cases hk

/-- **Garbage is cut into maximal pieces.** The messages that a reader gives out in any calls of
which only the last one may be final are pieces, in order, of what is in front of the input, and of
all of it if the last call is final. Each piece of garbage has at least a byte and at most as many as the limit says, where a limit of zero
stands for one; it has exactly that many if the next piece, in the same call or a later one, is
garbage as well. Each other message is decoded from bytes of the input in front of which everything
has been given out, so that no garbage stays behind. Pieces of garbage are the messages of that
class, unless a message type is of it. -/
theorem run_garbage (frame : Frame) (config : ReaderConfig) (chunks : List Bytes) (last : Bytes)
    (isFinal : Bool) :
    ∃ pieces : List Piece,
      (run frame config {} (chunks.map (·, false) ++ [(last, isFinal)])).2 =
        pieces.map Piece.message ∧
      replay (pieces.map Piece.message) <+: chunks.flatten ++ last ∧
      (isFinal = true → replay (pieces.map Piece.message) = chunks.flatten ++ last) ∧
      (∀ bs, Piece.garbage bs ∈ pieces → 1 ≤ bs.length ∧ bs.length ≤ max 1 config.maxGarbage) ∧
      (∀ i bs bs', pieces[i]? = some (.garbage bs) → pieces[i + 1]? = some (.garbage bs') →
        bs.length = max 1 config.maxGarbage) ∧
      (∀ i m, pieces[i]? = some (.decoded m) → ∃ src n,
        replay ((pieces.take i).map Piece.message) ++ src <+: chunks.flatten ++ last ∧
        (frame.readOne src = .message m n ∨ frame.readOne src = .checksumFailure m n)) ∧
      ((∀ p ∈ frame.registry.prototypes, p.kind ≠ .invalid .garbage) →
        ∀ p ∈ pieces, p.message.kind = .invalid .garbage ↔ ∃ bs, p = .garbage bs) := by
  obtain ⟨new, hout, hs⟩ := run_sliced (sliced_start frame config) chunks
  obtain ⟨more, hmore, hp⟩ : ∃ more,
      (feed frame config (run frame config {} (chunks.map (·, false))).1 last isFinal).2 =
        more.map Piece.message ∧
      Pieces frame (max config.maxGarbage 1) ([] ++ chunks.flatten ++ last)
        ([] ++ new ++ more) := by
    cases isFinal with
    | true => exact feed_final_sliced hs last
    | false =>
      obtain ⟨more, hmore, hs⟩ := feed_sliced hs last
      exact ⟨more, hmore, hs.cut⟩
  rw [List.nil_append, List.nil_append] at hp
  have hout : (run frame config {} (chunks.map (·, false) ++ [(last, isFinal)])).2 =
      (new ++ more).map Piece.message := by
    rw [run_append, run_singleton, hout, hmore, List.map_append]
  have hcalls : (chunks.map (·, false) ++ [(last, isFinal)]).flatMap (·.1) =
      chunks.flatten ++ last := by
    simp [List.flatMap_map, List.flatMap_id']
  refine ⟨new ++ more, hout, ?_, ?_, ?_, fun i bs bs' hi hi' => ?_, hp.order, fun hk p hmem => ?_⟩
  · have hb := (run_accounts frame config (chunks.map (·, false) ++ [(last, isFinal)])
      accounts_start).bytes
    rw [List.nil_append, List.nil_append, hout, List.append_assoc] at hb
    exact hcalls ▸ ⟨_, hb⟩
  · rintro rfl
    rw [← hout, ← hcalls]
    exact run_final_replay frame config _ last
  · rw [Nat.max_comm]
    exact hp.size
  · rw [Nat.max_comm]
    exact hp.full i bs bs' hi hi'
  · cases p with
    | garbage bs => exact ⟨fun _ => ⟨bs, rfl⟩, fun _ => rfl⟩
    | decoded m =>
      obtain ⟨i, hi⟩ := List.getElem?_of_mem hmem
      obtain ⟨src, n, -, hr⟩ := hp.order i m hi
      exact ⟨fun hg => absurd hg (readOne_kind hk hr), fun ⟨bs, hbs⟩ => by cases hbs⟩

/-- Three bytes of garbage under a limit of two, a frame that comes in two calls, and a byte behind
it. -/
theorem run_garbage_cappedFrame : ∃ pieces : List Piece,
    (run cappedFrame ⟨2⟩ {} ([[0, 0, 0, 0xaa]].map (·, false) ++
      [([0x55, 4, 1, 104, 105, 106, 64, 9], true)])).2 = pieces.map Piece.message ∧
    pieces.map (fun p => (p.message.kind, p.message.frameBytes)) =
      [(.invalid .garbage, [0, 0]), (.invalid .garbage, [0]),
        (.regular, [0xaa, 0x55, 4, 1, 104, 105, 106, 64]), (.invalid .garbage, [9])] := by
  obtain ⟨pieces, hout, -⟩ :=
    run_garbage cappedFrame ⟨2⟩ [[0, 0, 0, 0xaa]] [0x55, 4, 1, 104, 105, 106, 64, 9] true
  have hmap : pieces.map (fun p => (p.message.kind, p.message.frameBytes)) =
      (pieces.map Piece.message).map fun m => (m.kind, m.frameBytes) := by
    rw [List.map_map]
    rfl
  refine ⟨pieces, hout, ?_⟩
  rw [hmap, ← hout]
  decide +kernel

end Reader

end WireProtocol
