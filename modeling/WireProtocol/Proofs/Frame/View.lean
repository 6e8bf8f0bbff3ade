import WireProtocol.Proofs.Field.Lookahead
import WireProtocol.Proofs.Field.Writing
import WireProtocol.Proofs.Frame.Extent
import WireProtocol.Proofs.Frame.WellFormed

/-!
# What a layer sees

`Layer.enter` reads what stands in front of the layers inside a layer and gives the `View` that
those have of the input. It depends only on the bytes that it reads: other bytes behind them are
seen in their place by the layers inside (`Layer.enter_sameOutside`, `enterLayers_sameOutside`). It
does not depend on the message types at all.
-/

set_option autoImplicit false

namespace WireProtocol

/-! ## Views -/

/-- The part of the input that a layer sees, and the transport values found in front of it. -/
structure View where
  /-- Where the bytes start in the input. -/
  start : Nat
  bytes : Bytes
  supplied : List Supplied

namespace View

/-- What the outermost layer sees. -/
def ofInput (src : Bytes) : View := ⟨0, src, []⟩

/-- What is seen behind a field that left `rest`. -/
def behind (v : View) (rest : Bytes) : View :=
  { v with start := v.start + taken v.bytes rest, bytes := rest }

/-- The first bytes alone. -/
def restrict (v : View) (len : Nat) : View := { v with bytes := v.bytes.take len }

/-- Reads the front and gives what is seen behind it. -/
def read {α : Type} (v : View) (reader : Bytes → Outcome α) : Except CodecError (α × View) :=
  match (reader v.bytes).error with
  | some e => .error e
  | none => .ok ((reader v.bytes).value, v.behind (reader v.bytes).rest)

theorem read_ok {α : Type} {v w : View} {reader : Bytes → Outcome α} {x : α}
    (h : v.read reader = .ok (x, w)) :
    ∃ rest, reader v.bytes = .done x rest ∧ w = v.behind rest := by
  unfold read at h
  split at h <;> cases h
  exact ⟨_, Outcome.eq_done ‹_›, rfl⟩

theorem read_of_done {α : Type} {v : View} {reader : Bytes → Outcome α} {x : α} {rest : Bytes}
    (h : reader v.bytes = .done x rest) : v.read reader = .ok (x, v.behind rest) := by
  unfold read
  rw [h]
  rfl

/-- The bytes of `w` are some of those of `v`, in their place. -/
def Inside (w v : View) : Prop :=
  ∃ a z, v.bytes = a ++ w.bytes ++ z ∧ w.start = v.start + a.length

theorem Inside.refl (v : View) : v.Inside v := ⟨[], [], by simp, rfl⟩

theorem Inside.trans {u v w : View} (h : u.Inside v) (hv : v.Inside w) : u.Inside w := by
  obtain ⟨a, z, hb, hs⟩ := h
  obtain ⟨a', z', hb', hs'⟩ := hv
  refine ⟨a' ++ a, z ++ z', by simp [hb', hb], ?_⟩
  rw [hs, hs', List.length_append, Nat.add_assoc]

theorem Inside.start_le {w v : View} (h : w.Inside v) : v.start ≤ w.start := by
  obtain ⟨a, z, -, hs⟩ := h
  omega

theorem Inside.end_le {w v : View} (h : w.Inside v) :
    w.start + w.bytes.length ≤ v.start + v.bytes.length := by
  obtain ⟨a, z, hb, hs⟩ := h
  rw [hb, List.length_append, List.length_append]
  omega

/-- A byte of a view is the byte of the input in its place. -/
theorem Inside.getElem? {w v : View} (h : w.Inside v) {i : Nat} (hi : i < w.bytes.length) :
    w.bytes[i]? = v.bytes[w.start - v.start + i]? := by
  obtain ⟨a, z, hb, hs⟩ := h
  rw [hb, hs, List.append_assoc, List.getElem?_append_right (by omega),
    List.getElem?_append_left (by omega)]
  congr 1
  omega

theorem behind_inside {v : View} {rest : Bytes} (h : rest <:+ v.bytes) :
    (v.behind rest).Inside v := by
  obtain ⟨c, hc⟩ := h
  refine ⟨c, [], by simp [behind, hc], ?_⟩
  rw [behind, taken, ← hc]
  simp

theorem restrict_inside (v : View) (len : Nat) : (v.restrict len).Inside v :=
  ⟨[], v.bytes.drop len, by simp [restrict], rfl⟩

/-- The views differ at most in the bytes from `s` up to `e`. -/
structure SameOutside (s e : Nat) (v w : View) : Prop where
  start : w.start = v.start
  supplied : w.supplied = v.supplied
  length : w.bytes.length = v.bytes.length
  bytes : ∀ i, v.start + i < s ∨ e ≤ v.start + i → w.bytes[i]? = v.bytes[i]?

namespace SameOutside

variable {s e : Nat} {v w : View}

theorem take (h : SameOutside s e v w) {k : Nat} (hk : v.start + k ≤ s) :
    w.bytes.take k = v.bytes.take k := by
  refine List.ext_getElem? fun i => ?_
  rw [List.getElem?_take, List.getElem?_take]
  split
  · exact h.bytes i (.inl (by omega))
  · rfl

theorem drop (h : SameOutside s e v w) {k : Nat} (hk : e ≤ v.start + k) :
    w.bytes.drop k = v.bytes.drop k := by
  refine List.ext_getElem? fun i => ?_
  rw [List.getElem?_drop, List.getElem?_drop]
  exact h.bytes _ (.inr (by omega))

/-- Views are the same if they end in front of the bytes that differ, or start behind them. -/
theorem eq (h : SameOutside s e v w) (hs : v.start + v.bytes.length ≤ s ∨ e ≤ v.start) :
    w = v := by
  have hb : w.bytes = v.bytes := by
    rcases hs with hs | hs
    · rw [← List.take_length (l := v.bytes), ← h.take hs, ← h.length, List.take_length]
    · exact h.drop (k := 0) hs
  obtain ⟨start, bytes, supplied⟩ := w
  obtain ⟨rfl, rfl, rfl⟩ : start = v.start ∧ supplied = v.supplied ∧ bytes = v.bytes :=
    ⟨h.start, h.supplied, hb⟩
  rfl

theorem restrict (h : SameOutside s e v w) (len : Nat) :
    SameOutside s e (v.restrict len) (w.restrict len) where
  start := h.start
  supplied := h.supplied
  length := by simp [View.restrict, h.length]
  bytes i hi := by
    show (w.bytes.take len)[i]? = (v.bytes.take len)[i]?
    rw [List.getElem?_take, List.getElem?_take, h.bytes i hi]

/-- **What is read in front of the bytes that differ** is the same. -/
theorem read {α : Type} {reader : Bytes → Outcome α} (hr : NoLookahead reader) {x : α} {u : View}
    (h : v.read reader = .ok (x, u)) (hs : u.start ≤ s) (hw : SameOutside s e v w) :
    ∃ u', w.read reader = .ok (x, u') ∧ SameOutside s e u u' := by
  obtain ⟨rest, hread, rfl⟩ := View.read_ok h
  obtain ⟨c, hc, hmoved⟩ := hr hread
  have hstart : (v.behind rest).start = v.start + c.length := by simp [behind, taken, hc]
  have hlength : c.length ≤ v.bytes.length := by simp [hc]
  have hsplit : w.bytes = c ++ w.bytes.drop c.length := by
    have hcut := List.take_append_drop c.length w.bytes
    rw [hw.take (by omega), hc, List.take_left] at hcut
    exact hcut.symm
  have hread' : reader w.bytes = .done x (w.bytes.drop c.length) := by
    rw [hsplit]
    simpa using hmoved (w.bytes.drop c.length)
  refine ⟨_, View.read_of_done hread', ?_, hw.supplied, ?_, fun i hi => ?_⟩
  · have := hw.length
    rw [hstart]
    simp only [behind, taken, List.length_drop, hw.start]
    omega
  · simp [behind, hw.length, hc]
  · rw [hstart] at hi
    show (w.bytes.drop c.length)[i]? = rest[i]?
    rw [List.getElem?_drop, hw.bytes _ (by omega), hc, List.getElem?_append_right (by omega)]
    congr 1
    omega

end SameOutside

end View

/-! ## Entering -/

/-- An id, if the layer is one, is read without looking ahead. -/
def Layer.ExactId (l : Layer) : Prop := ∀ field, l.kind = .id field → NoLookahead field.read

theorem Frame.exactId (f : Frame) : ∀ l ∈ f.layers, l.ExactId := by
  intro l hl field hk
  rcases f.id_kind hl hk with ⟨g, rfl⟩ | ⟨g, rfl⟩
  · exact g.read_noLookahead.map Field.int
  · exact g.read_noLookahead.map Field.enumeration

/-- The layers around another one are entered without looking ahead, and none is the payload. -/
theorem Frame.outer_layers {f : Frame} {outer inner : List Layer} {l : Layer}
    (hl : f.layers = outer ++ l :: inner) :
    (∀ l ∈ outer, l.ExactId) ∧ ∀ l ∈ outer, l.isPayload = false := by
  have hid := f.exactId
  have hlast := f.payload_last
  rw [hl] at hid hlast
  exact ⟨fun l' hm => hid l' (List.mem_append_left _ hm),
    fun l' hm => (List.pairwise_append.1 hlast).2.2 l' hm l (.head _)⟩

/-- Reads what stands in front of the layers inside a layer and gives what those see. -/
def Layer.enter (l : Layer) (v : View) : Except CodecError View :=
  match l.kind with
  | .sync field => do
    let (f, w) ← v.read field.read
    if f.value = field.default then .ok w else .error (.notAFrame (.syncMismatch f.value))
  | .size field max => do
    let (f, w) ← v.read field.read
    let len := f.value.toInt.toNat
    if f.value < 0 then .error (.notAFrame (.negativeSize f.value))
    else if max.any (· < len) then .error (.notAFrame (.sizeAboveMaximum len (max.getD 0)))
    else if w.bytes.length < len then .error (.notEnoughData (len - w.bytes.length))
    else .ok (w.restrict len)
  | .id field => do return (← v.read field.read).2
  | .transport field version => do
    let (f, w) ← v.read field.read
    return { w with supplied := Supplied.put ⟨l.name, f, version⟩ w.supplied }
  | .checksum field _ .before => do return (← v.read field.read).2
  | .checksum _ _ .after | .payload => .ok v

section
variable {l : Layer} {v w : View}

theorem View.read_inside {α : Type} {reader : Bytes → Outcome α} (hr : LeavesSuffix reader) {x : α}
    (h : v.read reader = .ok (x, w)) : w.Inside v := by
  obtain ⟨rest, hread, rfl⟩ := View.read_ok h
  have hs := hr v.bytes
  rw [hread] at hs
  exact View.behind_inside hs

/-- The layers inside see a part of what a layer sees. -/
theorem Layer.enter_inside (h : l.enter v = .ok w) : w.Inside v := by
  obtain ⟨name, kind⟩ := l
  cases kind with
  | sync field =>
    obtain ⟨⟨f, u⟩, hu, h⟩ := bind_eq_ok.1 h
    dsimp only at h
    split at h <;> cases h
    exact View.read_inside field.read_suffix hu
  | size field max =>
    obtain ⟨⟨f, u⟩, hu, h⟩ := bind_eq_ok.1 h
    dsimp only at h
    split at h
    · cases h
    split at h
    · cases h
    split at h <;> cases h
    exact (u.restrict_inside _).trans (View.read_inside field.read_suffix hu)
  | id field =>
    obtain ⟨⟨f, u⟩, hu, h⟩ := bind_eq_ok.1 h
    cases h
    exact View.read_inside field.read_suffix hu
  | transport field version =>
    obtain ⟨⟨f, u⟩, hu, h⟩ := bind_eq_ok.1 h
    cases h
    have hin : u.Inside v := View.read_inside field.read_suffix hu
    exact hin
  | payload =>
    cases h
    exact .refl v
  | checksum field algorithm placement =>
    cases placement with
    | after =>
      cases h
      exact .refl v
    | before =>
      obtain ⟨⟨f, u⟩, hu, h⟩ := bind_eq_ok.1 h
      cases h
      exact View.read_inside field.read_suffix hu

variable {s e : Nat} {v' : View}

/-- **Bytes behind those that a layer reads in front** do not decide whether it is entered, and are
seen by the layers inside in their place. -/
theorem Layer.enter_sameOutside (hid : l.ExactId) (h : l.enter v = .ok w) (hs : w.start ≤ s)
    (hv : v.SameOutside s e v') : ∃ w', l.enter v' = .ok w' ∧ w.SameOutside s e w' := by
  obtain ⟨name, kind⟩ := l
  cases kind with
  | sync field =>
    obtain ⟨⟨f, u⟩, hu, h⟩ := bind_eq_ok.1 h
    dsimp only at h
    split at h <;> cases h
    obtain ⟨u', hu', hsame⟩ := hv.read field.read_noLookahead hu hs
    exact ⟨u', bind_eq_ok.2 ⟨_, hu', if_pos ‹_›⟩, hsame⟩
  | size field max =>
    obtain ⟨⟨f, u⟩, hu, h⟩ := bind_eq_ok.1 h
    dsimp only at h
    split at h
    · cases h
    rename_i hneg
    split at h
    · cases h
    rename_i hmax
    split at h <;> cases h
    rename_i hl
    obtain ⟨u', hu', hsame⟩ := hv.read field.read_noLookahead hu hs
    refine ⟨_, bind_eq_ok.2 ⟨_, hu', ?_⟩, hsame.restrict _⟩
    dsimp only
    rw [if_neg hneg, if_neg hmax, if_neg (by rwa [hsame.length])]
  | id field =>
    obtain ⟨⟨f, u⟩, hu, h⟩ := bind_eq_ok.1 h
    cases h
    obtain ⟨u', hu', hsame⟩ := hv.read (hid field rfl) hu hs
    exact ⟨u', bind_eq_ok.2 ⟨_, hu', rfl⟩, hsame⟩
  | transport field version =>
    obtain ⟨⟨f, u⟩, hu, h⟩ := bind_eq_ok.1 h
    cases h
    obtain ⟨u', hu', hsame⟩ := hv.read field.read_noLookahead hu hs
    refine ⟨_, bind_eq_ok.2 ⟨_, hu', rfl⟩, hsame.start, ?_, hsame.length, hsame.bytes⟩
    exact congrArg (Supplied.put ⟨name, f, version⟩) hsame.supplied
  | payload =>
    cases h
    exact ⟨v', rfl, hv⟩
  | checksum field algorithm placement =>
    cases placement with
    | after =>
      cases h
      exact ⟨v', rfl, hv⟩
    | before =>
      obtain ⟨⟨f, u⟩, hu, h⟩ := bind_eq_ok.1 h
      cases h
      obtain ⟨u', hu', hsame⟩ := hv.read field.read_noLookahead hu hs
      exact ⟨u', bind_eq_ok.2 ⟨_, hu', rfl⟩, hsame⟩

end

/-- Enters layers, outermost first. -/
def enterLayers (ls : List Layer) (v : View) : Except CodecError View :=
  ls.foldlM (fun v l => l.enter v) v

section
variable {l : Layer} {ls ls' : List Layer} {v w : View}

theorem enterLayers_cons : enterLayers (l :: ls) v = l.enter v >>= enterLayers ls :=
  List.foldlM_cons ..

theorem enterLayers_append :
    enterLayers (ls ++ ls') v = enterLayers ls v >>= enterLayers ls' :=
  List.foldlM_append ..

theorem enterLayers_cons_ok :
    enterLayers (l :: ls) v = .ok w ↔ ∃ u, l.enter v = .ok u ∧ enterLayers ls u = .ok w := by
  rw [enterLayers_cons, bind_eq_ok]

theorem enterLayers_append_ok :
    enterLayers (ls ++ ls') v = .ok w ↔
      ∃ u, enterLayers ls v = .ok u ∧ enterLayers ls' u = .ok w := by
  rw [enterLayers_append, bind_eq_ok]

theorem enterLayers_inside (h : enterLayers ls v = .ok w) : w.Inside v := by
  induction ls generalizing v with
  | nil =>
    cases h
    exact .refl _
  | cons l ls ih =>
    obtain ⟨u, hu, hw⟩ := enterLayers_cons_ok.1 h
    exact (ih hw).trans (Layer.enter_inside hu)

theorem enterLayers_sameOutside {s e : Nat} {v' : View} (hid : ∀ l ∈ ls, l.ExactId)
    (h : enterLayers ls v = .ok w) (hs : w.start ≤ s) (hv : v.SameOutside s e v') :
    ∃ w', enterLayers ls v' = .ok w' ∧ w.SameOutside s e w' := by
  induction ls generalizing v v' with
  | nil =>
    cases h
    exact ⟨v', rfl, hv⟩
  | cons l ls ih =>
    obtain ⟨u, hu, hw⟩ := enterLayers_cons_ok.1 h
    have hle := (enterLayers_inside hw).start_le
    obtain ⟨u', hu', hsame⟩ := Layer.enter_sameOutside (hid l (.head _)) hu (by omega) hv
    obtain ⟨w', hw', hsame'⟩ := ih (fun l hl => hid l (.tail _ hl)) hw hsame
    exact ⟨w', enterLayers_cons_ok.2 ⟨u', hu', hw'⟩, hsame'⟩

end

end WireProtocol
