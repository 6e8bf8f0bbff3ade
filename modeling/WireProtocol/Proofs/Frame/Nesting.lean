import WireProtocol.Proofs.Frame.Reading
import WireProtocol.Proofs.Frame.View

/-!
# Layers around layers

To read a layer is to enter it, to read the layers inside and to leave it (`readLayers_cons`):
`Layer.leave` turns the result of the layers inside into that of the layer, for which it reads a
checksum behind them. So what stands around some layers carries a view in and a result out. What is
consumed around a region of declared size does not depend on the bytes in it
(`readLayers_extent_eq`).
-/

set_option autoImplicit false

namespace WireProtocol

/-! ## One layer -/

/-- The result for what stands behind `n` bytes, as seen from in front of them. -/
def LayerRead.shift (n : Nat) : LayerRead → LayerRead
  | .done m consumed => .done m (n + consumed)
  | .mismatch computed received m extent => .mismatch computed received m (n + extent)
  | .failed e => .failed e

/-- The result of a layer that sees `v`, if that of the layers inside, which see `w`, is `r`. -/
def Layer.leave (l : Layer) (v w : View) (r : LayerRead) : LayerRead :=
  match l.kind with
  | .size _ _ => (r.inRegion w.bytes.length).shift (w.start - v.start)
  | .checksum field algorithm placement =>
    match r with
    | .done m n =>
      let computed := algorithm.compute (w.bytes.take n) &&& checksumMask field
      match placement with
      | .before =>
        .compare computed ((field.read v.bytes).value.value.toUInt64 &&& checksumMask field) m
          (w.start - v.start + n)
      | .after =>
        withInt field (v.bytes.drop n) fun f rest =>
          .compare computed (f.value.toUInt64 &&& checksumMask field) m
            (n + taken (v.bytes.drop n) rest)
    | r => r.shift (w.start - v.start)
  | _ => r.shift (w.start - v.start)

/-- The message types that are tried for an id. -/
def Registry.typesFor (registry : Registry) (sized : Bool) (id : UInt64) : List Message :=
  match registry.ofId id with
  | [] => if sized then [.rawData id] else []
  | types => types

theorem Registry.typesFor_eq {registry : Registry} {id : UInt64} (h : registry.ofId id ≠ [])
    (sized : Bool) : registry.typesFor sized id = registry.ofId id := by
  unfold typesFor
  split
  · exact absurd ‹_› h
  · rfl

theorem Registry.typesFor_id {registry : Registry} {sized : Bool} {id : UInt64} {m : Message}
    (h : m ∈ registry.typesFor sized id) : m.id = id := by
  unfold typesFor at h
  split at h
  · split at h
    · rw [List.mem_singleton.1 h]
      rfl
    · cases h
  · simpa using (List.mem_filter.1 h).2

theorem dispatch_typesFor (registry : Registry) (sized : Bool) (id : UInt64)
    (attempt : Message → LayerRead) :
    dispatch id attempt (registry.typesFor sized id) =
      match registry.ofId id with
      | [] => if sized then attempt (.rawData id) else .failed (.unknownId id)
      | types => dispatch id attempt types := by
  unfold Registry.typesFor
  cases registry.ofId id with
  | nil => cases sized <;> rfl
  | cons m ms => rfl

/-- The id that a field reads. -/
def View.idRead (v : View) (field : Field) : UInt64 :=
  (field.read v.bytes).value.value.bits?.getD 0

/-- The result of the layers inside a layer, which see `w`. -/
def readInside (registry : Registry) (sized : Bool) (l : Layer) (ls : List Layer) (v w : View)
    (message : Option Message) : LayerRead :=
  match l.kind with
  | .id field =>
    dispatch (v.idRead field) (fun m => readLayers registry sized ls w.supplied (some m) w.bytes)
      (registry.typesFor sized (v.idRead field))
  | _ => readLayers registry sized ls w.supplied message w.bytes

/-- Goes on with the view that was entered. -/
def LayerRead.ofView (entered : Except CodecError View) (next : View → LayerRead) : LayerRead :=
  match entered with
  | .error e => .failed e
  | .ok w => next w

theorem LayerRead.seenFrom_eq_shift (src rest : Bytes) (r : LayerRead) :
    r.seenFrom src rest = r.shift (taken src rest) := by
  cases r <;> rfl

@[simp] theorem LayerRead.shift_zero (r : LayerRead) : r.shift 0 = r := by
  cases r <;> simp [LayerRead.shift]

theorem View.behind_start_sub (v : View) (rest : Bytes) :
    (v.behind rest).start - v.start = taken v.bytes rest :=
  Nat.add_sub_cancel_left v.start _

/-- To read an integer in front is to enter a view, if going on from there is. -/
theorem withInt_eq_ofView {v : View} {field : IntField} {next : IntField → Bytes → LayerRead}
    {enter : IntField × View → Except CodecError View} {leave : View → LayerRead}
    (h : ∀ rest, next (field.read v.bytes).value rest =
      .ofView (enter ((field.read v.bytes).value, v.behind rest)) leave) :
    withInt field v.bytes next = .ofView (v.read field.read >>= enter) leave := by
  simp only [withInt, View.read]
  cases (field.read v.bytes).error with
  | some e => rfl
  | none => exact h _

section
variable {registry : Registry} {sized : Bool} {l : Layer} {ls : List Layer} {v w : View}
  {message : Option Message}

/-- **Reading a layer** is to enter it, to read the layers inside and to leave it. -/
theorem readLayers_cons (hp : l.isPayload = false) :
    readLayers registry sized (l :: ls) v.supplied message v.bytes =
      .ofView (l.enter v) fun w => l.leave v w (readInside registry sized l ls v w message) := by
  obtain ⟨name, kind⟩ := l
  cases kind with
  | sync field =>
    simp only [readLayers, LayerRead.seenFrom_eq_shift, ← v.behind_start_sub]
    refine withInt_eq_ofView fun rest => ?_
    dsimp only
    split <;> rfl
  | size field max =>
    simp only [readLayers, LayerRead.seenFrom_eq_shift, Bytes.take?_eq, ← v.behind_start_sub]
    refine withInt_eq_ofView fun rest => ?_
    have hb : (v.behind rest).bytes = rest := rfl
    simp only [hb]
    split
    · rfl
    split
    · rfl
    by_cases hl : rest.length < (field.read v.bytes).value.value.toInt.toNat
    · rw [if_pos hl, if_pos hl]
      rfl
    · rw [if_neg hl, if_neg hl]
      have hr := List.length_take_of_le (Nat.le_of_not_lt hl)
      simp only [LayerRead.ofView, Layer.leave, View.restrict, hb, hr]
      rfl
  | id field =>
    simp only [readLayers, LayerRead.seenFrom_eq_shift, Layer.enter, View.read,
      ← v.behind_start_sub]
    cases (field.read v.bytes).error with
    | some e => rfl
    | none =>
      show _ = LayerRead.shift _ (dispatch _ _ _)
      rw [dispatch_typesFor]
      unfold View.idRead
      cases registry.ofId ((field.read v.bytes).value.value.bits?.getD 0) with
      | nil =>
        dsimp only
        split <;> rfl
      | cons m ms => rfl
  | transport field version =>
    simp only [readLayers, LayerRead.seenFrom_eq_shift, ← v.behind_start_sub]
    exact withInt_eq_ofView fun rest => rfl
  | payload => cases hp
  | checksum field algorithm placement =>
    cases placement with
    | after =>
      simp only [readLayers, Layer.enter, LayerRead.ofView, Layer.leave, readInside, Nat.sub_self]
      cases readLayers registry sized ls v.supplied message v.bytes with
      | done m n => rfl
      | mismatch computed received m extent | failed e => exact (LayerRead.shift_zero _).symm
    | before =>
      simp only [readLayers, LayerRead.seenFrom_eq_shift, ← v.behind_start_sub]
      refine withInt_eq_ofView fun rest => ?_
      simp only [LayerRead.ofView, Layer.leave, readInside]
      rfl

end

/-! ## Leaving -/

theorem LayerRead.shift_inv {r : LayerRead} {k n : Nat} {x : Option Message}
    (h : r.shift k = .done x n) : ∃ j, r = .done x j ∧ n = k + j := by
  cases r with
  | done y j =>
    cases h
    exact ⟨j, rfl, rfl⟩
  | _ => cases h

/-- The count of bytes that a layer consumes if the layers inside consume `n`. -/
def Layer.extent (l : Layer) (v w : View) (n : Nat) : Nat :=
  match l.kind with
  | .size _ _ => w.start - v.start + w.bytes.length
  | .checksum field _ .after => n + taken (v.bytes.drop n) (field.read (v.bytes.drop n)).rest
  | _ => w.start - v.start + n

section
variable {registry : Registry} {sized : Bool} {l : Layer} {ls outer rest : List Layer}
  {v v' w w' : View} {message x : Option Message} {k n : Nat} {r : LayerRead}

/-- A layer is read only if the layers inside are. -/
theorem Layer.leave_done (h : l.leave v w r = .done x n) :
    ∃ k, r = .done x k ∧ n = l.extent v w k := by
  obtain ⟨name, kind⟩ := l
  cases kind with
  | sync field | id field | transport field version | payload => exact LayerRead.shift_inv h
  | size field max =>
    obtain ⟨j, hj, rfl⟩ := LayerRead.shift_inv h
    obtain ⟨⟨k, rfl⟩, rfl⟩ := LayerRead.inRegion_inv hj
    exact ⟨k, rfl, rfl⟩
  | checksum field algorithm placement =>
    cases r with
    | mismatch computed received m extent | failed e => cases h
    | done m k =>
      cases placement with
      | before =>
        obtain ⟨-, rfl, rfl⟩ := LayerRead.compare_inv h
        exact ⟨k, rfl, rfl⟩
      | after =>
        simp only [Layer.leave, withInt] at h
        split at h
        · cases h
        · obtain ⟨-, rfl, rfl⟩ := LayerRead.compare_inv h
          exact ⟨k, rfl, rfl⟩

/-- What the layers inside consumed lies within what the layer consumes. -/
theorem Layer.le_extent (h : l.enter v = .ok w) (hn : n ≤ w.bytes.length) :
    w.start + n ≤ v.start + l.extent v w n := by
  have hle := (Layer.enter_inside h).start_le
  obtain ⟨name, kind⟩ := l
  cases kind with
  | sync field | id field | transport field version | payload | size field max =>
    simp only [Layer.extent]
    omega
  | checksum field algorithm placement =>
    cases placement with
    | before =>
      simp only [Layer.extent]
      omega
    | after =>
      cases h
      simp only [Layer.extent]
      omega

/-- A layer consumes as much if only bytes differ that the layers inside consumed. -/
theorem Layer.extent_eq {s e : Nat} (h : l.enter v = .ok w) (hv : v.SameOutside s e v')
    (hw : w.SameOutside s e w') (he : e ≤ w.start + n) : l.extent v' w' n = l.extent v w n := by
  obtain ⟨name, kind⟩ := l
  cases kind with
  | sync field | id field | transport field version | payload =>
    simp only [Layer.extent, hv.start, hw.start]
  | size field max => simp only [Layer.extent, hv.start, hw.start, hw.length]
  | checksum field algorithm placement =>
    cases placement with
    | before => simp only [Layer.extent, hv.start, hw.start]
    | after =>
      cases h
      simp only [Layer.extent, hv.drop he]

theorem readLayers_done_le {supplied : List Supplied} {src : Bytes}
    (h : readLayers registry sized ls supplied message src = .done x n) : n ≤ src.length := by
  have hw := readLayers_within registry sized ls supplied message src
  rwa [h] at hw

theorem readInside_done (h : readInside registry sized l ls v w message = .done x n) :
    ∃ m, readLayers registry sized ls w.supplied m w.bytes = .done x n ∧
      (l.isId = false → m = message) := by
  obtain ⟨name, kind⟩ := l
  cases kind with
  | id field =>
    obtain ⟨m, -, hm⟩ := dispatch_inv h
    exact ⟨some m, hm, nofun⟩
  | _ => exact ⟨message, h, fun _ => rfl⟩

/-- A layer that is read was entered, and what the layers inside gave was turned into its result. -/
theorem readLayers_cons_leave (hp : l.isPayload = false)
    (h : readLayers registry sized (l :: ls) v.supplied message v.bytes = .done x n) :
    ∃ w m k, l.enter v = .ok w ∧
      readLayers registry sized ls w.supplied m w.bytes = .done x k ∧
      l.leave v w (.done x k) = .done x n ∧ (l.isId = false → m = message) := by
  rw [readLayers_cons hp] at h
  cases hw : l.enter v with
  | error e =>
    rw [hw] at h
    cases h
  | ok w =>
    rw [hw] at h
    replace h : l.leave v w (readInside registry sized l ls v w message) = .done x n := h
    obtain ⟨k, hk, -⟩ := Layer.leave_done h
    obtain ⟨m, hm, hmessage⟩ := readInside_done hk
    rw [hk] at h
    exact ⟨w, m, k, rfl, hm, h, hmessage⟩

theorem readLayers_cons_done (hp : l.isPayload = false)
    (h : readLayers registry sized (l :: ls) v.supplied message v.bytes = .done x n) :
    ∃ w m k, l.enter v = .ok w ∧
      readLayers registry sized ls w.supplied m w.bytes = .done x k ∧ n = l.extent v w k := by
  obtain ⟨w, m, k, hw, hm, hleave, -⟩ := readLayers_cons_leave hp h
  obtain ⟨j, hj, rfl⟩ := Layer.leave_done hleave
  cases hj
  exact ⟨w, m, k, hw, hm, rfl⟩

/-- Layers that are read inside others lie within what these consume. -/
theorem readLayers_append_done (hp : ∀ l ∈ outer, l.isPayload = false)
    (h : readLayers registry sized (outer ++ rest) v.supplied message v.bytes = .done x n) :
    ∃ w m k, enterLayers outer v = .ok w ∧
      readLayers registry sized rest w.supplied m w.bytes = .done x k ∧
      w.start + k ≤ v.start + n := by
  induction outer generalizing v message n with
  | nil => exact ⟨v, message, n, rfl, h, Nat.le_refl _⟩
  | cons l outer ih =>
    obtain ⟨u, m, k, hu, hk, rfl⟩ := readLayers_cons_done (hp l (.head _)) h
    obtain ⟨w, m', k', hw, hk', hle⟩ := ih (fun l hl => hp l (.tail _ hl)) hk
    exact ⟨w, m', k', enterLayers_cons_ok.2 ⟨u, hu, hw⟩, hk',
      Nat.le_trans hle (Layer.le_extent hu (readLayers_done_le hk))⟩

/-- A frame is read as a message only if the layers at any depth are. -/
theorem Frame.readOne_reaches {f : Frame} {inner : List Layer}
    (hl : f.layers = outer ++ l :: inner) {src : Bytes} {y : Message} {k : Nat}
    (h : f.readOne src = .message y k) :
    ∃ v m x n, enterLayers outer (.ofInput src) = .ok v ∧
      readLayers f.registry f.sized (l :: inner) v.supplied m v.bytes = .done x n := by
  obtain ⟨y, hy, -⟩ := Frame.readOne_inv h
  rw [hl] at hy
  obtain ⟨v, m, n, hv, hdone, -⟩ :=
    readLayers_append_done (v := .ofInput src) (Frame.outer_layers hl).2 hy
  exact ⟨v, m, some y, n, hv, hdone⟩

/-! ## Layers without an id -/

/-- The result of layers around others, if that of the others is `next` of what they see. -/
def throughLayers : List Layer → View → (next : View → LayerRead) → LayerRead
  | [], v, next => next v
  | l :: ls, v, next => .ofView (l.enter v) fun w => l.leave v w (throughLayers ls w next)

theorem readInside_of_not_id (hid : l.isId = false) :
    readInside registry sized l ls v w message =
      readLayers registry sized ls w.supplied message w.bytes := by
  obtain ⟨name, kind⟩ := l
  cases kind with
  | id field => cases hid
  | _ => rfl

/-- **Layers around others**, none of which is the id, carry a view in and a result out. -/
theorem readLayers_append (hid : ∀ l ∈ outer, l.isId = false)
    (hp : ∀ l ∈ outer, l.isPayload = false) :
    readLayers registry sized (outer ++ rest) v.supplied message v.bytes =
      throughLayers outer v fun w => readLayers registry sized rest w.supplied message w.bytes := by
  induction outer generalizing v with
  | nil => rfl
  | cons l outer ih =>
    rw [List.cons_append, readLayers_cons (hp l (.head _)), throughLayers]
    congr 1
    funext w
    rw [readInside_of_not_id (hid l (.head _)),
      ih (fun l hl => hid l (.tail _ hl)) fun l hl => hp l (.tail _ hl)]

theorem throughLayers_append {ls' : List Layer} {next : View → LayerRead} :
    throughLayers (ls ++ ls') v next = throughLayers ls v fun w => throughLayers ls' w next := by
  induction ls generalizing v with
  | nil => rfl
  | cons l ls ih => simp only [List.cons_append, throughLayers, ih]

theorem throughLayers_done {next : View → LayerRead} (hw : enterLayers ls v = .ok w)
    (h : throughLayers ls v next = .done x k) : ∃ n, next w = .done x n := by
  induction ls generalizing v k with
  | nil =>
    cases hw
    exact ⟨k, h⟩
  | cons l ls ih =>
    obtain ⟨u, hu, hw⟩ := enterLayers_cons_ok.1 hw
    simp only [throughLayers, hu, LayerRead.ofView] at h
    obtain ⟨j, hj, -⟩ := Layer.leave_done h
    exact ih hw hj

/-- Only what is seen by the layers inside counts. -/
theorem throughLayers_congr {next next' : View → LayerRead}
    (h : ∀ w, enterLayers outer v = .ok w → next w = next' w) :
    throughLayers outer v next = throughLayers outer v next' := by
  induction outer generalizing v with
  | nil => exact h v rfl
  | cons l outer ih =>
    unfold throughLayers LayerRead.ofView
    split
    · rfl
    · rename_i u hu
      dsimp only
      rw [ih fun w hw => h w (enterLayers_cons_ok.2 ⟨u, hu, hw⟩)]

/-- Without an id the message types of the registry do not matter. -/
theorem readLayers_registry {registry' : Registry} {sized' : Bool} {supplied : List Supplied}
    {src : Bytes} (hid : ∀ l ∈ ls, l.isId = false) :
    readLayers registry sized ls supplied message src =
      readLayers registry' sized' ls supplied message src := by
  induction ls generalizing supplied src with
  | nil => rfl
  | cons l ls ih =>
    have ih (supplied : List Supplied) (src : Bytes) :=
      @ih supplied src fun l hl => hid l (.tail _ hl)
    cases hp : l.isPayload with
    | true =>
      obtain ⟨name, kind⟩ := l
      cases kind with
      | payload => rfl
      | _ => cases hp
    | false =>
      have hl := hid l (.head _)
      have hv (registry : Registry) (sized : Bool) :=
        @readLayers_cons registry sized l ls ⟨0, src, supplied⟩ message hp
      simp only [readInside_of_not_id hl] at hv
      rw [hv registry sized, hv registry' sized']
      congr 1
      funext w
      rw [ih]

/-! ## Extents around a region -/

/-- **Layers around a region** consume as much if other bytes stand in the region, whatever messages
the two runs are read into. -/
theorem readLayers_extent_eq {name : String} {field : IntField} {max : Option Nat} {s e n' : Nat}
    {message' x' : Option Message}
    (hid : ∀ l ∈ outer, l.ExactId) (hp : ∀ l ∈ outer, l.isPayload = false)
    (hw : enterLayers (outer ++ [⟨name, .size field max⟩]) v = .ok w) (hs : w.start ≤ s)
    (he : e ≤ w.start + w.bytes.length) (hv : v.SameOutside s e v')
    (h : readLayers registry sized (outer ++ ⟨name, .size field max⟩ :: ls) v.supplied message
      v.bytes = .done x n)
    (h' : readLayers registry sized (outer ++ ⟨name, .size field max⟩ :: ls) v'.supplied message'
      v'.bytes = .done x' n') : n' = n ∧ w.start + w.bytes.length ≤ v.start + n := by
  induction outer generalizing v v' message message' n n' with
  | nil =>
    obtain ⟨u, hu, hw⟩ := enterLayers_cons_ok.1 hw
    cases hw
    obtain ⟨u', hu', hsame⟩ := Layer.enter_sameOutside (fun _ h => by cases h) hu hs hv
    obtain ⟨w₁, m, k, hw₁, -, rfl⟩ := readLayers_cons_done rfl h
    obtain ⟨w₂, m', k', hw₂, -, rfl⟩ := readLayers_cons_done rfl h'
    cases hu.symm.trans hw₁
    cases hu'.symm.trans hw₂
    have := (Layer.enter_inside hu).start_le
    simp only [Layer.extent, hsame.start, hsame.length, hv.start]
    exact ⟨trivial, by omega⟩
  | cons l outer ih =>
    obtain ⟨u, hu, hw⟩ := enterLayers_cons_ok.1 hw
    have hle := (enterLayers_inside hw).start_le
    have hle' := (enterLayers_inside hw).end_le
    obtain ⟨u', hu', hsame⟩ := Layer.enter_sameOutside (hid l (.head _)) hu (by omega) hv
    obtain ⟨w₁, m, k, hw₁, hk, rfl⟩ := readLayers_cons_done (hp l (.head _)) h
    obtain ⟨w₂, m', k', hw₂, hk', rfl⟩ := readLayers_cons_done (hp l (.head _)) h'
    cases hu.symm.trans hw₁
    cases hu'.symm.trans hw₂
    obtain ⟨rfl, hend⟩ := ih (fun l hl => hid l (.tail _ hl)) (fun l hl => hp l (.tail _ hl)) hw
      hsame hk hk'
    exact ⟨Layer.extent_eq hu hv hsame (by omega),
      Nat.le_trans hend (Layer.le_extent hu (readLayers_done_le hk))⟩

end

end WireProtocol
