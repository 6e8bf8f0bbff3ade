import WireProtocol.Proofs.Frame.Nesting

/-!
# Bytes behind what layers consume

Layers around a region of declared size read every message type alike, whatever stands behind what
they consume (`readLayers_behind`): a field is read from its own bytes, the message from those of
the region, and every type finds the region and the checksums behind it in the same places.
-/

set_option autoImplicit false

namespace WireProtocol

namespace View

/-- What is seen behind the first `n` bytes. -/
def drop (v : View) (n : Nat) : View := { v with start := v.start + n, bytes := v.bytes.drop n }

theorem SameOutside.refl (s e : Nat) (v : View) : v.SameOutside s e v :=
  ⟨rfl, rfl, rfl, fun _ _ => rfl⟩

variable {s e : Nat} {v w : View}

theorem SameOutside.behind (h : v.SameOutside s e w) (n : Nat) :
    (v.drop n).SameOutside s e (w.drop n) where
  start := congrArg (· + n) h.start
  supplied := h.supplied
  length := by simp [View.drop, h.length]
  bytes i hi := by
    simp only [View.drop, List.getElem?_drop, Nat.add_assoc] at hi ⊢
    exact h.bytes _ hi

end View

section
variable {registry : Registry} {sized : Bool} {name : String} {l : Layer} {ls outer : List Layer}
  {v v' w w' : View} {message x y : Option Message} {k n s e : Nat}

/-- A field behind the first `k` bytes is read as before if other bytes stand only behind it. -/
theorem View.SameOutside.withInt_eq (hv : v.SameOutside s e v') {field : IntField} {c rest : Bytes}
    {a : Int64} (h : TakesInt field (v.bytes.drop k) a c rest) (hs : v.start + k + c.length ≤ s)
    (next : IntField → Nat → LayerRead) :
    withInt field (v'.bytes.drop k) (fun f rest => next f (taken (v'.bytes.drop k) rest)) =
      withInt field (v.bytes.drop k) (fun f rest => next f (taken (v.bytes.drop k) rest)) := by
  have hread : (v.drop k).read field.read = .ok (field.withValue a, (v.drop k).behind rest) :=
    View.read_of_done h.read
  obtain ⟨u', hu', hsame⟩ := (hv.behind k).read field.read_noLookahead hread
    (by simpa [View.behind, View.drop, h.taken_eq] using hs)
  obtain ⟨rest', hread', rfl⟩ := View.read_ok hu'
  have htaken' : taken (v'.bytes.drop k) rest' = taken (v.bytes.drop k) rest := by
    have hstart := hsame.start
    simp only [View.behind, View.drop, hv.start] at hstart
    omega
  have hread' : field.read (v'.bytes.drop k) = .done (field.withValue a) rest' := hread'
  simp only [withInt, h.read, hread']
  exact congrArg (next _) htaken'

/-- A layer turns a result of the layers inside into the same, if other bytes stand only behind
what it consumes where it is read. -/
theorem Layer.leave_sameOutside (hw : l.enter v = .ok w) (hw' : l.enter v' = .ok w')
    (hv : v.SameOutside s e v') (hsame : w.SameOutside s e w')
    (h : l.leave v w (.done x k) = .done y n) (hs : v.start + n ≤ s) {r : LayerRead}
    (hr : ∀ z j, r = .done z j → j = k) : l.leave v' w' r = l.leave v w r := by
  obtain ⟨name, kind⟩ := l
  cases kind with
  | sync field | id field | transport field version | payload =>
    simp only [Layer.leave, hv.start, hsame.start]
  | size field max => simp only [Layer.leave, hv.start, hsame.start, hsame.length]
  | checksum field algorithm placement =>
    cases r with
    | mismatch computed received m extent | failed e =>
      simp only [Layer.leave, hv.start, hsame.start]
    | done m j =>
      obtain rfl := hr m j rfl
      cases placement with
      | before =>
        obtain ⟨-, -, rfl⟩ := LayerRead.compare_inv h
        obtain ⟨⟨f, u⟩, hu, hw⟩ := bind_eq_ok.1 hw
        obtain rfl : u = w := Except.ok.inj hw
        have hle := (View.read_inside field.read_suffix hu).start_le
        obtain ⟨u', hu', -⟩ := hv.read field.read_noLookahead hu (by omega)
        obtain ⟨rest, hread, -⟩ := View.read_ok hu
        obtain ⟨rest', hread', -⟩ := View.read_ok hu'
        have hread : field.read v.bytes = .done f rest := hread
        have hread' : field.read v'.bytes = .done f rest' := hread'
        simp only [Layer.leave, hv.start, hsame.start, hread, hread',
          hsame.take (k := j) (by omega)]
        rfl
      | after =>
        cases hw
        cases hw'
        simp only [Layer.leave] at h ⊢
        obtain ⟨a, c, rest, ht, hcompare⟩ := withInt_inv h
        obtain ⟨-, -, rfl⟩ := LayerRead.compare_inv hcompare
        have htaken := ht.taken_eq
        rw [hv.take (k := j) (by omega)]
        exact hv.withInt_eq ht (by omega) fun f t => .compare _ _ m (j + t)

/-- The id that is read in front of other bytes is the same. -/
theorem View.SameOutside.idRead (hv : v.SameOutside s e v') {field : Field}
    (hr : NoLookahead field.read) (hw : (⟨name, .id field⟩ : Layer).enter v = .ok w)
    (hs : w.start ≤ s) : v'.idRead field = v.idRead field := by
  obtain ⟨⟨f, u⟩, hu, hw⟩ := bind_eq_ok.1 hw
  obtain rfl : u = w := Except.ok.inj hw
  obtain ⟨u', hu', -⟩ := hv.read hr hu hs
  obtain ⟨rest, hread, -⟩ := View.read_ok hu
  obtain ⟨rest', hread', -⟩ := View.read_ok hu'
  simp only [View.idRead, hread, hread']
  rfl

/-- The layers inside a layer are read as before for every message if they are so by themselves. -/
theorem readInside_sameOutside (hid : l.ExactId) (hw : l.enter v = .ok w) (hs : w.start ≤ s)
    (hv : v.SameOutside s e v')
    (h : ∀ m, readLayers registry sized ls w'.supplied m w'.bytes =
      readLayers registry sized ls w.supplied m w.bytes) (m : Option Message) :
    readInside registry sized l ls v' w' m = readInside registry sized l ls v w m := by
  obtain ⟨name, kind⟩ := l
  cases kind with
  | id field =>
    simp only [readInside, hv.idRead (hid field rfl) hw hs, h]
  | _ => exact h m

/-- Layers around a region consume as much for every message. -/
theorem readLayers_extent_unique {field : IntField} {max : Option Nat} {n' : Nat}
    {message' x' : Option Message} (hid : ∀ l ∈ outer, l.ExactId)
    (hp : ∀ l ∈ outer, l.isPayload = false)
    (h : readLayers registry sized (outer ++ ⟨name, .size field max⟩ :: ls) v.supplied message
      v.bytes = .done x n)
    (h' : readLayers registry sized (outer ++ ⟨name, .size field max⟩ :: ls) v.supplied message'
      v.bytes = .done x' n') : n' = n := by
  obtain ⟨u, m, j, hu, hsize, -⟩ := readLayers_append_done hp h
  obtain ⟨region, m', j', hregion, -, -⟩ := readLayers_cons_done rfl hsize
  have hin : enterLayers (outer ++ [⟨name, .size field max⟩]) v = .ok region :=
    enterLayers_append_ok.2 ⟨u, hu, enterLayers_cons_ok.2 ⟨region, hregion, rfl⟩⟩
  exact (readLayers_extent_eq hid hp hin (Nat.le_refl _) (Nat.le_add_right _ _)
    (.refl _ _ v) h h').1

/-- **Layers around a region do not look behind what they consume**, whatever messages they are
read into and however that ends. -/
theorem readLayers_behind {field : IntField} {max : Option Nat}
    (hid : ∀ l ∈ outer, l.ExactId) (hp : ∀ l ∈ outer, l.isPayload = false)
    (h : readLayers registry sized (outer ++ ⟨name, .size field max⟩ :: ls) v.supplied message
      v.bytes = .done x n) (hs : v.start + n ≤ s) (hv : v.SameOutside s e v')
    (m : Option Message) :
    readLayers registry sized (outer ++ ⟨name, .size field max⟩ :: ls) v'.supplied m v'.bytes =
      readLayers registry sized (outer ++ ⟨name, .size field max⟩ :: ls) v.supplied m v.bytes := by
  induction outer generalizing v v' message m x n with
  | nil =>
    obtain ⟨w, m₀, k, hw, -, rfl⟩ := readLayers_cons_done rfl h
    have hle := (Layer.enter_inside hw).start_le
    have hn : v.start + (w.start - v.start + w.bytes.length) ≤ s := hs
    obtain ⟨w', hw', hsame⟩ := Layer.enter_sameOutside (fun _ h => by cases h) hw (by omega) hv
    -- the region ends in front of the other bytes
    obtain rfl : w' = w := hsame.eq (.inl (by omega))
    rw [List.nil_append, readLayers_cons rfl, readLayers_cons rfl, hw, hw']
    simp only [LayerRead.ofView, Layer.leave, hv.start]
    rfl
  | cons l outer ih =>
    have hl := hid l (.head _)
    have hid := fun l hl => hid l (.tail _ hl)
    have hpl := hp l (.head _)
    have hp := fun l hl => hp l (.tail _ hl)
    rw [List.cons_append] at h ⊢
    obtain ⟨w, m₀, k, hw, hk, hleave, -⟩ := readLayers_cons_leave hpl h
    obtain ⟨j, hj, hn⟩ := Layer.leave_done hleave
    cases hj
    have hle := Layer.le_extent hw (readLayers_done_le hk)
    obtain ⟨w', hw', hsame⟩ := Layer.enter_sameOutside hl hw (by omega) hv
    have hinside := readInside_sameOutside hl hw (by omega) hv (ih hid hp hk (by omega) hsame)
    rw [readLayers_cons hpl, readLayers_cons hpl, hw, hw']
    simp only [LayerRead.ofView, hinside]
    refine Layer.leave_sameOutside hw hw' hv hsame hleave hs fun z j hz => ?_
    obtain ⟨m₁, hm₁, -⟩ := readInside_done hz
    exact readLayers_extent_unique hid hp hk hm₁

end

end WireProtocol
