import WireProtocol.Proofs.Frame.Behind
import WireProtocol.Proofs.Frame.Corruption
import WireProtocol.Proofs.Frame.Messages
import WireProtocol.Proofs.Frame.Mismatch

/-!
# An altered checksum

With other bytes in the field of one checksum, a frame that was read is the same up to that field:
the layers around are entered alike, the same message type is taken, and the layers inside give the
same message. So it is that checksum which does not match (`Frame.readOne_altered`). Two things
carry the argument. Layers around a mismatch pass it out, and whether an attempt finds its content
malformed is decided inside them (`dispatch_throughLayers`), so a frame is read by the layers at any
depth (`Frame.readLayers_around`).
-/

set_option autoImplicit false

namespace WireProtocol

/-! ## The message that is read -/

/-- A message that layers without an id read has the id of its type. -/
theorem readLayers_message_id {registry : Registry} {sized : Bool} {ls : List Layer}
    (hid : ∀ l ∈ ls, l.isId = false) {supplied : List Supplied} {m y : Message} {src : Bytes}
    {n : Nat} (h : readLayers registry sized ls supplied (some m) src = .done (some y) n) :
    y.id = m.id := by
  -- without an id the types of the registry do not matter, so there may be none
  have hnone : readLayers registry sized ls supplied (some m) src =
      readLayers { prototypes := [] } false ls supplied (some m) src := readLayers_registry hid
  have hcarries : (readLayers { prototypes := [] } false ls supplied (some m) src).Carries
      (·.id = m.id) :=
    readLayers_carries (fun x s hx => by rw [Supplied.giveTo_eq]; exact hx) (fun x src hx => hx)
      nofun nofun ls supplied (fun x hx => by cases hx; rfl) src
  rw [← hnone, h] at hcarries
  exact hcarries y rfl

theorem throughLayers_unknownId {ls : List Layer} {v w : View} (hw : enterLayers ls v = .ok w)
    (id : UInt64) :
    throughLayers ls v (fun _ => .failed (.unknownId id)) = .failed (.unknownId id) := by
  induction ls generalizing v with
  | nil => rfl
  | cons l ls ih =>
    obtain ⟨u, hu, hw⟩ := enterLayers_cons_ok.1 hw
    simp only [throughLayers, hu, LayerRead.ofView, ih hw]
    unfold Layer.leave
    split <;> rfl

/-- **Plain layers pass a dispatch out**: what they find around each attempt does not decide which
of them counts. -/
theorem dispatch_throughLayers {ls : List Layer} (hp : ∀ l ∈ ls, l.PlainChecksum) {v w : View}
    (hw : enterLayers ls v = .ok w) (id : UInt64) (attempt : Message → View → LayerRead)
    (types : List Message) :
    dispatch id (fun m => throughLayers ls v (attempt m)) types =
      throughLayers ls v fun w => dispatch id (fun m => attempt m w) types := by
  cases hne : types with
  | nil => exact (throughLayers_unknownId hw id).symm
  | cons m ms =>
    obtain ⟨before, p, later, htypes, htaken, hbefore, hlater⟩ :=
      dispatch_taken id (fun m => attempt m w) (List.cons_ne_nil m ms)
    have hmalformed (m : Message) :
        (throughLayers ls v (attempt m)).isMalformed = (attempt m w).isMalformed :=
      throughLayers_isMalformed hp hw
    have hinside : (throughLayers ls v fun w => dispatch id (fun m => attempt m w) (m :: ms)) =
        throughLayers ls v (attempt p) := by
      refine throughLayers_congr fun w' hw' => ?_
      cases hw.symm.trans hw'
      exact htaken
    rw [hinside, htypes]
    exact dispatch_append id _ (fun q hq => (hmalformed q).trans (hbefore q hq))
      fun h => hlater ((hmalformed p).symm.trans h)

/-- Layers with a size among them are split at one. -/
theorem exists_size_layer {ls : List Layer} (h : isSized ls = true) :
    ∃ before name field max after, ls = before ++ ⟨name, .size field max⟩ :: after := by
  obtain ⟨l, hl, hsize⟩ := List.any_eq_true.1 h
  obtain ⟨before, after, rfl⟩ := List.append_of_mem hl
  obtain ⟨name, kind⟩ := l
  cases kind with
  | size field max => exact ⟨before, name, field, max, after, rfl⟩
  | _ => cases hsize

/-- Layers with an id among them are split at it. -/
theorem exists_id_layer {ls : List Layer} (h : ls.any Layer.isId = true) :
    ∃ before name field after, ls = before ++ ⟨name, .id field⟩ :: after := by
  obtain ⟨l, hl, hid⟩ := List.any_eq_true.1 h
  obtain ⟨before, after, rfl⟩ := List.append_of_mem hl
  obtain ⟨name, kind⟩ := l
  cases kind with
  | id field => exact ⟨before, name, field, after, rfl⟩
  | _ => cases hid

namespace Frame

/-- What the layers inside `outer` are read into in a frame of that id: each of its message types,
or nothing yet if the id is not among `outer`. -/
def messagesAt (f : Frame) (outer : List Layer) (id : UInt64) : List (Option Message) :=
  if outer.any Layer.isId then (f.registry.typesFor f.sized id).map some else [none]

/-- The layers inside `outer` are read alike from two views, whichever of the messages there they
are read into. -/
def ReadsAlike (f : Frame) (outer inner : List Layer) (id : UInt64) (w w' : View) : Prop :=
  ∀ m ∈ f.messagesAt outer id, readLayers f.registry f.sized inner w'.supplied m w'.bytes =
    readLayers f.registry f.sized inner w.supplied m w.bytes

/-- How the layers inside `outer` are read in a frame of that id. -/
def readAt (f : Frame) (outer inner : List Layer) (id : UInt64) (v : View) : LayerRead :=
  if outer.any Layer.isId then
    dispatch id (fun m => readLayers f.registry f.sized inner v.supplied (some m) v.bytes)
      (f.registry.typesFor f.sized id)
  else readLayers f.registry f.sized inner v.supplied none v.bytes

section
variable {f : Frame} {outer inner : List Layer} {l : Layer} {src : Bytes} {v v' : View}
  {y : Message} {id : UInt64} {k n s e : Nat}

/-- **A frame is read by the layers at any depth**, with the id that is read in front of them. -/
theorem readLayers_around (hl : f.layers = outer ++ l :: inner)
    (hplain : ∀ l ∈ outer, l.PlainChecksum) (hv : enterLayers outer (.ofInput src) = .ok v) :
    ∃ id, ∀ src' s e, (View.ofInput src).SameOutside s e (.ofInput src') → v.start ≤ s →
      readLayers f.registry f.sized f.layers [] none src' =
        throughLayers outer (.ofInput src') (f.readAt outer (l :: inner) id) := by
  obtain ⟨hexact, hpayload⟩ := outer_layers hl
  cases hany : outer.any Layer.isId with
  | false =>
    have hnone : ∀ l ∈ outer, l.isId = false := by simpa using hany
    refine ⟨0, fun src' s e _ _ => ?_⟩
    have hread : f.readAt outer (l :: inner) 0 = fun v =>
        readLayers f.registry f.sized (l :: inner) v.supplied none v.bytes := by
      funext v
      rw [readAt, hany]
      exact if_neg Bool.false_ne_true
    rw [hread, hl]
    exact readLayers_append (v := .ofInput src') hnone hpayload
  | true =>
    obtain ⟨outer₁, name, field, outer₂, rfl⟩ := exists_id_layer hany
    have hid := hexact ⟨name, .id field⟩ (List.mem_append_right _ (.head _))
    have hexact₁ : ∀ l ∈ outer₁, l.ExactId := fun l hl => hexact l (List.mem_append_left _ hl)
    have hexact₂ : ∀ l ∈ outer₂, l.ExactId :=
      fun l hl => hexact l (List.mem_append_right _ (.tail _ hl))
    obtain ⟨u, hu, hv⟩ := enterLayers_append_ok.1 hv
    obtain ⟨t, ht, hv⟩ := enterLayers_cons_ok.1 hv
    have hle := (enterLayers_inside hv).start_le
    have hle' := (Layer.enter_inside ht).start_le
    refine ⟨u.idRead field, fun src' s e hsame hs => ?_⟩
    -- the id is read in front of the other bytes
    obtain ⟨u', hu', hsame₁⟩ := enterLayers_sameOutside hexact₁ hu (by omega) hsame
    obtain ⟨t', ht', hsame₂⟩ := Layer.enter_sameOutside hid ht (by omega) hsame₁
    obtain ⟨v', hv', -⟩ := enterLayers_sameOutside hexact₂ hv hs hsame₂
    have hidRead := hsame₁.idRead (hid field rfl) ht (by omega)
    have hread : f.readAt (outer₁ ++ ⟨name, .id field⟩ :: outer₂) (l :: inner) (u.idRead field) =
        fun v => dispatch (u.idRead field)
          (fun m => readLayers f.registry f.sized (l :: inner) v.supplied (some m) v.bytes)
          (f.registry.typesFor f.sized (u.idRead field)) := by
      funext v
      rw [readAt, hany]
      exact if_pos rfl
    rw [List.append_assoc, List.cons_append] at hl
    rw [readLayers_dispatch hl, throughLayers_append, hread]
    refine throughLayers_congr fun u₁ hu₁ => ?_
    cases hu'.symm.trans hu₁
    simp only [throughLayers, ht', LayerRead.ofView, hidRead]
    refine congrArg (LayerRead.shift _) ?_
    rw [← dispatch_throughLayers (fun l hl => hplain l (List.mem_append_right _ (.tail _ hl))) hv']
    congr 1
    funext m
    exact readLayers_append
      (fun l' hl' => (other_layers hl).2 l' (List.mem_append_left _ hl'))
      fun l' hl' => hpayload l' (List.mem_append_right _ (.tail _ hl'))

/-- What is read at some depth is what was read into one of the messages there, and a mismatch for
that one counts if what was found malformed for others stays so. -/
theorem readAt_done (hl : f.layers = outer ++ l :: inner)
    (h : f.readAt outer (l :: inner) id v = .done (some y) n) :
    ∃ m ∈ f.messagesAt outer y.id,
      readLayers f.registry f.sized (l :: inner) v.supplied m v.bytes = .done (some y) n ∧
      ∀ v', (readLayers f.registry f.sized (l :: inner) v'.supplied m v'.bytes).IsMismatch
          (some y) n →
        (∀ q ∈ f.messagesAt outer y.id,
          (readLayers f.registry f.sized (l :: inner) v'.supplied q v'.bytes).isMalformed =
            (readLayers f.registry f.sized (l :: inner) v.supplied q v.bytes).isMalformed) →
        (f.readAt outer (l :: inner) id v').IsMismatch (some y) n := by
  unfold readAt messagesAt at *
  cases hany : outer.any Layer.isId with
  | false =>
    rw [hany] at h
    exact ⟨none, List.mem_singleton.2 rfl, h, fun v' h' _ => h'⟩
  | true =>
    rw [hany, if_pos rfl] at h
    have hne : f.registry.typesFor f.sized id ≠ [] := by
      intro hnil
      rw [hnil] at h
      cases h
    obtain ⟨before, p, later, htypes, htaken, hbefore, -⟩ := dispatch_taken id _ hne
    rw [h] at htaken
    have hp : p ∈ f.registry.typesFor f.sized id := by
      rw [htypes]
      exact List.mem_append_right _ (.head _)
    obtain ⟨outer₁, name, field, outer₂, rfl⟩ := exists_id_layer hany
    rw [List.append_assoc, List.cons_append] at hl
    have hid : y.id = id := by
      refine (readLayers_message_id (fun l' hl' => ?_) htaken.symm).trans (Registry.typesFor_id hp)
      exact (other_layers hl).2 l' (List.mem_append_right _ hl')
    subst hid
    refine ⟨some p, List.mem_map_of_mem hp, htaken.symm, fun v' hv' hmalformed => ?_⟩
    rw [if_pos rfl, htypes, dispatch_append]
    · exact hv'
    · intro q hq
      have hmem : some q ∈ (f.registry.typesFor f.sized y.id).map some := by
        rw [htypes]
        exact List.mem_map_of_mem (List.mem_append_left _ hq)
      exact (hmalformed (some q) hmem).trans (hbefore q hq)
    · intro hp'
      cases hv'.isMalformed.symm.trans hp'

end

end Frame

/-! ## An altered checksum -/

/-- Where the field of a checksum stands if the layers inside see `w` and consume `n` bytes. -/
def checksumStart (field : IntField) (placement : Placement) (w : View) (n : Nat) : Nat :=
  match placement with
  | .before => w.start - field.length
  | .after => w.start + n

section
variable {registry : Registry} {sized : Bool} {name : String} {field : IntField}
  {algorithm : Checksum} {placement : Placement} {inner : List Layer}
  {v v' w w' : View} {message x : Option Message} {k n s e : Nat} {c c' rest rest' : Bytes}
  {b b' : Int64}

/-- **Other bytes in a plain field** are read, and differ in the bits that are compared. -/
theorem IntField.Plain.read_altered (hp : field.Plain)
    (hv : v.SameOutside (v.start + n) (v.start + n + field.length) v')
    (hne : v'.bytes ≠ v.bytes) (ht : TakesInt field (v.bytes.drop n) b c rest) :
    ∃ b' c', TakesInt field (v'.bytes.drop n) b' c' rest ∧ c'.length = c.length ∧
      b.toUInt64 &&& checksumMask field ≠ b'.toUInt64 &&& checksumMask field := by
  have hc := hp.length_eq ht
  have hlength : field.length ≤ (v'.bytes.drop n).length := by
    have hsplit := congrArg List.length ht.split
    rw [List.length_append, List.length_drop] at hsplit
    rw [List.length_drop, hv.length]
    omega
  have hok : (field.read (v'.bytes.drop n)).error = none := by
    rw [hp.error_eq, if_neg (by omega)]
  obtain ⟨b', c', rest', ht'⟩ := TakesInt.of_ok hok
  have hc' := hp.length_eq ht'
  rw [← hc] at hv
  have hrest : rest' = rest := by
    have hdrop := hv.drop (k := n + c.length) (by omega)
    rw [← List.drop_drop, ← List.drop_drop, ht.split, ht'.split, List.drop_left] at hdrop
    rwa [List.drop_left' (by omega)] at hdrop
  subst hrest
  refine ⟨b', c', ht', by omega, fun hm => hne ?_⟩
  obtain rfl := hp.eq_of_masked ht ht' hm
  rw [← List.take_append_drop n v'.bytes, hv.take (Nat.le_refl _), ht'.split, ← ht.split,
    List.take_append_drop]

/-- A checksum in front of its inside stands at the start of what its layer sees. -/
theorem IntField.Plain.enter_before (hp : field.Plain)
    (hw : (⟨name, .checksum field algorithm .before⟩ : Layer).enter v = .ok w) :
    ∃ b c rest, TakesInt field v.bytes b c rest ∧ w = v.behind rest ∧
      ∀ n, checksumStart field .before w n = v.start := by
  obtain ⟨⟨f, u⟩, hu, hw⟩ := bind_eq_ok.1 hw
  obtain rfl : u = w := Except.ok.inj hw
  obtain ⟨rest, hread, hu⟩ := View.read_ok hu
  obtain ⟨b, c, rest', ht⟩ := TakesInt.of_ok (congrArg Outcome.error hread)
  obtain rfl : rest' = rest := congrArg Outcome.rest (ht.read.symm.trans hread)
  refine ⟨b, c, rest', ht, hu, fun _ => ?_⟩
  rw [checksumStart, hu, View.behind, ht.taken_eq, hp.length_eq ht, Nat.add_sub_cancel]

/-- The field of a checksum stands in what its layer sees. -/
theorem IntField.Plain.field_inside (hp : field.Plain)
    (hw : (⟨name, .checksum field algorithm placement⟩ : Layer).enter v = .ok w)
    (h : (⟨name, .checksum field algorithm placement⟩ : Layer).leave v w (.done x n) =
      .done x k) :
    v.start ≤ checksumStart field placement w n ∧
      checksumStart field placement w n + field.length ≤ v.start + v.bytes.length := by
  cases placement with
  | after =>
    cases hw
    simp only [Layer.leave] at h
    obtain ⟨b, c, rest, ht, -⟩ := withInt_inv h
    have hsplit := congrArg List.length ht.split
    have hpos := ht.length_pos
    rw [List.length_append, List.length_drop, hp.length_eq ht] at hsplit
    rw [hp.length_eq ht] at hpos
    simp only [checksumStart]
    omega
  | before =>
    obtain ⟨b, c, rest, ht, -, hstart⟩ := hp.enter_before hw
    have hsplit := congrArg List.length ht.split
    rw [List.length_append, hp.length_eq ht] at hsplit
    rw [hstart]
    omega

/-- The layers inside a checksum are entered with other bytes in its field, and see the same if it
stands in front of them. -/
theorem IntField.Plain.enter_altered (hp : field.Plain)
    (hw : (⟨name, .checksum field algorithm placement⟩ : Layer).enter v = .ok w)
    (hv : v.SameOutside (checksumStart field placement w n)
      (checksumStart field placement w n + field.length) v') (hne : v'.bytes ≠ v.bytes) :
    ∃ w', (⟨name, .checksum field algorithm placement⟩ : Layer).enter v' = .ok w' ∧
      (placement = .before → w' = w) ∧ (placement = .after → w' = v') := by
  cases placement with
  | after => exact ⟨v', rfl, nofun, fun _ => rfl⟩
  | before =>
    obtain ⟨b, c, rest, ht, rfl, hstart⟩ := hp.enter_before hw
    rw [hstart] at hv
    obtain ⟨b', c', ht', hc', -⟩ := hp.read_altered (n := 0) hv hne ht
    refine ⟨v'.behind rest, bind_eq_ok.2 ⟨_, View.read_of_done ht'.read, rfl⟩, fun _ => ?_, nofun⟩
    have htaken : taken v'.bytes rest = taken v.bytes rest :=
      ht'.taken_eq.trans (hc'.trans ht.taken_eq.symm)
    simp only [View.behind, htaken, hv.start, hv.supplied]

/-- **A checksum with other bytes in its field does not match** if the layers inside give the same,
and its layer consumes as much as before. -/
theorem IntField.Plain.leave_altered (hp : field.Plain)
    (hw : (⟨name, .checksum field algorithm placement⟩ : Layer).enter v = .ok w)
    (hw' : (⟨name, .checksum field algorithm placement⟩ : Layer).enter v' = .ok w')
    (hv : v.SameOutside (checksumStart field placement w n)
      (checksumStart field placement w n + field.length) v') (hne : v'.bytes ≠ v.bytes)
    (h : (⟨name, .checksum field algorithm placement⟩ : Layer).leave v w (.done x n) =
      .done x k) :
    ((⟨name, .checksum field algorithm placement⟩ : Layer).leave v' w' (.done x n)).IsMismatch
      x k := by
  cases placement with
  | after =>
    obtain ⟨-, hfield⟩ := hp.field_inside hw h
    cases hw
    cases hw'
    simp only [Layer.leave] at h
    obtain ⟨b, c, rest, ht, hcompare⟩ := withInt_inv h
    obtain ⟨heq, -, rfl⟩ := LayerRead.compare_inv hcompare
    obtain ⟨b', c', ht', -, hmask⟩ := hp.read_altered hv hne ht
    rw [ht.taken_eq, hp.length_eq ht]
    refine hp.leave_wrong ?_ ?_
    · simp only [checksumStart] at hfield
      rw [hv.length]
      omega
    · rw [ht'.read, hv.take (Nat.le_refl _), heq]
      exact hmask
  | before =>
    obtain ⟨w₁, hw₁, hsame, -⟩ := hp.enter_altered hw hv hne
    cases hw'.symm.trans hw₁
    obtain rfl := hsame rfl
    obtain ⟨b, c, rest, ht, -, hstart⟩ := hp.enter_before hw
    rw [hstart] at hv
    obtain ⟨b', c', ht', -, hmask⟩ := hp.read_altered (n := 0) hv hne ht
    obtain ⟨heq, -, rfl⟩ := LayerRead.compare_inv h
    have hvalue : (field.read v.bytes).value.value = b := congrArg (·.value.value) ht.read
    have hvalue' : (field.read v'.bytes).value.value = b' := congrArg (·.value.value) ht'.read
    rw [hvalue] at heq
    simp only [Layer.leave, hvalue', hv.start]
    unfold LayerRead.compare
    rw [heq, if_neg hmask]
    exact ⟨_, _, rfl⟩

/-- Views of other bytes differ if they have all that may differ. -/
theorem View.bytes_ne_of_input {src src' : Bytes} (hv : v.Inside (.ofInput src))
    (hv' : v'.Inside (.ofInput src')) (hsame : (View.ofInput src).SameOutside s e (.ofInput src'))
    (hview : v.SameOutside s e v') (hs : v.start ≤ s) (he : e ≤ v.start + v.bytes.length)
    (hne : src' ≠ src) : v'.bytes ≠ v.bytes := by
  intro heq
  refine hne (List.ext_getElem? fun i => ?_)
  by_cases hi : i < s ∨ e ≤ i
  · exact hsame.bytes i (by simpa [View.ofInput] using hi)
  · have hstart := hview.start
    have hlength := hview.length
    rw [← hv.ofInput (i := i) (by omega) (by omega), ← heq, ← hstart]
    exact (hv'.ofInput (by omega) (by omega)).symm

/-- A layer around a checksum that is altered finds that it does not match. -/
theorem readLayers_altered (hp : field.Plain)
    (hw : (⟨name, .checksum field algorithm placement⟩ : Layer).enter v = .ok w)
    (hw' : (⟨name, .checksum field algorithm placement⟩ : Layer).enter v' = .ok w')
    (hv : v.SameOutside (checksumStart field placement w n)
      (checksumStart field placement w n + field.length) v') (hne : v'.bytes ≠ v.bytes)
    (hinner : readLayers registry sized inner w.supplied message w.bytes = .done x n)
    (halike : readLayers registry sized inner w'.supplied message w'.bytes =
      readLayers registry sized inner w.supplied message w.bytes)
    (h : readLayers registry sized (⟨name, .checksum field algorithm placement⟩ :: inner)
      v.supplied message v.bytes = .done x k) :
    (readLayers registry sized (⟨name, .checksum field algorithm placement⟩ :: inner)
      v'.supplied message v'.bytes).IsMismatch x k := by
  rw [readLayers_cons rfl, hw] at h
  rw [readLayers_cons rfl, hw']
  simp only [LayerRead.ofView, readInside, halike, hinner] at h ⊢
  exact hp.leave_altered hw hw' hv hne h

theorem readLayers_checksum_isMalformed (hp : field.Plain)
    (hw : (⟨name, .checksum field algorithm placement⟩ : Layer).enter v = .ok w)
    (m : Option Message) :
    (readLayers registry sized (⟨name, .checksum field algorithm placement⟩ :: inner) v.supplied m
      v.bytes).isMalformed =
      (readLayers registry sized inner w.supplied m w.bytes).isMalformed := by
  have hl : (⟨name, .checksum field algorithm placement⟩ : Layer).PlainChecksum := by
    intro g a p hk
    cases hk
    exact hp
  rw [readLayers_cons rfl, hw]
  exact Layer.leave_isMalformed hl v w _

end

namespace Frame

/-- **A frame with one checksum altered** is a failed checksum of the message that it had, if the
checksum and those around it are plain fields: whichever checksum it is, in front of its inside or
behind it, and whatever else stands around it and in it. The extent is that of the frame, but for
the checksums behind that stand around the altered one and in no region of a size (`leftOut`).

The layers inside a checksum that stands behind them see its field. If they have a size they do not
look at it (`readLayers_behind`); otherwise they have to read alike in front of the other bytes. -/
theorem readOne_altered {f : Frame} {outer inner : List Layer} {name : String} {field : IntField}
    {algorithm : Checksum} {placement : Placement}
    (hl : f.layers = outer ++ ⟨name, .checksum field algorithm placement⟩ :: inner)
    (hp : field.Plain) (hplain : ∀ l ∈ outer, l.PlainChecksum) {src : Bytes} {x : Message}
    {k : Nat} (h : f.readOne src = .message x k) :
    ∃ w m y n, enterLayers (outer ++ [⟨name, .checksum field algorithm placement⟩])
        (.ofInput src) = .ok w ∧
      m ∈ f.messagesAt outer x.id ∧
      readLayers f.registry f.sized inner w.supplied m w.bytes = .done (some y) n ∧
      x = { y with frameBytes := src.take k } ∧
      ∀ src', src' ≠ src → (View.ofInput src).SameOutside (checksumStart field placement w n)
          (checksumStart field placement w n + field.length) (.ofInput src') →
        (placement = .after → isSized inner = false →
          ∀ w', enterLayers outer (.ofInput src') = .ok w' →
            f.ReadsAlike outer inner x.id w w') →
        ∃ k', k' + leftOut outer = k ∧
          f.readOne src' = .checksumFailure
            { x with kind := .invalid .checksumFailure, frameBytes := src'.take k' } k' := by
  obtain ⟨hexact, hpayload⟩ := outer_layers hl
  obtain ⟨y, hdone, rfl⟩ := readOne_inv h
  obtain ⟨v, -, -, -, hv, -⟩ := readOne_reaches hl h
  obtain ⟨id, haround⟩ := readLayers_around hl hplain hv
  have houter := haround src v.start v.start (.refl _ _ _) (Nat.le_refl _)
  rw [hdone] at houter
  obtain ⟨j, hj⟩ := throughLayers_done hv houter.symm
  obtain ⟨m₀, hm, hA, hmismatch⟩ := readAt_done hl hj
  obtain ⟨w, m, n, hw, hinner, hleave, hmessage⟩ := readLayers_cons_leave rfl hA
  obtain rfl := hmessage rfl
  obtain ⟨hs, he⟩ := hp.field_inside hw hleave
  refine ⟨w, m, y, n, enterLayers_append_ok.2 ⟨v, hv, enterLayers_cons_ok.2 ⟨w, hw, rfl⟩⟩, hm,
    hinner, rfl, fun src' hne hsame halike => ?_⟩
  obtain ⟨v', hv', hsame'⟩ := enterLayers_sameOutside hexact hv hs hsame
  have hne' := View.bytes_ne_of_input (enterLayers_inside hv) (enterLayers_inside hv') hsame hsame'
    hs he hne
  obtain ⟨w', hw', hbefore, hafter⟩ := hp.enter_altered hw hsame' hne'
  have halike : f.ReadsAlike outer inner y.id w w' := by
    intro q hq
    cases placement with
    | before =>
      obtain rfl := hbefore rfl
      rfl
    | after =>
      obtain rfl := hafter rfl
      cases hw
      cases hsized : isSized inner with
      | false => exact halike rfl hsized w' hv' q hq
      | true =>
        obtain ⟨front, sizeName, sizeField, max, core, rfl⟩ := exists_size_layer hsized
        rw [← List.cons_append, ← List.append_assoc] at hl
        obtain ⟨hexact, hpayload⟩ := outer_layers hl
        exact readLayers_behind
          (fun l hm => hexact l (List.mem_append_right _ (.tail _ hm)))
          (fun l hm => hpayload l (List.mem_append_right _ (.tail _ hm))) hinner (Nat.le_refl _)
          hsame' q
  have hA' := readLayers_altered hp hw hw' hsame' hne' hinner (halike m hm) hA
  have hread' := hmismatch v' hA' fun q hq => by
    rw [readLayers_checksum_isMalformed hp hw', readLayers_checksum_isMalformed hp hw,
      halike q hq]
  obtain ⟨k', hk', hk⟩ := throughLayers_mismatch hexact hplain hsame hv hs hj houter.symm
    (fun v₁ hv₁ => by cases hv'.symm.trans hv₁; exact hread') (Nat.add_zero _)
  rw [← haround src' _ _ hsame hs] at hk'
  exact ⟨k', hk, by rw [readOne_of_isMismatch hk']⟩

end Frame

theorem envelope_plain : ∀ l ∈ envelope.layers, l.PlainChecksum := by
  intro l hl field algorithm placement hk
  rcases hl with _ | ⟨_, _ | ⟨_, _ | ⟨_, _ | ⟨_, _ | ⟨_, _ | ⟨_, _ | ⟨_, ⟨⟩⟩⟩⟩⟩⟩⟩⟩
  all_goals cases hk
  all_goals exact ⟨rfl, rfl⟩

set_option maxRecDepth 20000 in
/-- The last byte is the sum of the one in front of it, which is all that the payload has. -/
theorem envelope_readOne_altered :
    ∃ x, envelope.readOne [0x7e, 5, 2, 3, 1, 8, 8] = .message x 7 ∧ ∃ z,
      envelope.readOne [0x7e, 5, 2, 3, 1, 8, 9] = .checksumFailure z 7 ∧
        z.frameBytes = [0x7e, 5, 2, 3, 1, 8, 9] := by
  let x : Message := { ping 8 with
    transport := [⟨"hops", .int (octet 3)⟩]
    frameBytes := [0x7e, 5, 2, 3, 1, 8, 8] }
  have hread : envelope.readOne [0x7e, 5, 2, 3, 1, 8, 8] = .message x 7 := rfl
  let outer : List Layer := [⟨"sync", .sync (octet 0x7e)⟩, ⟨"size", .size (octet 0) none⟩,
    ⟨"front", .checksum (octet 0) .xor .before⟩, ⟨"hops", .transport (octet 3) false⟩,
    ⟨"id", .id (.int (octet 0))⟩]
  have hl : envelope.layers =
      outer ++ ⟨"back", .checksum (octet 0) .sum .after⟩ :: [⟨"payload", .payload⟩] := rfl
  obtain ⟨w, m, y, n, hw, hm, hinner, -, haltered⟩ :=
    Frame.readOne_altered hl ⟨rfl, rfl⟩
      (fun l hl => envelope_plain l (List.mem_append_left _ hl)) hread
  obtain rfl : ⟨5, [8, 8], [⟨"hops", octet 3, false⟩]⟩ = w := Except.ok.inj hw
  have hping {m : Option Message} (hm : m ∈ envelope.messagesAt outer x.id) : m = some (ping 0) :=
    List.mem_singleton.1 hm
  obtain rfl := hping hm
  obtain rfl : 1 = n := by
    injection hinner
  have hsame : (View.ofInput [0x7e, 5, 2, 3, 1, 8, 8]).SameOutside 6 7
      (.ofInput [0x7e, 5, 2, 3, 1, 8, 9]) := View.sameOutside_set [0x7e, 5, 2, 3, 1, 8, 8] 6 9
  have halike : ∀ w', enterLayers outer (.ofInput [0x7e, 5, 2, 3, 1, 8, 9]) = .ok w' →
      envelope.ReadsAlike outer [⟨"payload", .payload⟩] x.id
        ⟨5, [8, 8], [⟨"hops", octet 3, false⟩]⟩ w' := by
    intro w' hw' q hq
    obtain rfl := hping hq
    obtain rfl : ⟨5, [8, 9], [⟨"hops", octet 3, false⟩]⟩ = w' := Except.ok.inj hw'
    rfl
  obtain ⟨k, hk, hfailure⟩ := haltered _ (by decide) hsame fun _ _ => halike
  obtain rfl : k = 7 := hk
  exact ⟨x, hread, _, hfailure, rfl⟩

/-- Two checksums around a region. -/
def twiceCheckedFrame : Frame where
  name := "Twice"
  layers := [⟨"outer", .checksum (octet 0) .xor .after⟩, ⟨"inner", .checksum (octet 0) .sum .after⟩,
    ⟨"size", .size (octet 0) none⟩, ⟨"id", .id (.int (octet 0))⟩, ⟨"payload", .payload⟩]
  registry := { prototypes := [ping 0] }
  wellFormed := rfl

/-- The inner sum is altered, and the outer one is left out. -/
theorem twiceCheckedFrame_altered :
    (∃ x, twiceCheckedFrame.readOne [2, 1, 5, 8, 14] = .message x 5) ∧
      ∃ z, twiceCheckedFrame.readOne [2, 1, 5, 9, 14] = .checksumFailure z 4 :=
  ⟨⟨_, rfl⟩, _, rfl⟩

end WireProtocol
