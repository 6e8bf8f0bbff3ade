import WireProtocol.Proofs.Checksum
import WireProtocol.Proofs.Frame.Dispatch
import WireProtocol.Proofs.Frame.Nesting
import WireProtocol.Proofs.Frame.Prediction

/-!
# Checksums that do not match

A mismatch passes out through the layers around it, and each gives it the extent that it would have
itself, but for checksums behind: these are no longer looked at, and their bytes are left out
(`throughLayers_mismatch`). A checksum around a region is compared only once the content of the
region was read (`Frame.readOne_wrongChecksum`).
-/

set_option autoImplicit false

namespace WireProtocol

/-! ## Plain fields -/

/-- The field takes a fixed count of bytes and any value. -/
structure IntField.Plain (f : IntField) : Prop where
  isFixed : f.format.width.isFixed = true
  lenient : f.strict = false

namespace IntField.Plain

variable {f : IntField} {src src' c c' rest rest' : Bytes} {v v' : Int64}

theorem width_eq (h : f.Plain) : ∃ bounds, f.format.width = .fixed f.length bounds := by
  cases hw : f.format.width with
  | var min max bounds =>
    have hfixed := h.isFixed
    rw [hw] at hfixed
    cases hfixed
  | fixed n bounds =>
    have hlength : f.length = n := by
      rw [IntField.length, IntFormat.encodedLength, hw]
    subst hlength
    exact ⟨bounds, rfl⟩

/-- Reading the field fails only for lack of bytes. -/
theorem error_eq (h : f.Plain) (src : Bytes) :
    (f.read src).error =
      if src.length < f.length then some (.notEnoughData (f.length - src.length)) else none := by
  obtain ⟨bounds, hw⟩ := h.width_eq
  have hchecked (w : Int64) (rest : Bytes) :
      (f.setWire w).checked rest = .done (f.setWire w) rest :=
    IntField.checked_done (f := f.setWire w) (fun hs => absurd (h.lenient.symm.trans hs) nofun) rest
  unfold IntField.read
  simp only [hw, withBytes, Bytes.take?_eq]
  by_cases hl : src.length < f.length
  · simp only [hl, if_true]
    rfl
  · simp only [hl, if_false, hchecked]
    rfl

theorem length_eq (h : f.Plain) (ht : TakesInt f src v c rest) : c.length = f.length := by
  rw [IntField.length_write ht.write, (rigid_of_isFixed h.isFixed).length_withValue]

/-- **The bits that are compared** tell the bytes of the field. -/
theorem eq_of_masked (h : f.Plain) (ht : TakesInt f src v c rest)
    (ht' : TakesInt f src' v' c' rest')
    (hm : v.toUInt64 &&& checksumMask f = v'.toUInt64 &&& checksumMask f) : c = c' := by
  obtain ⟨bounds, hw⟩ := h.width_eq
  obtain ⟨-, rfl⟩ := IntFormat.encode_fixed (f := (f.withValue v).format) hw ht.write
  obtain ⟨-, rfl⟩ := IntFormat.encode_fixed (f := (f.withValue v').format) hw ht'.write
  refine Bytes.ofNat_congr _ ?_
  have hmin : min (8 * f.length) 64 = 8 * f.length := by omega
  have hd : 2 ^ (8 * f.length) ∣ 2 ^ 64 := Nat.pow_dvd_pow 2 (by omega)
  have hwire (v : Int64) : (f.withValue v).wire.toUInt64 = v.toUInt64 + f.offset.toUInt64 :=
    Int64.toUInt64_add _ _
  rw [checksumMask, and_lowBits_inj, hmin] at hm
  rw [Bytes.pow_256, hwire, hwire, UInt64.toNat_add, UInt64.toNat_add, Nat.mod_mod_of_dvd _ hd,
    Nat.mod_mod_of_dvd _ hd]
  exact Nat.ModEq.add_right f.offset.toUInt64.toNat hm

end IntField.Plain

/-! ## Layers around a mismatch -/

/-- A checksum did not match, with that message and extent. -/
def LayerRead.IsMismatch (r : LayerRead) (message : Option Message) (extent : Nat) : Prop :=
  ∃ computed received, r = .mismatch computed received message extent

/-- A checksum, if the layer is one, is a plain field. -/
def Layer.PlainChecksum (l : Layer) : Prop :=
  ∀ field algorithm placement, l.kind = .checksum field algorithm placement → field.Plain

/-- The count of bytes that the extent of a mismatch inside the layer leaves out of what the layer
consumes, if the layers inside leave out `n`: a size counts all bytes, and a checksum behind is not
looked at. -/
def Layer.leftOut (l : Layer) (n : Nat) : Nat :=
  match l.kind with
  | .size _ _ => 0
  | .checksum field _ .after => field.length + n
  | _ => n

/-- The count of bytes that the extent of a mismatch inside the layers leaves out. -/
def leftOut (ls : List Layer) : Nat := ls.foldr Layer.leftOut 0

section
variable {registry : Registry} {sized : Bool} {l : Layer} {ls outer : List Layer}
  {v v' w w' : View} {message x : Option Message} {a j k n s e : Nat}
  {r : LayerRead} {next next' : View → LayerRead}

theorem Layer.leave_mismatch (hp : l.PlainChecksum) (hw : l.enter v = .ok w)
    (hv : v.SameOutside s e v') (hsame : w.SameOutside s e w')
    (h : l.leave v w (.done x k) = .done x n) (hr : r.IsMismatch x j) (hj : j + a = k) :
    ∃ j', (l.leave v' w' r).IsMismatch x j' ∧ j' + l.leftOut a = n := by
  obtain ⟨computed, received, rfl⟩ := hr
  obtain ⟨name, kind⟩ := l
  cases kind with
  | sync field | id field | transport field version | payload =>
    cases h
    refine ⟨_, ⟨computed, received, rfl⟩, ?_⟩
    simp only [Layer.leftOut, hv.start, hsame.start]
    omega
  | size field max =>
    cases h
    refine ⟨_, ⟨computed, received, rfl⟩, ?_⟩
    simp only [Layer.leftOut, hv.start, hsame.start, hsame.length]
    omega
  | checksum field algorithm placement =>
    cases placement with
    | before =>
      obtain ⟨-, -, rfl⟩ := LayerRead.compare_inv h
      refine ⟨_, ⟨computed, received, rfl⟩, ?_⟩
      simp only [Layer.leftOut, hv.start, hsame.start]
      omega
    | after =>
      cases hw
      simp only [Layer.leave] at h
      obtain ⟨b, c, rest, ht, hcompare⟩ := withInt_inv h
      obtain ⟨-, -, rfl⟩ := LayerRead.compare_inv hcompare
      refine ⟨_, ⟨computed, received, rfl⟩, ?_⟩
      have hc := (hp field algorithm .after rfl).length_eq ht
      simp only [Layer.leftOut, hv.start, hsame.start, ht.taken_eq]
      omega

/-- **A mismatch passes out through layers**: its extent is that of the frame less what these leave
out. -/
theorem throughLayers_mismatch (hid : ∀ l ∈ ls, l.ExactId) (hp : ∀ l ∈ ls, l.PlainChecksum)
    (hv : v.SameOutside s e v') (hw : enterLayers ls v = .ok w) (hs : w.start ≤ s)
    (hnext : next w = .done x n) (h : throughLayers ls v next = .done x k)
    (hnext' : ∀ w', enterLayers ls v' = .ok w' → (next' w').IsMismatch x j) (hj : j + a = n) :
    ∃ k', (throughLayers ls v' next').IsMismatch x k' ∧
      k' + ls.foldr Layer.leftOut a = k := by
  induction ls generalizing v v' k with
  | nil =>
    cases hw
    cases hnext.symm.trans h
    exact ⟨j, hnext' v' rfl, hj⟩
  | cons l ls ih =>
    obtain ⟨u, hu, hw⟩ := enterLayers_cons_ok.1 hw
    have hle := (enterLayers_inside hw).start_le
    obtain ⟨u', hu', hsame⟩ := Layer.enter_sameOutside (hid l (.head _)) hu (by omega) hv
    simp only [throughLayers, hu, hu', LayerRead.ofView] at h ⊢
    obtain ⟨k₁, hk₁, -⟩ := Layer.leave_done h
    rw [hk₁] at h
    obtain ⟨j₁, hj₁, heq⟩ := ih (fun l hl => hid l (.tail _ hl)) (fun l hl => hp l (.tail _ hl))
      hsame hw hk₁ fun w' hw' => hnext' w' (enterLayers_cons_ok.2 ⟨u', hu', hw'⟩)
    exact Layer.leave_mismatch (hp l (.head _)) hu hv hsame h hj₁ heq

/-- What is malformed inside a layer is so outside, and nothing else. -/
theorem Layer.leave_isMalformed (hp : l.PlainChecksum) (v w : View) (r : LayerRead) :
    (l.leave v w r).isMalformed = r.isMalformed := by
  have hshift (n : Nat) (r : LayerRead) : (r.shift n).isMalformed = r.isMalformed := by
    cases r <;> rfl
  have hcompare (c r : UInt64) (m : Option Message) (n : Nat) :
      (LayerRead.compare c r m n).isMalformed = false := by
    unfold LayerRead.compare
    split <;> rfl
  obtain ⟨name, kind⟩ := l
  cases kind with
  | sync field | id field | transport field version | payload => exact hshift _ r
  | size field max =>
    refine (hshift _ _).trans ?_
    cases r with
    | failed e => cases e <;> rfl
    | _ => rfl
  | checksum field algorithm placement =>
    cases r with
    | mismatch computed received m extent | failed e => rfl
    | done m n =>
      cases placement with
      | before => exact hcompare _ _ _ _
      | after =>
        simp only [Layer.leave, withInt]
        cases he : (field.read (v.bytes.drop n)).error with
        | none => exact hcompare _ _ _ _
        | some e =>
          rw [(hp field algorithm .after rfl).error_eq] at he
          split at he <;> cases he
          rfl

theorem throughLayers_isMalformed (hp : ∀ l ∈ ls, l.PlainChecksum)
    (hw : enterLayers ls v = .ok w) :
    (throughLayers ls v next).isMalformed = (next w).isMalformed := by
  induction ls generalizing v with
  | nil =>
    cases hw
    rfl
  | cons l ls ih =>
    obtain ⟨u, hu, hw⟩ := enterLayers_cons_ok.1 hw
    simp only [throughLayers, hu, LayerRead.ofView]
    rw [Layer.leave_isMalformed (hp l (.head _)), ih (fun l hl => hp l (.tail _ hl)) hw]

end

theorem LayerRead.IsMismatch.isMalformed {r : LayerRead} {message : Option Message} {extent : Nat}
    (h : r.IsMismatch message extent) : r.isMalformed = false := by
  obtain ⟨computed, received, rfl⟩ := h
  rfl

theorem Frame.readOne_of_isMismatch {f : Frame} {src : Bytes} {y : Message} {k : Nat}
    (h : (readLayers f.registry f.sized f.layers [] none src).IsMismatch (some y) k) :
    f.readOne src = .checksumFailure
      { y with kind := .invalid .checksumFailure, frameBytes := src.take k } k := by
  obtain ⟨computed, received, h⟩ := h
  unfold readOne
  rw [h]

/-- A checksum behind its inside that is not that of the bytes in front does not match. -/
theorem IntField.Plain.leave_wrong {field : IntField} {name : String} {algorithm : Checksum}
    {v w : View} {n : Nat} {x : Option Message} (hp : field.Plain)
    (hl : n + field.length ≤ v.bytes.length)
    (hwrong : algorithm.compute (w.bytes.take n) &&& checksumMask field ≠
      (field.read (v.bytes.drop n)).value.value.toUInt64 &&& checksumMask field) :
    ((⟨name, .checksum field algorithm .after⟩ : Layer).leave v w (.done x n)).IsMismatch x
      (n + field.length) := by
  have hok : (field.read (v.bytes.drop n)).error = none := by
    rw [hp.error_eq, List.length_drop, if_neg (by omega)]
  obtain ⟨b, c, rest, ht⟩ := TakesInt.of_ok hok
  rw [ht.read] at hwrong
  simp only [Layer.leave, withInt, ht.read, ht.taken_eq, hp.length_eq ht, Outcome.done]
  unfold LayerRead.compare
  exact ⟨_, _, if_neg hwrong⟩

/-! ## A wrong checksum around a region -/

/-- The message of a frame is read, or what stands for it fails to be. -/
theorem readLayers_content (registry : Registry) (sized : Bool) (idName payloadName : String)
    (id : Field) (v : View) (message : Option Message) :
    (∃ y n, readLayers registry sized [⟨idName, .id id⟩, ⟨payloadName, .payload⟩] v.supplied
      message v.bytes = .done (some y) n) ∨
    ∃ e, readLayers registry sized [⟨idName, .id id⟩, ⟨payloadName, .payload⟩] v.supplied
      message v.bytes = .failed e := by
  rw [readLayers_cons rfl]
  cases (⟨idName, .id id⟩ : Layer).enter v with
  | error e => exact .inr ⟨e, rfl⟩
  | ok w =>
    simp only [LayerRead.ofView, Layer.leave, readInside]
    cases htypes : registry.typesFor sized (v.idRead id) with
    | nil => exact .inr ⟨_, rfl⟩
    | cons m ms =>
      obtain ⟨-, p, -, -, htaken, -⟩ := dispatch_taken (v.idRead id)
        (fun m => readLayers registry sized [⟨payloadName, .payload⟩] w.supplied (some m) w.bytes)
        (List.cons_ne_nil m ms)
      rw [htaken]
      simp only [readLayers, readPayload]
      split
      · exact .inr ⟨_, rfl⟩
      · exact .inl ⟨_, _, rfl⟩

theorem LayerRead.inRegion_failed (e : CodecError) (len : Nat) :
    ∃ e', (LayerRead.failed e).inRegion len = .failed e' ∧
      ∀ missing, e' ≠ .notEnoughData missing := by
  cases e <;> exact ⟨_, rfl, nofun⟩

theorem Frame.readOne_of_failed {f : Frame} {src : Bytes} {e : CodecError}
    (h : readLayers f.registry f.sized f.layers [] none src = .failed e)
    (he : ∀ missing, e ≠ .notEnoughData missing) : f.readOne src = .garbage (.codec e) := by
  unfold readOne
  rw [h]
  cases e with
  | notEnoughData missing => exact absurd rfl (he missing)
  | _ => rfl

theorem Layer.leave_size (name : String) (field : IntField) (max : Option Nat) (s n : Nat)
    (bytes region : Bytes) (supplied : List Supplied) (r : LayerRead) :
    (⟨name, .size field max⟩ : Layer).leave ⟨s, bytes, supplied⟩ ⟨s + n, region, supplied⟩ r =
      (r.inRegion region.length).shift n := by
  simp [Layer.leave]

/-- The input starts with the marker and with a region behind its length, which is allowed. -/
structure StartsRegion (marker size : IntField) (max : Option Nat) (v : Int64)
    (src mark count region rest : Bytes) : Prop where
  mark : TakesInt marker src marker.default mark (count ++ region ++ rest)
  count : TakesInt size (count ++ region ++ rest) v count (region ++ rest)
  nonneg : ¬ v < 0
  length : region.length = v.toInt.toNat
  allowed : max.any (· < region.length) = false

section
variable {f : Frame} {syncName checkName sizeName idName payloadName : String}
  {marker check size : IntField} {algorithm : Checksum} {max : Option Nat} {id : Field}
  {v : Int64} {src mark count region rest : Bytes}

theorem StartsRegion.enter_sync (h : StartsRegion marker size max v src mark count region rest) :
    (⟨syncName, .sync marker⟩ : Layer).enter (.ofInput src) =
      .ok ⟨mark.length, count ++ region ++ rest, []⟩ := by
  refine bind_eq_ok.2 ⟨_, View.read_of_done h.mark.read, (if_pos rfl).trans ?_⟩
  simp only [View.behind, View.ofInput, h.mark.taken_eq, Nat.zero_add]

theorem StartsRegion.enter_size (h : StartsRegion marker size max v src mark count region rest) :
    (⟨sizeName, .size size max⟩ : Layer).enter ⟨mark.length, count ++ region ++ rest, []⟩ =
      .ok ⟨mark.length + count.length, region, []⟩ := by
  refine bind_eq_ok.2 ⟨_, View.read_of_done h.count.read, ?_⟩
  have hvalue : (size.withValue v).value = v := rfl
  simp only [hvalue, ← h.length]
  rw [if_neg h.nonneg, if_neg (by simp [h.allowed]), if_neg (by simp [View.behind])]
  simp only [View.behind, View.restrict, h.count.taken_eq, List.take_left]

/-- What the frame reads is what stands in the region, as seen from in front of the marker. -/
theorem StartsRegion.readLayers_eq (h : StartsRegion marker size max v src mark count region rest)
    (hl : f.layers = [⟨syncName, .sync marker⟩, ⟨checkName, .checksum check algorithm .after⟩,
      ⟨sizeName, .size size max⟩, ⟨idName, .id id⟩, ⟨payloadName, .payload⟩]) :
    readLayers f.registry f.sized f.layers [] none src =
      ((⟨checkName, .checksum check algorithm .after⟩ : Layer).leave
        ⟨mark.length, count ++ region ++ rest, []⟩ ⟨mark.length, count ++ region ++ rest, []⟩
        (((readLayers f.registry f.sized [⟨idName, .id id⟩, ⟨payloadName, .payload⟩] [] none
          region).inRegion region.length).shift count.length)).shift mark.length := by
  have hcheck (u : View) :
      (⟨checkName, .checksum check algorithm .after⟩ : Layer).enter u = .ok u := rfl
  let outer : List Layer := [⟨syncName, .sync marker⟩,
    ⟨checkName, .checksum check algorithm .after⟩, ⟨sizeName, .size size max⟩]
  have hread : readLayers f.registry f.sized (outer ++ [⟨idName, .id id⟩, ⟨payloadName, .payload⟩])
      (View.ofInput src).supplied none (View.ofInput src).bytes =
        throughLayers outer (.ofInput src) fun w => readLayers f.registry f.sized
          [⟨idName, .id id⟩, ⟨payloadName, .payload⟩] w.supplied none w.bytes :=
    readLayers_append (by simp [outer, Layer.isId]) (by simp [outer, Layer.isPayload])
  rw [hl]
  refine hread.trans ?_
  simp only [outer, throughLayers, h.enter_sync, hcheck, h.enter_size, LayerRead.ofView,
    Layer.leave_size]
  rfl

/-- **A wrong checksum around a region** is reported exactly if the layers in the region are read:
then the frame is all bytes up to the end of the checksum, and its message is what they gave. If
they are not, the input is garbage, because they are read before the checksum is compared. -/
theorem Frame.readOne_wrongChecksum
    (hl : f.layers = [⟨syncName, .sync marker⟩, ⟨checkName, .checksum check algorithm .after⟩,
      ⟨sizeName, .size size max⟩, ⟨idName, .id id⟩, ⟨payloadName, .payload⟩])
    (hcheck : check.Plain) (h : StartsRegion marker size max v src mark count region rest)
    (henough : check.length ≤ rest.length)
    (hwrong : algorithm.compute (count ++ region) &&& checksumMask check ≠
      (check.read rest).value.value.toUInt64 &&& checksumMask check) :
    ((readLayers f.registry f.sized (f.layers.drop 3) [] none region).isDone = true →
      ∃ y n, readLayers f.registry f.sized (f.layers.drop 3) [] none region = .done (some y) n ∧
        f.readOne src = .checksumFailure
          { y with
            kind := .invalid .checksumFailure
            frameBytes := src.take ((mark ++ count ++ region).length + check.length) }
          ((mark ++ count ++ region).length + check.length)) ∧
    ((readLayers f.registry f.sized (f.layers.drop 3) [] none region).isDone = false →
      ∃ e, f.readOne src = .garbage (.codec e)) := by
  have hinner : f.layers.drop 3 = [⟨idName, .id id⟩, ⟨payloadName, .payload⟩] := by
    rw [hl]
    rfl
  have hread := h.readLayers_eq hl
  rw [← hinner] at hread
  have hcases := readLayers_content f.registry f.sized idName payloadName id ⟨0, region, []⟩ none
  rw [← hinner] at hcases
  rcases hcases with ⟨y, n, hcontent⟩ | ⟨e, hcontent⟩
  · replace hcontent : readLayers f.registry f.sized (f.layers.drop 3) [] none region =
      .done (some y) n := hcontent
    rw [hcontent] at hread ⊢
    refine ⟨fun _ => ⟨y, n, rfl, ?_⟩, fun hdone => absurd hdone.symm Bool.false_ne_true⟩
    have hmismatch : ((⟨checkName, .checksum check algorithm .after⟩ : Layer).leave
        ⟨mark.length, count ++ region ++ rest, []⟩ ⟨mark.length, count ++ region ++ rest, []⟩
        (.done (some y) (count ++ region).length)).IsMismatch (some y)
          ((count ++ region).length + check.length) := by
      refine hcheck.leave_wrong ?_ ?_
      · simp only [List.length_append]
        omega
      · simp only [List.take_left, List.drop_left]
        exact hwrong
    obtain ⟨computed, received, hmismatch⟩ := hmismatch
    have htotal : (mark ++ count ++ region).length + check.length =
        mark.length + ((count ++ region).length + check.length) := by
      simp only [List.length_append]
      omega
    rw [htotal]
    refine readOne_of_isMismatch ⟨computed, received, hread.trans ?_⟩
    rw [List.length_append] at hmismatch ⊢
    simp only [LayerRead.inRegion, LayerRead.shift, hmismatch]
  · replace hcontent : readLayers f.registry f.sized (f.layers.drop 3) [] none region =
      .failed e := hcontent
    rw [hcontent] at hread ⊢
    refine ⟨fun hdone => absurd hdone Bool.false_ne_true, fun _ => ?_⟩
    obtain ⟨e', he', hne⟩ := LayerRead.inRegion_failed e region.length
    rw [he'] at hread
    exact ⟨e', readOne_of_failed hread hne⟩

end

/-- A sum around a region of a declared size. -/
def markedFrame : Frame where
  name := "Marked"
  layers := [⟨"sync", .sync (octet 0x7e)⟩, ⟨"sum", .checksum (octet 0) .sum .after⟩,
    ⟨"size", .size (octet 0) none⟩, ⟨"id", .id (.int (octet 0))⟩, ⟨"payload", .payload⟩]
  registry := { prototypes := [flag] }
  wellFormed := rfl

set_option maxRecDepth 20000 in
/-- The flag is read, and the sum of the three bytes around it is not five. -/
theorem markedFrame_readOne_wrongChecksum :
    ∃ y, markedFrame.readOne [0x7e, 2, 1, 1, 5, 0x7e] = .checksumFailure y 5 ∧
      y.frameBytes = [0x7e, 2, 1, 1, 5] := by
  have hstarts : StartsRegion (octet 0x7e) (octet 0) none 2 [0x7e, 2, 1, 1, 5, 0x7e] [0x7e] [2]
      [1, 1] [5, 0x7e] := ⟨⟨rfl, rfl, rfl⟩, ⟨rfl, rfl, rfl⟩, by decide, rfl, rfl⟩
  have h := markedFrame.readOne_wrongChecksum rfl ⟨rfl, rfl⟩ hstarts (by decide) (by decide)
  obtain ⟨y, n, -, hread⟩ := h.1 rfl
  exact ⟨_, hread, rfl⟩

/-- The sum is wrong as well, but the byte in the place of the flag is none. -/
theorem markedFrame_garbage :
    StartsRegion (octet 0x7e) (octet 0) none 2 [0x7e, 2, 1, 7, 4] [0x7e] [2] [1, 7] [4] ∧
      Checksum.compute .sum ([2] ++ [1, 7]) &&& checksumMask (octet 0) ≠
        ((octet 0).read [4]).value.value.toUInt64 &&& checksumMask (octet 0) ∧
      markedFrame.readOne [0x7e, 2, 1, 7, 4] =
        .garbage (.codec (.invalidData (.outsideRanges 7))) :=
  ⟨⟨⟨rfl, rfl, rfl⟩, ⟨rfl, rfl, rfl⟩, by decide, rfl, rfl⟩, by decide, rfl⟩

end WireProtocol
