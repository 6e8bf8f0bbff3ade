import WireProtocol.Proofs.Checksum
import WireProtocol.Proofs.Frame.Nesting
import WireProtocol.Proofs.Frame.RoundTrip

/-!
# Corrupted bytes in a region

A checksum behind a region of declared size covers the region whatever stands in it: the bytes that
a layer consumes around a region do not depend on the bytes in it (`readLayers_extent_eq`). So the
checksum is computed over the same stretch of the input and compared with the same field when a byte
of the region is changed, and the change shows in it (`Checksum.compute_ne_of_byte`). Which message
types are tried, and what they find in the region, does not matter.
-/

set_option autoImplicit false

namespace WireProtocol

theorem TakesInt.value_eq {field : IntField} {src c c' rest rest' : Bytes} {v v' : Int64}
    (h : TakesInt field src v c rest) (h' : TakesInt field src v' c' rest') : v = v' :=
  congrArg (fun o => o.value.value) (h.read.symm.trans h'.read)

section
variable {registry : Registry} {sized : Bool} {between inner : List Layer}
  {name sizeName : String} {field sizeField : IntField} {algorithm : Checksum} {max : Option Nat}
  {v v' region : View}

/-- The layers inside a checksum do not go through with one byte of a region changed. -/
theorem readLayers_after_corrupted {i k k' : Nat} {message message' x x' : Option Message}
    (hid : ∀ l ∈ between, l.ExactId) (hp : ∀ l ∈ between, l.isPayload = false)
    (hn : algorithm.digestLength ≤ field.length)
    (hregion : enterLayers (between ++ [⟨sizeName, .size sizeField max⟩]) v = .ok region)
    (hi : region.start ≤ i) (hi' : i < region.start + region.bytes.length)
    (hv : v.SameOutside i (i + 1) v') (hne : v'.bytes[i - v.start]? ≠ v.bytes[i - v.start]?)
    (h : readLayers registry sized (⟨name, .checksum field algorithm .after⟩ ::
      (between ++ ⟨sizeName, .size sizeField max⟩ :: inner)) v.supplied message v.bytes =
        .done x k) :
    readLayers registry sized (⟨name, .checksum field algorithm .after⟩ ::
      (between ++ ⟨sizeName, .size sizeField max⟩ :: inner)) v'.supplied message' v'.bytes ≠
        .done x' k' := by
  intro h'
  obtain ⟨r, c, rest, n, ht, heq, hinner, -⟩ := readLayers_after_inv h
  obtain ⟨r', c', rest', n', ht', heq', hinner', -⟩ := readLayers_after_inv h'
  -- both runs find the checksum behind the same bytes
  obtain ⟨rfl, hend⟩ := readLayers_extent_eq hid hp hregion hi (by omega) hv hinner hinner'
  have hstart := (enterLayers_inside hregion).start_le
  rw [hv.drop (by omega)] at ht'
  obtain rfl := ht.value_eq ht'
  have hlength := readLayers_done_le hinner
  refine algorithm.compute_ne_of_getElem? hn (i := i - v.start) ?_ ?_ ?_ (fun j hj => ?_)
    (heq.trans heq'.symm)
  · rw [List.length_take]
    omega
  · rw [List.length_take, List.length_take, hv.length]
  · rwa [List.getElem?_take_of_lt (by omega), List.getElem?_take_of_lt (by omega)]
  · rw [List.getElem?_take, List.getElem?_take, hv.bytes j (by omega)]

end

theorem View.sameOutside_set (src : Bytes) (i : Nat) (b : UInt8) :
    (View.ofInput src).SameOutside i (i + 1) (.ofInput (src.set i b)) where
  start := rfl
  supplied := rfl
  length := List.length_set
  bytes j hj := List.getElem?_set_ne (by simp only [View.ofInput] at hj; omega)

/-- A byte that a view of the input has is that of the input in its place. -/
theorem View.Inside.ofInput {v : View} {src : Bytes} (h : v.Inside (.ofInput src)) {i : Nat}
    (hi : v.start ≤ i) (hi' : i < v.start + v.bytes.length) :
    v.bytes[i - v.start]? = src[i]? := by
  rw [h.getElem? (by omega)]
  show src[v.start - 0 + (i - v.start)]? = src[i]?
  rw [show v.start - 0 + (i - v.start) = i by omega]

/-- A byte that is set to another value is seen so in its place. -/
theorem View.changed_of_set {v v' : View} {src : Bytes} {i : Nat} {b : UInt8}
    (hv : v.Inside (.ofInput src)) (hv' : v'.Inside (.ofInput (src.set i b)))
    (hsame : v.SameOutside i (i + 1) v') (hi : v.start ≤ i) (hi' : i < v.start + v.bytes.length)
    (hb : src[i]? ≠ some b) : v'.bytes[i - v.start]? ≠ v.bytes[i - v.start]? := by
  have hend : v.start + v.bytes.length ≤ 0 + src.length := hv.end_le
  have hset : v'.bytes[i - v.start]? = some b := by
    have hstart := hsame.start
    have hlength := hsame.length
    rw [← hstart, hv'.ofInput (by omega) (by omega), List.getElem?_set_self (by omega)]
  rw [hset, hv.ofInput hi hi']
  exact Ne.symm hb

/-- **A changed byte in a region is noticed**, if a checksum stands behind the region and its field
holds a digest: a frame that was read as a message is not read as a message, of any type, with one
byte of the region changed. The layers outside the checksum, those between it and the region, and
those in the region may be any. -/
theorem Frame.readOne_corrupted {f : Frame} {outer between inner : List Layer}
    {name sizeName : String} {field sizeField : IntField} {algorithm : Checksum} {max : Option Nat}
    (hl : f.layers = outer ++ ⟨name, .checksum field algorithm .after⟩ ::
      (between ++ ⟨sizeName, .size sizeField max⟩ :: inner))
    (hn : algorithm.digestLength ≤ field.length) {src : Bytes} {x : Message} {k : Nat}
    (h : f.readOne src = .message x k) :
    ∃ region, enterLayers (outer ++ ⟨name, .checksum field algorithm .after⟩ ::
        (between ++ [⟨sizeName, .size sizeField max⟩])) (.ofInput src) = .ok region ∧
      ∀ i b, region.start ≤ i → i < region.start + region.bytes.length → src[i]? ≠ some b →
        ∀ y k', f.readOne (src.set i b) ≠ .message y k' := by
  have hl' : f.layers = (outer ++ ⟨name, .checksum field algorithm .after⟩ :: between) ++
      ⟨sizeName, .size sizeField max⟩ :: inner := by
    rw [hl, List.append_assoc, List.cons_append]
  obtain ⟨hid, hp⟩ := Frame.outer_layers hl'
  have hidb : ∀ l ∈ between, l.ExactId :=
    fun l hm => hid l (List.mem_append_right _ (.tail _ hm))
  have hpb : ∀ l ∈ between, l.isPayload = false :=
    fun l hm => hp l (List.mem_append_right _ (.tail _ hm))
  -- the views of the checksum and of the layers in the region
  obtain ⟨v, m, y, n, hv, hdone⟩ := Frame.readOne_reaches hl h
  obtain ⟨w, m₁, n₁, hw, hinside, -⟩ := readLayers_cons_done rfl hdone
  cases hw
  obtain ⟨w, m₂, n₂, hw, hsize, -⟩ := readLayers_append_done hpb hinside
  obtain ⟨region, m₃, n₃, hr, -, -⟩ := readLayers_cons_done rfl hsize
  have hregion : enterLayers (between ++ [⟨sizeName, .size sizeField max⟩]) v = .ok region :=
    enterLayers_append_ok.2 ⟨w, hw, enterLayers_cons_ok.2 ⟨region, hr, rfl⟩⟩
  refine ⟨region, enterLayers_append_ok.2 ⟨v, hv, enterLayers_cons_ok.2 ⟨v, rfl, hregion⟩⟩,
    fun i b hi hi' hb y' k' h' => ?_⟩
  -- the checksum sees the changed byte in the same place
  have hin := enterLayers_inside hregion
  have hle := hin.start_le
  have hle' := hin.end_le
  obtain ⟨v', hv', hsame⟩ := enterLayers_sameOutside
    (fun l hm => hid l (List.mem_append_left _ hm)) hv (by omega) (View.sameOutside_set src i b)
  obtain ⟨v₁, m', z, n', hv₁, hdone'⟩ := Frame.readOne_reaches hl h'
  cases hv'.symm.trans hv₁
  have hne := View.changed_of_set (enterLayers_inside hv) (enterLayers_inside hv') hsame (by omega)
    (by omega) hb
  exact readLayers_after_corrupted hidb hpb hn hregion hi hi' hsame hne hdone hdone'

/-- A number of two bytes. -/
def word : IntField := .ofFormat ⟨.ofBytes 2, false, .big⟩

/-- A cyclic code behind a region and the transport value in front of it. -/
def guardedFrame : Frame where
  name := "Guarded"
  layers := [⟨"sync", .sync (octet 0x7e)⟩, ⟨"crc", .checksum word .crc16 .after⟩,
    ⟨"hops", .transport (octet 3) false⟩, ⟨"size", .size (octet 0) none⟩,
    ⟨"id", .id (.int (octet 0))⟩, ⟨"payload", .payload⟩]
  registry := { prototypes := [ping 0] }
  wellFormed := rfl

set_option maxRecDepth 20000 in
/-- The last two bytes are the code of the four in front of them. -/
theorem guardedFrame_readOne_corrupted :
    ∃ x, guardedFrame.readOne [0x7e, 9, 2, 1, 8, 0xab, 0xee] = .message x 7 ∧
      ∀ b, b ≠ 8 → ∀ y k, guardedFrame.readOne [0x7e, 9, 2, 1, b, 0xab, 0xee] ≠ .message y k := by
  let x : Message := { ping 8 with
    transport := [⟨"hops", .int ((octet 3).withValue 9)⟩]
    frameBytes := [0x7e, 9, 2, 1, 8, 0xab, 0xee] }
  have hread : guardedFrame.readOne [0x7e, 9, 2, 1, 8, 0xab, 0xee] = .message x 7 := rfl
  have hl : guardedFrame.layers = [⟨"sync", .sync (octet 0x7e)⟩] ++
      ⟨"crc", .checksum word .crc16 .after⟩ :: ([⟨"hops", .transport (octet 3) false⟩] ++
        ⟨"size", .size (octet 0) none⟩ :: [⟨"id", .id (.int (octet 0))⟩, ⟨"payload", .payload⟩]) :=
    rfl
  obtain ⟨region, hregion, hne⟩ := Frame.readOne_corrupted hl (by decide) hread
  -- the region has the id and the payload
  obtain rfl : ⟨3, [1, 8], [⟨"hops", (octet 3).withValue 9, false⟩]⟩ = region :=
    Except.ok.inj hregion
  exact ⟨x, hread, fun b hb => hne 4 b (by decide) (by decide) (by simpa using Ne.symm hb)⟩

end WireProtocol
