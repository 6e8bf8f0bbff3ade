import WireProtocol.Proofs.Field.Faults
import WireProtocol.Proofs.Frame.Mismatch

/-!
# The first type that decodes a region

A frame with a region of declared size hands the bytes behind the id to each type of that id in
turn. A type that finds them malformed is passed over. A type that runs past the end of the region
is not: its shortage of bytes leaves the id as it is, and only the size layer around turns it into a
fault. So the first type that decodes the bytes is reached exactly if no type in front of it runs
past their end (`Frame.readOne_sharedId`).
-/

set_option autoImplicit false

namespace WireProtocol

/-! ## One attempt -/

section
variable {f : Frame} {payloadName : String} {w : View} {q : Message}

theorem Frame.attempt_of_ok (hw : w.supplied = []) (h : (q.read w.bytes).error = none) :
    f.attempt [⟨payloadName, .payload⟩] w q =
      .done (some (q.read w.bytes).value) (taken w.bytes (q.read w.bytes).rest) := by
  simp only [attempt, readLayers, readPayload, hw, List.foldl_nil, h]

theorem Frame.attempt_of_error {e : CodecError} (hw : w.supplied = [])
    (h : (q.read w.bytes).error = some e) :
    f.attempt [⟨payloadName, .payload⟩] w q = .failed e := by
  simp only [attempt, readLayers, readPayload, hw, List.foldl_nil, h]

/-- A type that does not decode the bytes finds them malformed or runs past their end. -/
theorem Frame.attempt_isMalformed (hw : w.supplied = []) (h : (q.read w.bytes).error ≠ none)
    (hs : ¬ (q.read w.bytes).IsShort) :
    (f.attempt [⟨payloadName, .payload⟩] w q).isMalformed = true := by
  obtain ⟨e, he⟩ := Option.ne_none_iff_exists'.1 h
  rw [attempt_of_error hw he]
  cases q.read_fails w.bytes e he with
  | short missing => exact absurd ⟨missing, he⟩ hs
  | malformed fault => rfl

end

/-! ## All types of the id -/

/-- Of types one of which has a property there is a first one that has it. -/
theorem exists_first {P : Message → Prop} {types : List Message} (h : ∃ p ∈ types, P p) :
    ∃ before p later, types = before ++ p :: later ∧ P p ∧ ∀ q ∈ before, ¬ P q := by
  induction types with
  | nil =>
    obtain ⟨p, ⟨⟩, -⟩ := h
  | cons m ms ih =>
    by_cases hm : P m
    · exact ⟨[], m, ms, rfl, hm, nofun⟩
    · have hms : ∃ p ∈ ms, P p := by simpa [hm] using h
      obtain ⟨before, p, later, heq, hp, hbefore⟩ := ih hms
      exact ⟨m :: before, p, later, congrArg (m :: ·) heq, hp, List.forall_mem_cons.2 ⟨hm, hbefore⟩⟩

section
variable {f : Frame} {syncName sizeName idName payloadName : String} {marker size : IntField}
  {max : Option Nat} {id g : Field} {v : Int64} {src mark count region rest content : Bytes}

theorem LayerRead.inRegion_shift (r : LayerRead) (k len : Nat) :
    (r.shift k).inRegion len = r.inRegion len := by
  cases r <;> rfl

/-- What the frame reads is what is dispatched on the id, as seen from in front of the marker. -/
theorem StartsRegion.readLayers_dispatch
    (h : StartsRegion marker size max v src mark count region rest)
    (hl : f.layers = [⟨syncName, .sync marker⟩, ⟨sizeName, .size size max⟩, ⟨idName, .id id⟩,
      ⟨payloadName, .payload⟩])
    (hid : id.read region = .done g content)
    (hne : f.registry.ofId (g.value.bits?.getD 0) ≠ []) :
    ∃ w : View, w.bytes = content ∧ w.supplied = [] ∧
      readLayers f.registry f.sized f.layers [] none src =
        (((dispatch (g.value.bits?.getD 0) (f.attempt [⟨payloadName, .payload⟩] w)
          (f.registry.ofId (g.value.bits?.getD 0))).inRegion region.length).shift
            count.length).shift mark.length := by
  let u : View := ⟨mark.length + count.length, region, []⟩
  refine ⟨u.behind content, rfl, rfl, ?_⟩
  have hentered : (⟨idName, .id id⟩ : Layer).enter u = .ok (u.behind content) :=
    bind_eq_ok.2 ⟨_, View.read_of_done hid, rfl⟩
  have hidRead : u.idRead id = g.value.bits?.getD 0 := by
    rw [View.idRead, hid]
    rfl
  have houter : f.layers = [⟨syncName, .sync marker⟩, ⟨sizeName, .size size max⟩] ++
      ⟨idName, .id id⟩ :: [⟨payloadName, .payload⟩] := hl
  rw [Frame.readLayers_dispatch houter]
  simp only [throughLayers, h.enter_sync, h.enter_size, LayerRead.ofView, Layer.leave_size]
  rw [hentered, hidRead, Registry.typesFor_eq hne]
  simp only [LayerRead.inRegion_shift]
  rfl

/-- **The first type that decodes the region** is the one that the frame is read by if no type in
front of it runs past the end of the region. Otherwise the frame is thrown away. -/
theorem Frame.readOne_sharedId
    (hl : f.layers = [⟨syncName, .sync marker⟩, ⟨sizeName, .size size max⟩, ⟨idName, .id id⟩,
      ⟨payloadName, .payload⟩])
    (h : StartsRegion marker size max v src mark count region rest)
    (hid : id.read region = .done g content)
    (hdecodes : ∃ p ∈ f.registry.ofId (g.value.bits?.getD 0), (p.read content).error = none) :
    ∃ before p later, f.registry.ofId (g.value.bits?.getD 0) = before ++ p :: later ∧
      (p.read content).error = none ∧ (∀ q ∈ before, (q.read content).error ≠ none) ∧
      ((∀ q ∈ before, ¬ (q.read content).IsShort) →
        f.readOne src = .message
          { (p.read content).value with frameBytes := src.take (mark ++ count ++ region).length }
          (mark ++ count ++ region).length) ∧
      ((∃ q ∈ before, (q.read content).IsShort) →
        ∃ missing, f.readOne src = .garbage (.codec (.notAFrame (.contentOverrun missing)))) := by
  have hne : f.registry.ofId (g.value.bits?.getD 0) ≠ [] := by
    obtain ⟨p, hp, -⟩ := hdecodes
    exact List.ne_nil_of_mem hp
  obtain ⟨w, rfl, hw, hread⟩ := h.readLayers_dispatch hl hid hne
  obtain ⟨before, p, later, htypes, hp, hbefore⟩ := exists_first hdecodes
  rw [htypes] at hread
  refine ⟨before, p, later, htypes, hp, hbefore, fun hlong => ?_, fun hshort => ?_⟩
  · have hpass : ∀ q ∈ before, (f.attempt [⟨payloadName, .payload⟩] w q).isMalformed = true :=
      fun q hq => attempt_isMalformed hw (hbefore q hq) (hlong q hq)
    rw [dispatch_append _ _ hpass (by rw [attempt_of_ok hw hp]; exact nofun),
      attempt_of_ok hw hp] at hread
    have htotal : (mark ++ count ++ region).length =
        mark.length + (count.length + region.length) := by
      simp only [List.length_append, Nat.add_assoc]
    rw [htotal]
    unfold readOne
    rw [hread]
    rfl
  · obtain ⟨malformed, q, others, rfl, ⟨missing, hq⟩, hmalformed⟩ := exists_first hshort
    have hpass : ∀ q ∈ malformed, (f.attempt [⟨payloadName, .payload⟩] w q).isMalformed = true :=
      fun q hq => attempt_isMalformed hw (hbefore q (List.mem_append_left _ hq)) (hmalformed q hq)
    rw [List.append_assoc, List.cons_append,
      dispatch_append _ _ hpass (by rw [attempt_of_error hw hq]; exact nofun),
      attempt_of_error hw hq] at hread
    exact ⟨missing, readOne_of_failed hread nofun⟩

end

/-- A message of two bytes. -/
def pair : Message where
  id := 1
  name := "Pair"
  fields := [⟨"value", .int (.ofFormat ⟨.ofBytes 2, false, .big⟩)⟩]

/-- A marker and a size around messages of those types. -/
def typedFrame (types : List Message) : Frame where
  name := "Typed"
  layers := [⟨"sync", .sync (octet 0x7e)⟩, ⟨"size", .size (octet 0) none⟩,
    ⟨"id", .id (.int (octet 0))⟩, ⟨"payload", .payload⟩]
  registry := { prototypes := types }
  wellFormed := rfl

set_option maxRecDepth 20000 in
/-- The byte is no flag, so that the second type reads it, and the third one is not tried. -/
theorem typedFrame_readOne_sharedId :
    ∃ y, (typedFrame [flag, ping 0, pair]).readOne [0x7e, 2, 1, 9, 0] = .message y 4 ∧
      y.fields = (ping 9).fields ∧ y.frameBytes = [0x7e, 2, 1, 9] := by
  have hstarts : StartsRegion (octet 0x7e) (octet 0) none 2 [0x7e, 2, 1, 9, 0] [0x7e] [2] [1, 9]
      [0] := ⟨⟨rfl, rfl, rfl⟩, ⟨rfl, rfl, rfl⟩, by decide, rfl, rfl⟩
  have hid : (Field.int (octet 0)).read [1, 9] = .done (.int ((octet 0).withValue 1)) [9] := rfl
  obtain ⟨before, p, later, htypes, hp, hbefore, hread, -⟩ :=
    (typedFrame [flag, ping 0, pair]).readOne_sharedId rfl hstarts hid
      ⟨ping 0, .tail _ (.head _), rfl⟩
  replace htypes : [flag, ping 0, pair] = before ++ p :: later := htypes
  have hflag : (flag.read [9]).error = some (.invalidData (.outsideRanges 9)) := rfl
  obtain ⟨rfl, rfl⟩ : before = [flag] ∧ p = ping 0 := by
    rcases before with _ | ⟨q, _ | ⟨q', before⟩⟩
    · cases htypes
      cases hp
    · cases htypes
      exact ⟨rfl, rfl⟩
    · have hq : ping 0 = q' := (List.cons.inj (List.cons.inj htypes).2).1
      exact absurd (hq ▸ rfl) (hbefore q' (.tail _ (.head _)))
  refine ⟨_, hread fun q hq => ?_, rfl, rfl⟩
  rintro ⟨missing, hshort⟩
  cases List.mem_singleton.1 hq
  cases hflag.symm.trans hshort

/-- The second type decodes the byte that the region has left, but the first one asks for two. -/
theorem typedFrame_overrun :
    StartsRegion (octet 0x7e) (octet 0) none 2 [0x7e, 2, 1, 5] [0x7e] [2] [1, 5] [] ∧
      (Field.int (octet 0)).read [1, 5] = .done (.int ((octet 0).withValue 1)) [5] ∧
      ping 0 ∈ (typedFrame [pair, ping 0]).registry.ofId 1 ∧ ((ping 0).read [5]).error = none ∧
      (typedFrame [pair, ping 0]).readOne [0x7e, 2, 1, 5] =
        .garbage (.codec (.notAFrame (.contentOverrun 1))) :=
  ⟨⟨⟨rfl, rfl, rfl⟩, ⟨rfl, rfl, rfl⟩, by decide, rfl, rfl⟩, rfl, .tail _ (.head _), rfl, rfl⟩

end WireProtocol
