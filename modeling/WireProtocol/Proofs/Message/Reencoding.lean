import WireProtocol.Proofs.Field.Induction
import WireProtocol.Proofs.Field.Packing

/-!
# Messages are written as they were read

If a message was read, writing it gives exactly the bytes that were consumed
(`Message.write_read`). It is proved by induction over fields: every kind keeps what it read, and
the lengths and counts that are derived on writing come out as they were sent, because the regions
they measure are kept with the bytes that nothing in them read.
-/

set_option autoImplicit false

namespace WireProtocol

variable {α β : Type}

/-- The same reader with its state seen as another one that is written alike. -/
theorem Reencodes.map {read : Bytes → Outcome α} {write : α → Except CodecError Bytes}
    (h : Reencodes read write) {f : α → β} {write' : β → Except CodecError Bytes}
    (hw : ∀ v, write' (f v) = write v) : Reencodes (fun src => (read src).map f) write' := by
  intro src hs
  obtain ⟨c, hc, hv⟩ := h src hs
  exact ⟨c, hc, (hw _).trans hv⟩

/-! ## Members -/

theorem writeMembers_cons_ok {m : Member Field} {ms : List (Member Field)} {c d : Bytes}
    (hm : m.field.write = .ok c) (hms : writeMembers ms = .ok d) :
    writeMembers (m :: ms) = .ok (c ++ d) := by
  simp only [writeMembers, hm, hms, bind, Except.bind, pure, Except.pure]

theorem readMembers_reencodes {ms : List (Member Field)}
    (h : ∀ m ∈ ms, Reencodes m.field.read Field.write) :
    Reencodes (readMembers ms) writeMembers := by
  induction ms with
  | nil => exact fun src _ => ⟨[], rfl, rfl⟩
  | cons m ms ih =>
    intro src hr
    rw [readMembers_cons] at hr ⊢
    obtain ⟨hm, heq⟩ := Outcome.andThen_ok hr
    rw [heq] at hr ⊢
    obtain ⟨c, hc, hwm⟩ := h m (.head _) src hm
    obtain ⟨d, hd, hwms⟩ := ih (fun m hm => h m (.tail _ hm)) _ hr
    refine ⟨c ++ d, ?_, writeMembers_cons_ok hwm hwms⟩
    rw [List.append_assoc]
    exact hc.trans (congrArg (c ++ ·) hd)

theorem writeBundle_measured_ok (name : String) {head tail : List (Member Field)}
    {length : IntField} {trailing c n d : Bytes} (hh : writeMembers head = .ok c)
    (ht : writeMembers tail = .ok d)
    (hn : (length.withCount (d ++ trailing).length).write = .ok n) :
    writeBundle (.measured head name length tail trailing) = .ok (c ++ n ++ (d ++ trailing)) := by
  simp only [writeBundle, hh, ht, hn, bind, Except.bind, pure, Except.pure]

theorem readTail_ok {head tail : List (Member Field)} {name : String} {trailing src : Bytes}
    {length : IntField} (h : (readTail head name tail trailing length src).error = none) :
    ¬ length.value < 0 ∧ ∃ region rest, src = region ++ rest ∧
      region.length = length.value.toInt.toNat ∧ (readMembers tail region).error = none ∧
      readTail head name tail trailing length src =
        .done (.measured head name length (readMembers tail region).value
          (readMembers tail region).rest) rest := by
  unfold readTail at h ⊢
  dsimp only at h ⊢
  split at h
  · cases h
  · rename_i hneg
    rw [if_neg hneg]
    obtain ⟨region, rest, hs, hl, heq⟩ := withBytes_ok h
    rw [heq] at h ⊢
    refine ⟨hneg, region, rest, hs, hl, ?_⟩
    cases he : (readMembers tail region).error with
    | none => exact ⟨rfl, rfl⟩
    | some e =>
      rw [he] at h
      cases h

theorem readBundle_reencodes {b : Bundle Field}
    (h : ∀ m ∈ b.members, Reencodes m.field.read Field.write) :
    Reencodes (readBundle b) writeBundle := by
  cases b with
  | plain ms =>
    have hr : readBundle (.plain ms) = fun src => (readMembers ms src).map .plain := by
      funext src
      rw [readBundle]
    rw [hr]
    exact (readMembers_reencodes h).map fun ms => by rw [writeBundle]
  | measured head name length tail trailing =>
    intro src hr
    rw [readBundle_measured] at hr ⊢
    obtain ⟨hhead, heq⟩ := Outcome.andThen_ok hr
    rw [heq] at hr ⊢
    obtain ⟨hlength, heq⟩ := Outcome.andThen_ok hr
    rw [heq] at hr ⊢
    obtain ⟨hneg, region, rest, hregion, hl, htail, heq⟩ := readTail_ok hr
    rw [heq]
    obtain ⟨c, hc, hwc⟩ :=
      readMembers_reencodes (fun m hm => h m (List.mem_append_left _ hm)) src hhead
    obtain ⟨v, n, hv, hn, hwn⟩ := IntField.read_ok hlength
    obtain ⟨d, hd, hwd⟩ := readMembers_reencodes
      (fun m hm => h m (List.mem_append_right _ (.tail _ hm))) region htail
    refine ⟨c ++ n ++ region, ?_, ?_⟩
    · rw [List.append_assoc, List.append_assoc]
      exact hc.trans (congrArg (c ++ ·) (hn.trans (congrArg (n ++ ·) hregion)))
    · -- the tail and what it left are the region again, and the length is the one that was read
      have hcount := (IntField.write_withCount hv hneg).1
      rw [← hl, hd] at hcount
      have hw := writeBundle_measured_ok name hwc hwd (by rw [hcount, hv]; exact hwn)
      rw [← hd] at hw
      exact hw

theorem readChoice_reencodes {cs : List (Choice Field)}
    (h : ∀ c ∈ cs, Reencodes (readBundle c.bundle) writeBundle) (i : Nat) :
    Reencodes (readChoice cs i) fun cs => writeChoice cs i := by
  induction cs generalizing i with
  | nil =>
    intro src _
    rw [readChoice]
    exact ⟨[], rfl, rfl⟩
  | cons c cs ih =>
    cases i with
    | zero =>
      have hr : readChoice (c :: cs) 0 =
          fun src => (readBundle c.bundle src).map (⟨c.name, c.tag, ·⟩ :: cs) := by
        funext src
        rw [readChoice]
      rw [hr]
      exact (h c (.head _)).map fun b => rfl
    | succ i =>
      have hr : readChoice (c :: cs) (i + 1) = fun src => (readChoice cs i src).map (c :: ·) := by
        funext src
        rw [readChoice]
      rw [hr]
      exact (ih (fun c hc => h c (.tail _ hc)) i).map fun cs => rfl

/-! ## Fields -/

/-- Every bitfield in the field is sound. -/
def Field.Sound (f : Field) : Prop := ∀ b, Field.Within (.bitfield b) f → b.Sound

theorem Field.Sound.child {f c : Field} (h : f.Sound) (hc : c ∈ f.children) : c.Sound :=
  fun b hb => h b (.child hc hb)

theorem Field.sound_of_children {f : Field} (hb : ∀ b, f = .bitfield b → b.Sound)
    (hc : ∀ c ∈ f.children, c.Sound) : f.Sound := by
  intro b h
  cases h with
  | self => exact hb b rfl
  | child hm h => exact hc _ hm b h

/-- **A field is written as the bytes that it was read from.** -/
theorem Field.read_reencodes {f : Field} (h : f.Sound) : Reencodes f.read Field.write := by
  induction f with
  | int f => exact f.read_reencodes.map fun f => by rw [Field.write]
  | enumeration f => exact f.read_reencodes.map fun f => by rw [Field.write]
  | bitmask f => exact f.read_reencodes.map fun f => by rw [Field.write]
  | float f => exact f.read_reencodes.map fun f => by rw [Field.write]
  | text f => exact f.read_reencodes.map fun f => by rw [Field.write]
  | bytes f => exact f.read_reencodes.map fun f => by rw [Field.write]
  | list l ih _ =>
    have hp := ih (h.child (.head _))
    exact (ListOf.readWith_reencodes hp l).map fun l => rfl
  | bitfield b => exact (Bitfield.read_reencodes (h b .self)).map fun b => by rw [Field.write]
  | bundle b ih =>
    refine (readBundle_reencodes fun m hm => ?_).map fun b => by rw [Field.write]
    exact ih m hm (h.child (List.mem_map_of_mem hm))
  | optional o ih _ =>
    intro src hr
    rw [Field.read_optional] at hr ⊢
    split at hr
    · rename_i hmode
      rw [if_pos hmode]
      exact ⟨[], rfl, rfl⟩
    · rename_i hmode
      rw [if_neg hmode]
      obtain ⟨he, heq⟩ := Outcome.andThen_ok hr
      rw [heq]
      obtain ⟨c, hc, hw⟩ := ih (h.child (.head _)) src he
      exact ⟨c, hc, by rw [← hw]; rfl⟩
  | variant v ih =>
    have hb : ∀ c ∈ v.alternatives, Reencodes (readBundle c.bundle) writeBundle := fun c hc =>
      readBundle_reencodes fun m hm =>
        ih c hc m hm (h.child (List.mem_flatMap.2 ⟨c, hc, List.mem_map_of_mem hm⟩))
    obtain ⟨alternatives, current⟩ := v
    intro src hr
    rw [Field.read] at hr ⊢
    cases hp : probeTags src 0 none alternatives with
    | error e =>
      rw [hp] at hr
      cases hr
    | ok i =>
      rw [hp] at hr
      exact (readChoice_reencodes hb i).map (fun cs => rfl) src hr
  | unknown data =>
    intro src _
    exact ⟨src, (List.append_nil src).symm, by rw [Field.read]; rfl⟩

/-! ## Messages -/

theorem Field.Sound.inMode {f : Field} (h : f.Sound) (mode : Option OptionalMode) :
    (f.inMode mode).1.Sound := by
  unfold Field.inMode
  split
  · split
    · exact h
    · intro b hb
      cases hb with
      | child hc hb => exact h b (.child hc hb)
  · exact h

theorem readFields_ok {rules : List PresenceRule} {version : UInt64}
    {before ms : List (Member Field)} (hs : ∀ m ∈ ms, m.field.Sound) {src : Bytes}
    (h : (readFields rules version before ms src).error = none) :
    ∃ new c, (readFields rules version before ms src).value = before ++ new ∧
      src = c ++ (readFields rules version before ms src).rest ∧ writeMembers new = .ok c := by
  induction ms generalizing before src with
  | nil => exact ⟨[], [], (List.append_nil _).symm, rfl, rfl⟩
  | cons m ms ih =>
    rw [readFields_cons] at h ⊢
    obtain ⟨hm, heq⟩ := Outcome.andThen_ok h
    rw [heq] at h ⊢
    obtain ⟨c, hc, hwc⟩ := Field.read_reencodes ((hs m (.head _)).inMode _) src hm
    obtain ⟨new, d, hv, hd, hwd⟩ := ih (fun m hm => hs m (.tail _ hm)) h
    let inMode := m.field.inMode (requiredMode rules version before)
    refine ⟨{ m with field := (inMode.1.read src).value } :: new, c ++ d, ?_, ?_,
      writeMembers_cons_ok hwc hwd⟩
    · rw [hv, List.append_assoc]
      rfl
    · rw [List.append_assoc]
      exact hc.trans (congrArg (c ++ ·) hd)

/-- **Decoding and encoding a message is exact**: if a message in any state was read, it is written
as the bytes that were consumed, whatever its rules and the modes of its optional fields. -/
theorem Message.write_read (m : Message) (src : Bytes) (hs : ∀ x ∈ m.fields, x.field.Sound)
    (h : (m.read src).error = none) :
    ∃ c, src = c ++ (m.read src).rest ∧ (m.read src).value.write = .ok c := by
  obtain ⟨new, c, hv, hc, hw⟩ := readFields_ok hs h
  refine ⟨c, hc, ?_⟩
  rw [List.nil_append] at hv
  rw [← hw, ← hv]
  rfl

/-- A bitfield of a signed integer and a bitmask. -/
def packedFlags : Bitfield where
  bytes := 1
  bounds := by decide
  order := .big
  members := [⟨"level", 3, .int (.ofFormat ⟨.ofBytes 1, true, .big⟩)⟩,
    ⟨"flags", 5, .bitmask (.ofBytes 1)⟩]

theorem packedFlags_sound : packedFlags.Sound where
  width := by decide
  fits := by
    intro m hm
    rcases hm with _ | ⟨_, _ | ⟨_, ⟨⟩⟩⟩
    · trivial
    · show (5 : UInt32).toNat ≤ 8 * 1
      decide

/-- A message of a bitfield and a list of integers, each in a region of its own. -/
def packedMessage : Message where
  id := 1
  name := "Packed"
  fields := [⟨"bits", .bitfield packedFlags⟩,
    ⟨"items", .list (.ofPrototype (.int (.ofFormat ⟨.ofBytes 2, false, .big⟩))
      (.count (.ofFormat ⟨.ofBytes 1, false, .big⟩))
      (some (.ofFormat ⟨.ofBytes 1, false, .big⟩)))⟩]

theorem packedMessage_sound : ∀ x ∈ packedMessage.fields, x.field.Sound := by
  intro x hx
  rcases hx with _ | ⟨_, _ | ⟨_, ⟨⟩⟩⟩
  · refine Field.sound_of_children (fun b hb => ?_) fun c hc => ?_
    · cases hb
      exact packedFlags_sound
    · cases hc
  · refine Field.sound_of_children (fun b hb => ?_) fun c hc => ?_
    · cases hb
    · rcases hc with _ | ⟨_, ⟨⟩⟩
      refine Field.sound_of_children (fun b hb => ?_) fun c hc => ?_
      · cases hb
      · cases hc

/-- One element leaves a byte of its region, and a byte follows the message. -/
theorem packedMessage_write_read :
    (packedMessage.read [0xa5, 1, 3, 0, 7, 9, 0xff]).error = none ∧
      ∃ c, [0xa5, 1, 3, 0, 7, 9, 0xff] =
          c ++ (packedMessage.read [0xa5, 1, 3, 0, 7, 9, 0xff]).rest ∧
        (packedMessage.read [0xa5, 1, 3, 0, 7, 9, 0xff]).value.write = .ok c :=
  ⟨rfl, packedMessage.write_read _ packedMessage_sound rfl⟩

end WireProtocol
