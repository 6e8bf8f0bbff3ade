import WireProtocol.Capture.Packet

/-!
# Walking along a packet by positions

A walk along a captured packet takes bytes and stretches at positions that it computes from what the
packet says of itself, level by level, and goes on over tags until it meets another type.
`Packet.payloadChecked` is that walk with every position checked against the bytes that the level
has, and with a number of rounds for the tags. It never meets a position out of bounds, ends within
a sixth of the packet's length in rounds, and gives what `Packet.payload?` gives, which is a part of
the IPv4 packet in front of the end that its header states (`Packet.payloadChecked_ok`).
-/

set_option autoImplicit false

namespace WireProtocol

/-! ## The walk -/

/-- What a walk should never meet. -/
inductive WalkFault where
  /-- Positions that are not in order or not in the bytes. -/
  | outOfBounds (positions : List Nat)
  /-- There are more tags than rounds. -/
  | unfinished

abbrev Walked (α : Type) := Except WalkFault α

/-- The byte at a position, which has to be there. -/
def byteAt (bs : Bytes) (i : Nat) : Walked UInt8 :=
  match bs[i]? with
  | some b => .ok b
  | none => .error (.outOfBounds [i, bs.length])

/-- The number in the two bytes at a position. -/
def wordAt (bs : Bytes) (i : Nat) : Walked Nat := do
  let high ← byteAt bs i
  let low ← byteAt bs (i + 1)
  return 256 * high.toNat + low.toNat

/-- The bytes between two positions, which have to be in order. -/
def stretch (bs : Bytes) (start stop : Nat) : Walked Bytes :=
  if start ≤ stop ∧ stop ≤ bs.length then .ok ((bs.take stop).drop start)
  else .error (.outOfBounds [start, stop, bs.length])

/-- Whether the number of a type is that of a tag. -/
def isTagNumber (type : Nat) : Bool := type == 0x8100 || type == 0x88a8

/-- Passes the tags in front of a type: the type that is no tag's, with the position behind it. The
type in front of position `off` was read last. -/
def passTags (frame : Bytes) : (rounds off type : Nat) → Walked (Option (Nat × Nat))
  | 0, off, type => if isTagNumber type then .error .unfinished else return some (off, type)
  | rounds + 1, off, type =>
    if isTagNumber type then
      if frame.length < off + 4 + 2 then return none
      else do passTags frame rounds (off + 4 + 2) (← wordAt frame (off + 4))
    else return some (off, type)

/-- The IPv4 packet behind a type, which ends where the frame does. -/
def behindType (frame : Bytes) : Option (Nat × Nat) → Walked (Option Bytes)
  | some (off, type) =>
    if type = 0x0800 then do return some (← stretch frame off frame.length) else return none
  | none => return none

def ethernetChecked (rounds : Nat) (frame : Bytes) : Walked (Option Bytes) :=
  if frame.length < 14 then return none
  else do behindType frame (← passTags frame rounds 14 (← wordAt frame 12))

def cookedChecked (envelope : Bytes) : Walked (Option Bytes) :=
  if envelope.length < 16 then return none
  else do behindType envelope (some (16, ← wordAt envelope 14))

def udpChecked (segment : Bytes) : Walked (Option Bytes) :=
  if segment.length < 8 then return none
  else do
    let length ← wordAt segment 4
    if length < 8 ∨ segment.length < length then return none
    else return some (← stretch segment 8 length)

def tcpChecked (segment : Bytes) : Walked (Option Bytes) :=
  if segment.length < 20 then return none
  else do
    let header := ((← byteAt segment 12) >>> 4).toNat * 4
    if header < 20 ∨ segment.length < header then return none
    else return some (← stretch segment header segment.length)

/-- The payload of the segment behind the header of a packet that ends where its header states. -/
def segmentChecked (packet : Bytes) (header : Nat) : Walked (Option Bytes) := do
  let segment ← stretch packet header packet.length
  match ← byteAt packet 9 with
  | 17 => udpChecked segment
  | 6 => tcpChecked segment
  | _ => return none

/-- The payload of a packet behind its header. -/
def datagramChecked (packet : Bytes) (header : Nat) : Walked (Option Bytes) := do
  let total ← wordAt packet 2
  if total < header then return none
  else if total ≤ packet.length then segmentChecked (← stretch packet 0 total) header
  else segmentChecked packet header

def ipv4Checked (packet : Bytes) : Walked (Option Bytes) :=
  if packet.length < 20 then return none
  else do
    let start ← byteAt packet 0
    let header := (start &&& 0x0f).toNat * 4
    if start >>> 4 ≠ 4 then return none
    else if header < 20 ∨ packet.length < header then return none
    else datagramChecked packet header

namespace Packet

def bodyChecked (rounds : Nat) (p : Packet) : Walked (Option Bytes) :=
  match p.link with
  | .ethernet => ethernetChecked rounds p.data
  | .rawIp => return some p.data
  | .cooked => cookedChecked p.data
  | .other _ => return none

def payloadChecked (rounds : Nat) (p : Packet) : Walked (Option Bytes) := do
  match ← p.bodyChecked rounds with
  | some packet => ipv4Checked packet
  | none => return none

end Packet

/-! ## Positions -/

theorem Walked.ok_bind {α β : Type} (a : α) (next : α → Walked β) :
    (Except.ok a >>= next) = next a := rfl

section
variable {bs : Bytes} {i start stop : Nat}

theorem byteAt_eq (h : i < bs.length) : byteAt bs i = .ok (bs.getD i 0) := by
  rw [byteAt, List.getElem?_eq_getElem h, List.getD_eq_getElem?_getD, List.getElem?_eq_getElem h]
  rfl

theorem toNat_pair (a b : UInt8) : Bytes.toNat .big [a, b] = 256 * a.toNat + b.toNat := by
  show b.toNat + 256 * (a.toNat + 256 * 0) = 256 * a.toNat + b.toNat
  omega

theorem word_eq (h : i + 1 < bs.length) :
    bs.word i = 256 * (bs.getD i 0).toNat + (bs.getD (i + 1) 0).toNat := by
  have hi : i < bs.length := Nat.lt_of_succ_lt h
  have hdrop : bs.drop i = bs[i] :: bs[i + 1] :: bs.drop (i + 2) := by
    rw [List.drop_eq_getElem_cons hi, List.drop_eq_getElem_cons h]
  rw [Bytes.word, hdrop, List.getD_eq_getElem?_getD, List.getD_eq_getElem?_getD,
    List.getElem?_eq_getElem hi, List.getElem?_eq_getElem h]
  exact toNat_pair bs[i] bs[i + 1]

theorem wordAt_eq (h : i + 1 < bs.length) : wordAt bs i = .ok (bs.word i) := by
  rw [wordAt, byteAt_eq (Nat.lt_of_succ_lt h), byteAt_eq h, word_eq h]
  rfl

theorem stretch_eq (horder : start ≤ stop) (hstop : stop ≤ bs.length) :
    stretch bs start stop = .ok ((bs.take stop).drop start) :=
  if_pos ⟨horder, hstop⟩

theorem stretch_rest (h : start ≤ bs.length) :
    stretch bs start bs.length = .ok (bs.drop start) := by
  rw [stretch_eq h (Nat.le_refl _), List.take_length]

end

/-! ## Envelopes -/

/-- The two bytes of a type are its number. -/
theorem toNat_eq_iff {as : Bytes} (bs : Bytes) (h : as.length = bs.length) :
    Bytes.toNat .big as = Bytes.toNat .big bs ↔ as = bs := by
  refine ⟨fun heq => ?_, congrArg _⟩
  rw [← Bytes.ofNat_toNat .big as, heq, h, Bytes.ofNat_toNat]

theorem isTagNumber_toNat {type : Bytes} (h : type.length = 2) :
    isTagNumber (Bytes.toNat .big type) = isTagType type := by
  have hc : Bytes.toNat .big type = 0x8100 ↔ type = [0x81, 0x00] :=
    toNat_eq_iff [0x81, 0x00] h
  have hs : Bytes.toNat .big type = 0x88a8 ↔ type = [0x88, 0xa8] :=
    toNat_eq_iff [0x88, 0xa8] h
  rw [Bool.eq_iff_iff]
  simp only [isTagNumber, isTagType, Bool.or_eq_true, beq_iff_eq, hc, hs]

theorem toNat_eq_ipv4Type {type : Bytes} (h : type.length = 2) :
    Bytes.toNat .big type = 0x0800 ↔ type = ipv4Type :=
  toNat_eq_iff ipv4Type h

/-- A frame that ends within a type has no IPv4 packet. -/
theorem typedBody?_short {bs : Bytes} (h : bs.length < 2) : typedBody? bs = none := by
  match bs with
  | [] => rw [typedBody?]; simp
  | [_] => rw [typedBody?]; simp
  | _ :: _ :: rest => exact absurd h (Nat.not_lt.2 (Nat.le_add_left 2 rest.length))

section
variable {frame : Bytes} {off : Nat}

/-- The walk behind a type at position `off`. -/
theorem typedBody?_drop (h : off + 2 ≤ frame.length) :
    typedBody? (frame.drop off) =
      if isTagNumber (frame.word off) then typedBody? (frame.drop (off + 2 + 4))
      else if frame.word off = 0x0800 then some (frame.drop (off + 2))
      else none := by
  have htype : ((frame.drop off).take 2).length = 2 := by
    rw [List.length_take, List.length_drop]
    omega
  have hsplit := typedBody?_type htype ((frame.drop off).drop 2)
  rw [List.take_append_drop] at hsplit
  simp only [List.drop_drop] at hsplit
  simp only [hsplit, Bytes.word, isTagNumber_toNat htype, toNat_eq_ipv4Type htype]

/-- The packet behind a type that is no tag's. -/
theorem behindType_eq (h : off ≤ frame.length) (type : Nat) :
    behindType frame (some (off, type)) =
      .ok (if type = 0x0800 then some (frame.drop off) else none) := by
  simp only [behindType, stretch_rest h]
  split <;> rfl

/-- **The loop over the tags ends and stays in the frame** if its rounds suffice for the bytes that
are left, at six bytes for each. -/
theorem passTags_eq {rounds : Nat} (hoff : off + 2 ≤ frame.length)
    (hrounds : frame.length < off + 2 + 6 * rounds) :
    (passTags frame rounds (off + 2) (frame.word off) >>= behindType frame) =
      .ok (typedBody? (frame.drop off)) := by
  induction rounds generalizing off with
  | zero => omega
  | succ rounds ih =>
    rw [typedBody?_drop hoff, passTags]
    by_cases htag : isTagNumber (frame.word off) = true
    · rw [if_pos htag, if_pos htag]
      by_cases hshort : frame.length < off + 2 + 4 + 2
      · rw [if_pos hshort, typedBody?_short (by rw [List.length_drop]; omega)]
        rfl
      · rw [if_neg hshort, wordAt_eq (by omega)]
        have hnext : off + 2 + 4 + 2 ≤ frame.length := by omega
        exact ih hnext (by omega)
    · rw [if_neg htag, if_neg htag]
      exact behindType_eq hoff _

end

theorem ethernetChecked_eq {frame : Bytes} {rounds : Nat} (h : frame.length / 6 ≤ rounds) :
    ethernetChecked rounds frame = .ok (ethernetBody? frame) := by
  rw [ethernetChecked, ethernetBody?]
  by_cases hshort : frame.length < 14
  · rw [if_pos hshort, typedBody?_short (by rw [List.length_drop]; omega)]
    rfl
  · rw [if_neg hshort, wordAt_eq (by omega)]
    exact passTags_eq (by omega) (by omega)

theorem cookedChecked_eq (envelope : Bytes) :
    cookedChecked envelope = .ok (cookedBody? envelope) := by
  rw [cookedChecked, cookedBody?]
  by_cases hshort : envelope.length < 16
  · have hne : (envelope.drop 14).take 2 ≠ ipv4Type := by
      intro heq
      have hlength := congrArg List.length heq
      rw [List.length_take, List.length_drop] at hlength
      simp only [ipv4Type, List.length_cons, List.length_nil] at hlength
      omega
    rw [if_pos hshort, if_neg hne]
    rfl
  · have htype : ((envelope.drop 14).take 2).length = 2 := by
      rw [List.length_take, List.length_drop]
      omega
    rw [if_neg hshort, wordAt_eq (by omega)]
    refine (behindType_eq (by omega) _).trans ?_
    simp only [Bytes.word, toNat_eq_ipv4Type htype]

/-! ## Segments -/

theorem udpChecked_eq (segment : Bytes) : udpChecked segment = .ok (udpPayload? segment) := by
  rw [udpChecked, udpPayload?]
  by_cases hshort : segment.length < 8
  · rw [if_pos hshort, if_pos (.inl hshort)]
    rfl
  · rw [if_neg hshort, wordAt_eq (by omega), Walked.ok_bind]
    by_cases hlength : segment.word 4 < 8 ∨ segment.length < segment.word 4
    · rw [if_pos hlength, if_pos (.inr hlength)]
      rfl
    · rw [if_neg hlength, if_neg (by omega), stretch_eq (by omega) (by omega)]
      rfl

/-- The upper half of a byte. -/
theorem toNat_shiftRight_four (b : UInt8) : (b >>> 4).toNat = b.toNat / 16 := by
  rw [UInt8.toNat_shiftRight]
  exact Nat.shiftRight_eq_div_pow b.toNat 4

/-- The lower half of a byte. -/
theorem toNat_and_fifteen (b : UInt8) : (b &&& 0x0f).toNat = b.toNat % 16 := by
  rw [UInt8.toNat_and]
  exact Nat.and_two_pow_sub_one_eq_mod b.toNat 4

theorem tcpChecked_eq (segment : Bytes) : tcpChecked segment = .ok (tcpPayload? segment) := by
  rw [tcpChecked, tcpPayload?]
  by_cases hshort : segment.length < 20
  · rw [if_pos hshort, if_pos (.inl hshort)]
    rfl
  · rw [if_neg hshort, byteAt_eq (by omega), Walked.ok_bind]
    simp only [toNat_shiftRight_four, Nat.mul_comm _ 4]
    by_cases hheader : 4 * ((segment.getD 12 0).toNat / 16) < 20 ∨
        segment.length < 4 * ((segment.getD 12 0).toNat / 16)
    · rw [if_pos hheader, if_pos (.inr hheader)]
      rfl
    · rw [if_neg hheader, if_neg (by omega), stretch_rest (by omega)]
      rfl

/-! ## Packets -/

theorem segmentChecked_eq {packet : Bytes} {header : Nat} (hlow : 20 ≤ header)
    (hhigh : header ≤ packet.length) :
    segmentChecked packet header =
      .ok (segmentPayload? (packet.getD 9 0) (packet.drop header)) := by
  rw [segmentChecked, stretch_rest hhigh, Walked.ok_bind, byteAt_eq (by omega), Walked.ok_bind,
    segmentPayload?]
  split
  · rename_i h
    rw [if_pos h, udpChecked_eq]
  · rename_i h
    rw [if_neg (by rw [h]; decide), if_pos h, tcpChecked_eq]
  · rename_i hudp htcp
    rw [if_neg hudp, if_neg htcp]
    rfl

/-- The bytes in front of the end of a packet are those of the packet. -/
theorem getD_take {bs : Bytes} {i n : Nat} (h : i < n) : (bs.take n).getD i 0 = bs.getD i 0 := by
  rw [List.getD_eq_getElem?_getD, List.getElem?_take_of_lt h, ← List.getD_eq_getElem?_getD]

/-- A packet is cut at the end that its header states, if there is so much of it. -/
theorem datagramChecked_eq {packet : Bytes} {header : Nat} (hlow : 20 ≤ header)
    (hhigh : header ≤ packet.length) :
    datagramChecked packet header =
      .ok (if packet.word 2 < header then none
        else segmentPayload? (packet.getD 9 0) ((packet.take (packet.word 2)).drop header)) := by
  rw [datagramChecked, wordAt_eq (by omega), Walked.ok_bind]
  generalize packet.word 2 = total
  by_cases hshort : total < header
  · rw [if_pos hshort, if_pos hshort]
    rfl
  rw [if_neg hshort, if_neg hshort]
  by_cases hcut : total ≤ packet.length
  · have hlength : header ≤ (packet.take total).length := by
      rw [List.length_take]
      omega
    have hprotocol : (packet.take total).getD 9 0 = packet.getD 9 0 := getD_take (by omega)
    rw [if_pos hcut, stretch_eq (Nat.zero_le total) hcut, List.drop_zero, ← hprotocol]
    exact segmentChecked_eq hlow hlength
  · rw [if_neg hcut, List.take_of_length_le (Nat.le_of_not_le hcut)]
    exact segmentChecked_eq hlow hhigh

theorem ipv4Checked_eq (packet : Bytes) : ipv4Checked packet = .ok (ipv4Payload? packet) := by
  rw [ipv4Checked, ipv4Payload?]
  by_cases hshort : packet.length < 20
  · rw [if_pos hshort, if_pos (.inl hshort)]
    rfl
  rw [if_neg hshort, byteAt_eq (by omega), Walked.ok_bind]
  generalize packet.getD 0 0 = start
  have hversion : start >>> 4 ≠ 4 ↔ start.toNat / 16 ≠ 4 := by
    rw [ne_eq, ← UInt8.toNat_inj, toNat_shiftRight_four]
    rfl
  simp only [toNat_and_fifteen, Nat.mul_comm _ 4, hversion]
  generalize 4 * (start.toNat % 16) = header
  by_cases hv : start.toNat / 16 ≠ 4
  · rw [if_pos hv, if_pos (.inr hv)]
    rfl
  rw [if_neg hv, if_neg (not_or.2 ⟨hshort, hv⟩)]
  by_cases hheader : header < 20 ∨ packet.length < header
  · rw [if_pos hheader, if_pos (by omega)]
    rfl
  rw [if_neg hheader, datagramChecked_eq (by omega) (by omega)]
  by_cases htotal : packet.word 2 < header
  · rw [if_pos htotal, if_pos (by omega)]
  · rw [if_neg htotal, if_neg (by omega)]

theorem bodyChecked_eq (p : Packet) {rounds : Nat} (h : p.data.length / 6 ≤ rounds) :
    p.bodyChecked rounds = .ok p.body? := by
  unfold Packet.bodyChecked Packet.body?
  cases p.link with
  | ethernet => exact ethernetChecked_eq h
  | rawIp => rfl
  | cooked => exact cookedChecked_eq p.data
  | other => rfl

/-! ## Where a payload is -/

theorem udpPayload?_part {segment payload : Bytes} (h : udpPayload? segment = some payload) :
    payload <:+: segment := by
  simp only [udpPayload?] at h
  split at h
  · cases h
  · cases h
    exact (List.drop_suffix _ _).isInfix.trans (List.take_prefix _ _).isInfix

theorem tcpPayload?_part {segment payload : Bytes} (h : tcpPayload? segment = some payload) :
    payload <:+: segment := by
  simp only [tcpPayload?] at h
  split at h
  · cases h
  · cases h
    exact (List.drop_suffix _ _).isInfix

theorem segmentPayload?_part {protocol : UInt8} {segment payload : Bytes}
    (h : segmentPayload? protocol segment = some payload) : payload <:+: segment := by
  unfold segmentPayload? at h
  split at h
  · exact udpPayload?_part h
  · split at h
    · exact tcpPayload?_part h
    · cases h

/-- A payload stands in front of the end that the header of the packet states. -/
theorem ipv4Payload?_part {packet payload : Bytes} (h : ipv4Payload? packet = some payload) :
    payload <:+: packet.take (packet.word 2) := by
  simp only [ipv4Payload?] at h
  split at h
  · cases h
  · split at h
    · cases h
    · exact (segmentPayload?_part h).trans (List.drop_suffix _ _).isInfix

theorem typedBody?_suffix {bs packet : Bytes} (h : typedBody? bs = some packet) :
    packet <:+ bs := by
  fun_induction typedBody? bs with
  | case1 a b body htag ih =>
    exact (ih h).trans ((List.drop_suffix _ _).trans (List.suffix_append [a, b] body))
  | case2 a b _ htag htype =>
    cases h
    exact List.suffix_append [a, b] packet
  | case3 => cases h
  | case4 => cases h

/-- The IPv4 packet ends where the captured packet does. -/
theorem body?_suffix {p : Packet} {packet : Bytes} (h : p.body? = some packet) :
    packet <:+ p.data := by
  unfold Packet.body? at h
  split at h
  · exact (typedBody?_suffix h).trans (List.drop_suffix _ _)
  · cases h
    exact List.suffix_refl _
  · unfold cookedBody? at h
    split at h
    · cases h
      exact List.drop_suffix _ _
    · cases h
  · cases h

/-- **A walk along a packet stays in the packet and ends.** Whatever the packet says of itself, no
position is out of bounds, and a sixth of its length in rounds suffices for its tags. A payload is a
part of the IPv4 packet in front of the end that its header states. -/
theorem Packet.payloadChecked_ok (p : Packet) {rounds : Nat} (h : p.data.length / 6 ≤ rounds) :
    p.payloadChecked rounds = .ok p.payload? ∧
      ∀ payload, p.payload? = some payload →
        ∃ packet, p.body? = some packet ∧ packet <:+ p.data ∧
          payload <:+: packet.take (packet.word 2) := by
  constructor
  · rw [payloadChecked, bodyChecked_eq p h, payload?]
    cases p.body? with
    | none => rfl
    | some packet => exact ipv4Checked_eq packet
  · intro payload hpayload
    obtain ⟨packet, hbody, hipv4⟩ := Option.bind_eq_some_iff.1 hpayload
    exact ⟨packet, hbody, body?_suffix hbody, ipv4Payload?_part hipv4⟩

/-- A frame whose type stands behind a passed tag. Its IPv4 packet ends two bytes in front of the
end of what was captured. -/
def paddedFrame : Packet where
  link := .ethernet
  data := List.replicate 12 2 ++ [0x81, 0, 0, 1, 0, 0, 8, 0] ++
    [0x45, 0, 0, 29, 0, 0, 0, 0, 64, 17, 0, 0, 10, 0, 0, 1, 10, 0, 0, 2] ++
    [0, 7, 0, 7, 0, 9, 0, 0, 42] ++ [0, 0]

theorem paddedFrame_payloadChecked :
    paddedFrame.data.length / 6 ≤ 8 ∧ paddedFrame.payloadChecked 8 = .ok (some [42]) ∧
      ∃ packet, paddedFrame.body? = some packet ∧ packet <:+ paddedFrame.data ∧
        [42] <:+: packet.take (packet.word 2) := by
  have hrounds : paddedFrame.data.length / 6 ≤ 8 := by decide
  have hrun : paddedFrame.payloadChecked 8 = .ok (some [42]) := rfl
  have hwalk := Packet.payloadChecked_ok paddedFrame hrounds
  exact ⟨hrounds, hrun, hwalk.2 [42] (Except.ok.inj (hwalk.1.symm.trans hrun))⟩

end WireProtocol
