import WireProtocol.Capture.Packet

/-!
# Tagged Ethernet frames

A VLAN tag stands in front of the type of an Ethernet frame: a type that marks it, and two bytes of
control information. The walk along the types skips four bytes behind a tag's type
(`typedBody?_type`), which are the control information and the type of the next tag or of the frame.
So it reads the control information of every other tag as a type, and is back in step only after
three tags, if the second of them has control information that reads as the type of a tag. These
stacks (`InStep`) are the ones that a frame's payload does not depend on (`payload?_tagged_iff`);
behind a single tag every payload is lost.
-/

set_option autoImplicit false

namespace WireProtocol

/-- A VLAN tag. -/
structure VlanTag where
  type : Bytes
  marks : isTagType type = true
  control : Bytes
  control_length : control.length = 2

def VlanTag.bytes (t : VlanTag) : Bytes := t.type ++ t.control

/-- An Ethernet frame without tags. -/
structure EthernetFrame where
  addresses : Bytes
  addresses_length : addresses.length = 12
  type : Bytes
  type_length : type.length = 2
  untagged : isTagType type = false
  body : Bytes

/-- The type of a frame behind a stack of tags, and what it carries. -/
def EthernetFrame.typed (f : EthernetFrame) (tags : List VlanTag) : Bytes :=
  tags.flatMap VlanTag.bytes ++ (f.type ++ f.body)

/-- A frame with a stack of tags between its addresses and its type, as it is captured. -/
def EthernetFrame.tagged (f : EthernetFrame) (tags : List VlanTag) : Packet :=
  ⟨.ethernet, f.addresses ++ f.typed tags⟩

/-- Tags in threes, of which the second has control information that reads as the type of a tag. -/
def InStep : List VlanTag → Prop
  | [] => True
  | _ :: t :: _ :: tags => isTagType t.control = true ∧ InStep tags
  | _ => False

/-! ## The walk along the types -/

theorem length_of_isTagType {type : Bytes} (h : isTagType type = true) : type.length = 2 := by
  simp only [isTagType, Bool.or_eq_true, beq_iff_eq] at h
  rcases h with rfl | rfl <;> rfl

/-- The control information of a tag and the two bytes behind it are skipped. -/
theorem typedBody?_tag (t : VlanTag) {skipped : Bytes} (h : skipped.length = 2) (rest : Bytes) :
    typedBody? (t.bytes ++ (skipped ++ rest)) = typedBody? rest := by
  have hfour : (t.control ++ skipped).length = 4 := by
    rw [List.length_append, t.control_length, h]
  rw [VlanTag.bytes, List.append_assoc, typedBody?_type (length_of_isTagType t.marks),
    if_pos t.marks, ← List.append_assoc, List.drop_left' hfour]

/-- The payload of the packet behind a type. -/
def typedPayload? (bs : Bytes) : Option Bytes := (typedBody? bs).bind ipv4Payload?

/-- A packet of another version has no payload. -/
theorem ipv4Payload?_of_version {b : UInt8} (h : b.toNat / 16 ≠ 4) (rest : Bytes) :
    ipv4Payload? (b :: rest) = none :=
  if_pos (.inr h)

/-- Nor has one that begins with the type of a tag. -/
theorem ipv4Payload?_tag (t : VlanTag) (rest : Bytes) : ipv4Payload? (t.bytes ++ rest) = none := by
  have hmarks := t.marks
  simp only [isTagType, Bool.or_eq_true, beq_iff_eq] at hmarks
  rw [VlanTag.bytes]
  rcases hmarks with h | h <;> rw [h] <;> exact ipv4Payload?_of_version (by decide) _

/-- Three tags are skipped if the control information of the second reads as the type of a tag, and
hide every payload if not. -/
theorem typedPayload?_three (t u v : VlanTag) (rest : Bytes) :
    typedPayload? (t.bytes ++ (u.bytes ++ (v.bytes ++ rest))) =
      if isTagType u.control then typedPayload? rest else none := by
  have hv : (v.bytes ++ rest).drop 4 = rest := by
    refine List.drop_left' ?_
    rw [VlanTag.bytes, List.length_append, length_of_isTagType v.marks, v.control_length]
  have hu : u.bytes ++ (v.bytes ++ rest) = u.type ++ (u.control ++ (v.bytes ++ rest)) :=
    List.append_assoc ..
  rw [typedPayload?, hu, typedBody?_tag t (length_of_isTagType u.marks),
    typedBody?_type u.control_length, hv]
  by_cases htag : isTagType u.control = true
  · rw [if_pos htag, if_pos htag, typedPayload?]
  · rw [if_neg htag, if_neg htag]
    split
    · exact ipv4Payload?_tag v rest
    · rfl

namespace EthernetFrame

theorem payload?_tagged (f : EthernetFrame) (tags : List VlanTag) :
    (f.tagged tags).payload? = typedPayload? (f.typed tags) := by
  show (typedBody? ((f.addresses ++ f.typed tags).drop 12)).bind ipv4Payload? = _
  rw [List.drop_left' f.addresses_length, typedPayload?]

theorem typed_three (f : EthernetFrame) (t u v : VlanTag) (tags : List VlanTag) :
    f.typed (t :: u :: v :: tags) = t.bytes ++ (u.bytes ++ (v.bytes ++ f.typed tags)) := by
  simp only [typed, List.flatMap_cons, List.append_assoc]

/-- **A stack in step hides nothing and shows nothing else.** -/
theorem typedPayload?_inStep (f : EthernetFrame) {tags : List VlanTag} (h : InStep tags) :
    typedPayload? (f.typed tags) = typedPayload? (f.typed []) := by
  fun_induction InStep tags with
  | case1 => rfl
  | case2 t u v tags ih => rw [typed_three, typedPayload?_three, if_pos h.1, ih h.2]
  | case3 => exact h.elim

/-- Behind one tag the first two bytes of what a frame carries are read as its type. -/
theorem typedPayload?_single (f : EthernetFrame) (t : VlanTag) :
    typedPayload? (f.typed [t]) = typedPayload? f.body := by
  rw [typedPayload?, typed, List.flatMap_singleton, typedBody?_tag t f.type_length, typedPayload?]

/-- Behind two tags the control information of the second is read as a type. -/
theorem typedPayload?_pair (f : EthernetFrame) (t u : VlanTag) :
    typedPayload? (f.typed [t, u]) =
      if isTagType u.control then typedPayload? ((f.type ++ f.body).drop 4)
      else if u.control = ipv4Type then ipv4Payload? (f.type ++ f.body)
      else none := by
  have htyped : f.typed [t, u] = t.bytes ++ (u.type ++ (u.control ++ (f.type ++ f.body))) := by
    simp only [typed, List.flatMap_cons, List.flatMap_nil, List.append_nil, List.append_assoc,
      VlanTag.bytes]
  rw [typedPayload?, htyped, typedBody?_tag t (length_of_isTagType u.marks),
    typedBody?_type u.control_length]
  split
  · rfl
  · split <;> rfl

/-- What has a payload as a packet does not begin with a type. -/
theorem typedPayload?_of_ipv4 {packet payload : Bytes} (h : ipv4Payload? packet = some payload) :
    typedPayload? packet = none := by
  match packet with
  | [] => cases h
  | [_] => cases h
  | a :: b :: rest =>
    have hversion : a.toNat / 16 = 4 := by
      refine Decidable.byContradiction fun hne => ?_
      rw [ipv4Payload?_of_version hne] at h
      cases h
    have hne (c d : UInt8) (hc : c.toNat / 16 ≠ 4) : [a, b] ≠ [c, d] := by
      intro heq
      rw [List.head_eq_of_cons_eq heq] at hversion
      exact hc hversion
    have htag : isTagType [a, b] = false := by
      simp only [isTagType, Bool.or_eq_false_iff, beq_eq_false_iff_ne]
      exact ⟨hne _ _ (by decide), hne _ _ (by decide)⟩
    have hipv4 : [a, b] ≠ ipv4Type := hne _ _ (by decide)
    have htype : typedBody? ([a, b] ++ rest) = _ := typedBody?_type rfl rest
    rw [htag, if_neg Bool.false_ne_true, if_neg hipv4] at htype
    exact congrArg (·.bind ipv4Payload?) htype

/-- One tag and none do not show a payload both. -/
theorem typedPayload?_single_or (f : EthernetFrame) (t : VlanTag) :
    typedPayload? (f.typed []) = none ∨ typedPayload? (f.typed [t]) = none := by
  rw [typedPayload?_single, typedPayload?, typed, List.flatMap_nil, List.nil_append,
    typedBody?_type f.type_length, if_neg (by simp [f.untagged])]
  split
  · cases hbody : ipv4Payload? f.body with
    | none => exact .inl hbody
    | some payload => exact .inr (typedPayload?_of_ipv4 hbody)
  · exact .inl rfl

/-! ## Stacks that are out of step -/

/-- A datagram of one byte, between two hosts. -/
def octetDatagram : EthernetFrame where
  addresses := [2, 0, 0, 0, 0, 1, 2, 0, 0, 0, 0, 2]
  addresses_length := rfl
  type := ipv4Type
  type_length := rfl
  untagged := rfl
  body := [0x45, 0, 0, 29, 0, 0, 0, 0, 64, 17, 0, 0, 10, 0, 0, 1, 10, 0, 0, 2,
    0, 7, 0, 7, 0, 9, 0, 0, 42]

theorem octetDatagram_payload : typedPayload? (octetDatagram.typed []) = some [42] := by
  rw [typedPayload?, typed, List.flatMap_nil, List.nil_append, typedBody?_type rfl]
  rfl

/-- A stack that is out of step hides it. -/
theorem octetDatagram_hidden :
    ∀ {tags : List VlanTag}, ¬ InStep tags → typedPayload? (octetDatagram.typed tags) = none
  | [], h => absurd trivial h
  | [t], _ => by
    rw [typedPayload?_single]
    have hbody : ipv4Payload? octetDatagram.body = some [42] := rfl
    exact typedPayload?_of_ipv4 hbody
  | [t, u], _ => by
    rw [typedPayload?_pair]
    split
    · have htype : typedBody? ([0, 29] ++ octetDatagram.body.drop 4) = _ := typedBody?_type rfl _
      exact congrArg (·.bind ipv4Payload?) htype
    · split <;> rfl
  | t :: u :: v :: tags, h => by
    rw [typed_three, typedPayload?_three]
    split
    · rename_i hu
      exact octetDatagram_hidden fun htags => h ⟨hu, htags⟩
    · rfl

/-- **The tags that the payload of a frame does not depend on** are the stacks in step. No frame
shows a payload both behind a single tag and behind none. -/
theorem payload?_tagged_iff (tags : List VlanTag) :
    ((∀ f : EthernetFrame, (f.tagged tags).payload? = (f.tagged []).payload?) ↔ InStep tags) ∧
      ∀ (f : EthernetFrame) (t : VlanTag),
        (f.tagged []).payload? = none ∨ (f.tagged [t]).payload? = none := by
  simp only [payload?_tagged]
  refine ⟨⟨fun h => ?_, fun h f => typedPayload?_inStep f h⟩, typedPayload?_single_or⟩
  refine Classical.byContradiction fun hout => ?_
  have hsame := h octetDatagram
  rw [octetDatagram_hidden hout, octetDatagram_payload] at hsame
  cases hsame

/-- Three tags, of which the second reads as a tag type in both of its halves. -/
def doubledTags : List VlanTag :=
  [⟨[0x81, 0], rfl, [0, 1], rfl⟩, ⟨[0x88, 0xa8], rfl, [0x81, 0], rfl⟩,
    ⟨[0x81, 0], rfl, [0, 2], rfl⟩]

theorem doubledTags_payload :
    InStep doubledTags ∧
      ∀ f : EthernetFrame, (f.tagged doubledTags).payload? = (f.tagged []).payload? :=
  ⟨⟨rfl, trivial⟩, (payload?_tagged_iff doubledTags).1.2 ⟨rfl, trivial⟩⟩

/-- The tag of a single network hides the datagram. -/
theorem octetDatagram_behindTag :
    (octetDatagram.tagged []).payload? = some [42] ∧
      (octetDatagram.tagged [⟨[0x81, 0], rfl, [0, 100], rfl⟩]).payload? = none := by
  simp only [payload?_tagged]
  exact ⟨octetDatagram_payload, octetDatagram_hidden id⟩

end EthernetFrame

end WireProtocol
