import WireProtocol.Proofs.Field.Kind
import WireProtocol.Proofs.Field.RoundTrip
import WireProtocol.Proofs.Field.Settled

/-!
# Presence survives the wire

The writer of a message sends its optional fields in the modes that refreshing left them in; the
reader finds the modes out field by field, from the masks that it has just read. Both come to the
same modes (`Message.read_write_presence`), whatever the rules are: a rule looks only at the version
and at bitmasks in front of its field, and those have been read back to the same bits.

The proof goes along the fields with two lists, of those read so far and of those written so far,
whose masks agree (`readFields_written`).
-/

set_option autoImplicit false

namespace WireProtocol

variable {rules : List PresenceRule} {version : UInt64}

/-! ## What the rules look at -/

/-- The bits of a field that is a bitmask. -/
def Field.mask? (f : Field) : Option UInt64 := f.bitmask?.map (·.value)

/-- The mode of a field that is optional. -/
def Field.mode? (f : Field) : Option OptionalMode := f.optional?.map (·.mode)

/-- The bits of each field that is a bitmask. -/
def masks (ms : List (Member Field)) : List (Option UInt64) := ms.map (·.field.mask?)

theorem Condition.holds_congr {before before' : List (Member Field)}
    (h : masks before = masks before') (c : Condition) :
    c.holds version before = c.holds version before' := by
  have hbit : ∀ (ms : List (Member Field)) (mask i : Nat) (set : Bool),
      (Condition.bit mask i set).holds version ms =
        ((masks ms)[mask]?.join).any fun word => testBit word i == set := by
    intro ms mask i set
    have hmask : (masks ms)[mask]?.join =
        (ms[mask]?.bind (·.field.bitmask?)).map (·.value) := by
      unfold masks
      rw [List.getElem?_map]
      cases ms[mask]? <;> rfl
    rw [hmask, holds]
    cases ms[mask]?.bind (·.field.bitmask?) <;> rfl
  cases c with
  | bit mask i set => rw [hbit, hbit, h]
  | versionAtLeast v | versionBelow v => rfl

/-- The mode that the rules ask for depends on the masks before a field and on the version. -/
theorem requiredMode_congr {before before' : List (Member Field)}
    (h : masks before = masks before') :
    requiredMode rules version before = requiredMode rules version before' := by
  have hl : before.length = before'.length := by
    simpa [masks] using congrArg List.length h
  have hc : ∀ r : PresenceRule, r.condition.holds version before =
      r.condition.holds version before' := fun r => r.condition.holds_congr h
  simp only [requiredMode, hl, hc]

/-- The rules leave a field alone if none of them is about it. -/
theorem requiredMode_eq_none {before : List (Member Field)}
    (h : requiredMode rules version before = none) : ∀ r ∈ rules, r.target ≠ before.length := by
  unfold requiredMode at h
  split at h
  · rename_i hr
    exact fun r hm => by simpa using List.filter_eq_nil_iff.1 hr r hm
  · cases h

/-! ## Refreshing -/

/-- Each field that is optional is in the mode that the rules ask of it, given those before it. -/
def InModes (rules : List PresenceRule) (version : UInt64) :
    (before : List (Member Field)) → List (Member Field) → Prop
  | _, [] => True
  | before, m :: ms =>
    (∀ mode, requiredMode rules version before = some mode → ∀ o, m.field = .optional o →
      o.mode = mode) ∧ InModes rules version (before ++ [m]) ms

/-- The fields have the same names and kinds one by one. -/
def SameOutline (ms ms' : List (Member Field)) : Prop :=
  List.Forall₂ (fun m m' => m.name = m'.name ∧ m.field.kind = m'.field.kind) ms ms'

theorem Field.inMode_optional (mode : OptionalMode) (o : Optional Field) :
    ((Field.optional o).inMode (some mode)).1 = .optional { o with mode } := by
  show (if o.mode = mode then (Field.optional o, false) else _).1 = _
  by_cases h : o.mode = mode
  · rw [if_pos h, ← h]
  · rw [if_neg h]

/-- Refreshing keeps the mode that a field was brought into. -/
theorem Field.inMode_refresh {f : Field} {mode : OptionalMode} {o : Optional Field}
    (h : (f.inMode (some mode)).1.refresh.1 = .optional o) : o.mode = mode := by
  cases f with
  | optional o' =>
    rw [inMode_optional, refresh] at h
    split at h <;>
    · cases h
      rfl
  | _ => cases h

theorem refreshFields_inModes (rules : List PresenceRule) (version : UInt64)
    (before ms : List (Member Field)) :
    ∃ fresh, (refreshFields rules version before ms).1 = before ++ fresh ∧
      SameOutline ms fresh ∧ InModes rules version before fresh := by
  induction ms generalizing before with
  | nil => exact ⟨[], (List.append_nil before).symm, .nil, trivial⟩
  | cons m ms ih =>
    let first : Member Field :=
      { m with field := (m.field.inMode (requiredMode rules version before)).1.refresh.1 }
    obtain ⟨fresh, heq, houtline, hmodes⟩ := ih (before ++ [first])
    refine ⟨first :: fresh, ?_, .cons ⟨rfl, ?_⟩ houtline, ?_, hmodes⟩
    · rw [refreshFields]
      dsimp only
      rw [heq, List.append_assoc]
      rfl
    · exact ((Field.refresh_kind _).trans (Field.inMode_kind _ _)).symm
    · intro mode hmode o ho
      dsimp only [first] at ho
      rw [hmode] at ho
      exact Field.inMode_refresh ho

/-! ## Messages made from a prototype -/

namespace Message

/-- The message is reached from the prototype by edits of parts of its fields, by setting the
version and by refreshing. -/
inductive Edited (p : Message) : Message → Prop
  | start : Edited p p
  | edit {m m' : Message} {name : String} {path : List PathStep} {e : Edit}
    {reply : Option Reply} : Edited p m → m.editAt? name path e = some (m', reply) → Edited p m'
  | setVersion {m : Message} (version : UInt64) : Edited p m → Edited p (m.setVersion version)
  | refresh {m : Message} : Edited p m → Edited p m.refresh.1

/-- What no edit changes: the rules, the names and kinds of the fields, and the version of a message
that takes none. -/
structure SameType (p m : Message) : Prop where
  rules : m.rules = p.rules
  versioned : m.versioned = p.versioned
  version : p.versioned = false → m.version = p.version
  fields : SameOutline p.fields m.fields

/-- The modes of the fields, of those that are optional. -/
def modes (m : Message) : List (Option OptionalMode) := m.fields.map (·.field.mode?)

end Message

theorem sameOutline_refl (ms : List (Member Field)) : SameOutline ms ms :=
  List.forall₂_same.2 fun _ _ => ⟨rfl, rfl⟩

theorem SameOutline.trans {ms ms' ms'' : List (Member Field)} (h : SameOutline ms ms')
    (h' : SameOutline ms' ms'') : SameOutline ms ms'' := by
  induction h generalizing ms'' with
  | nil => exact h'
  | cons hm _ ih =>
    cases h' with
    | cons hm' hms => exact .cons ⟨hm.1.trans hm'.1, hm.2.trans hm'.2⟩ (ih hms)

/-- A change of the first member of a name relates the members one by one, if it relates a field to
what it makes of it. -/
theorem Member.modifyFirst?_forall₂ {φ ρ : Type} {R : φ → φ → Prop} (hrefl : ∀ f, R f f)
    {name : String} {g : φ → Option (φ × ρ)} (hg : ∀ f f' r, g f = some (f', r) → R f f')
    {ms new : List (Member φ)} {r : ρ} (h : modifyFirst? name g ms = some (new, r)) :
    List.Forall₂ (fun m m' => m.name = m'.name ∧ R m.field m'.field) ms new := by
  induction ms generalizing new r with
  | nil => cases h
  | cons m ms ih =>
    rw [modifyFirst?] at h
    split at h
    · obtain ⟨⟨f, r⟩, hf, heq⟩ := Option.map_eq_some_iff.1 h
      cases heq
      exact .cons ⟨rfl, hg _ _ _ hf⟩ (List.forall₂_same.2 fun m _ => ⟨rfl, hrefl _⟩)
    · obtain ⟨⟨ms', r⟩, hms, heq⟩ := Option.map_eq_some_iff.1 h
      cases heq
      exact .cons ⟨rfl, hrefl _⟩ (ih hms)

/-- Setting the version keeps the type of a message. -/
theorem Message.SameType.withVersion {p m : Message} (h : p.SameType m) (version : UInt64) :
    p.SameType (m.setVersion version) := by
  unfold Message.setVersion
  split
  · rename_i hv
    refine ⟨h.rules, h.versioned, fun hp => ?_, h.fields⟩
    rw [h.versioned, hp] at hv
    cases hv
  · exact h

/-- **Edits keep the type of a message.** -/
theorem Message.Edited.sameType {p m : Message} (h : p.Edited m) : p.SameType m := by
  induction h with
  | start => exact ⟨rfl, rfl, fun _ => rfl, sameOutline_refl _⟩
  | edit _ he ih =>
    obtain ⟨⟨fields, r⟩, hf, heq⟩ := Option.map_eq_some_iff.1 he
    cases heq
    have hnew : SameOutline _ fields :=
      Member.modifyFirst?_forall₂ (R := fun f f' : Field => f.kind = f'.kind) (fun _ => rfl)
        (fun _ _ _ hg => (Field.editAt?_kind hg).symm) hf
    exact ⟨ih.rules, ih.versioned, ih.version, ih.fields.trans hnew⟩
  | setVersion version _ ih => exact ih.withVersion version
  | @refresh m _ ih =>
    obtain ⟨fresh, heq, houtline, -⟩ := refreshFields_inModes m.rules m.version [] m.fields
    refine ⟨ih.rules, ih.versioned, ih.version, ?_⟩
    have hfields : m.refresh.1.fields = fresh := heq
    rw [hfields]
    exact ih.fields.trans houtline

/-- A copy of the prototype takes the version of a message made from it. -/
theorem Message.SameType.version_setVersion {p m : Message} (h : p.SameType m) :
    (p.setVersion m.version).version = m.version := by
  unfold setVersion
  split
  · rfl
  · rename_i hv
    exact (h.version (by simpa using hv)).symm

/-! ## Reading what was written -/

/-- Reading with `p` the bytes that `g` is written as, in front of anything, gives the value of `g`
and leaves what follows. -/
def Field.ReadsBack (p g : Field) : Prop :=
  ∀ b, g.write = .ok b → ∀ rest, ∃ v, p.read (b ++ rest) = .done v rest ∧ v.value = g.value

/-- A field that recovers another one reads back the bytes that it has, if they are not too many. -/
theorem Field.Recovers.readsBack {p g : Field} (h : p.Recovers g)
    (hb : ∀ b, g.write = .ok b → b.length < 2 ^ 63) : p.ReadsBack g := by
  intro b hw rest
  obtain ⟨v, hv, hread⟩ := h b hw (hb b hw)
  exact ⟨v, hread rest, hv⟩

/-- The field reads back what the other one is written as; of an optional one that is meant of the
inner field, and only where it is there. -/
def Field.ContentReadsBack : Field → Field → Prop
  | .optional o, .optional o' => o'.mode = .present → o.inner.ReadsBack o'.inner
  | p, g => p.ReadsBack g

/-- Fields of one kind and one value have the same bits if they are bitmasks. -/
theorem Field.mask?_congr {v g : Field} (hk : v.kind = g.kind) (hv : v.value = g.value) :
    v.mask? = g.mask? := by
  cases g with
  | bitmask f =>
    cases v with
    | bitmask f' =>
      simp only [Field.value, Value.bits.injEq] at hv
      exact congrArg some hv
    | _ => cases hk
  | _ =>
    cases v with
    | bitmask f' => cases hk
    | _ => rfl

/-- The fields are of one kind and have the same value and, if they are optional, the same mode. -/
structure Field.Matches (v g : Field) : Prop where
  kind : v.kind = g.kind
  value : v.value = g.value
  mode : v.mode? = g.mode?

/-- An optional field in the mode of another one reads back what that one is written as. -/
theorem Optional.reads_written {o o' : Optional Field} (hne : o'.mode ≠ .tentative)
    (h : o'.mode = .present → o.inner.ReadsBack o'.inner) {b : Bytes}
    (hw : (Field.optional o').write = .ok b) (rest : Bytes) :
    ∃ v, (Field.optional { o with mode := o'.mode }).read (b ++ rest) = .done v rest ∧
      v.Matches (.optional o') := by
  obtain ⟨inner, default, mode⟩ := o'
  rw [Field.read_optional]
  cases mode with
  | tentative => exact absurd rfl hne
  | missing =>
    cases hw
    exact ⟨_, rfl, rfl, rfl, rfl⟩
  | present =>
    rw [Field.write] at hw
    obtain ⟨v, hread, hv⟩ := h rfl b hw rest
    refine ⟨.optional ⟨v, o.default, .present⟩, ?_, rfl, hv, rfl⟩
    rw [if_neg (by simp), hread, Outcome.andThen_of_none rfl]
    rfl

theorem Field.optional_of_kind {f : Field} (h : f.kind = .optional) : ∃ o, f = .optional o := by
  cases f with
  | optional o => exact ⟨o, rfl⟩
  | _ => cases h

/-- Modes are nothing to a field that is not optional. -/
theorem Field.not_optional_of_kind {f : Field} (h : f.kind ≠ .optional) :
    f.mode? = none ∧ ∀ mode, (f.inMode mode).1 = f := by
  cases f with
  | optional o => exact absurd rfl h
  | _ => exact ⟨rfl, fun mode => by cases mode <;> rfl⟩

theorem Field.ContentReadsBack.readsBack {p g : Field} (h : p.ContentReadsBack g)
    (hg : g.kind ≠ .optional) : p.ReadsBack g := by
  unfold ContentReadsBack at h
  split at h
  · exact absurd rfl hg
  · exact h

/-- A field in the mode that is asked of it reads back what another one in that mode is written
as. Without a rule both have the same mode. -/
theorem Field.inMode_reads_written {p g : Field} {mode : Option OptionalMode}
    (hk : p.kind = g.kind) (h : p.ContentReadsBack g) (hasked : mode ≠ some .tentative)
    (hmode : ∀ m, mode = some m → ∀ o, g = .optional o → o.mode = m)
    (hnone : mode = none → g.mode? = p.mode? ∧ g.mode? ≠ some .tentative) {b : Bytes}
    (hw : g.write = .ok b) (rest : Bytes) :
    ∃ v, (p.inMode mode).1.read (b ++ rest) = .done v rest ∧ v.Matches g := by
  by_cases hg : g.kind = .optional
  · obtain ⟨o', rfl⟩ := Field.optional_of_kind hg
    obtain ⟨o, rfl⟩ := Field.optional_of_kind hk
    have hin : ((Field.optional o).inMode mode).1 = .optional { o with mode := o'.mode } ∧
        o'.mode ≠ .tentative := by
      cases mode with
      | none =>
        obtain ⟨heq, hne⟩ := hnone rfl
        have heq : o'.mode = o.mode := Option.some.inj heq
        exact ⟨by rw [heq]; rfl, fun h => hne (congrArg some h)⟩
      | some m =>
        have heq : o'.mode = m := hmode m rfl o' rfl
        exact ⟨by rw [heq, inMode_optional], fun h => hasked (by rw [← heq, h])⟩
    rw [hin.1]
    exact Optional.reads_written hin.2 h hw rest
  · have hp : p.kind ≠ .optional := by rwa [hk]
    obtain ⟨v, hread, hv⟩ := h.readsBack hg b hw rest
    have hvk : v.kind = p.kind := by
      rw [← Field.read_kind p (b ++ rest), hread]
      rfl
    refine ⟨v, by rw [(not_optional_of_kind hp).2, hread], hvk.trans hk, hv, ?_⟩
    rw [(not_optional_of_kind (hvk ▸ hp)).1, (not_optional_of_kind hg).1]

/-- **Fields are read in the modes that they were written in.** What was read so far and what was
written so far have the same masks. -/
theorem readFields_written {ps gs : List (Member Field)} (houtline : SameOutline ps gs)
    (hcontent : List.Forall₂ (fun x y => x.field.ContentReadsBack y.field) ps gs)
    {before before' : List (Member Field)} (hmasks : masks before = masks before')
    (hmodes : InModes rules version before' gs)
    (hunruled : ∀ i x y, ps[i]? = some x → gs[i]? = some y →
      (∀ r ∈ rules, r.target ≠ before'.length + i) →
      y.field.mode? = x.field.mode? ∧ y.field.mode? ≠ some .tentative)
    {b : Bytes} (hw : writeMembers gs = .ok b) (rest : Bytes) :
    ∃ xs, readFields rules version before ps (b ++ rest) = .done (before ++ xs) rest ∧
      memberValues xs = memberValues gs ∧
      xs.map (·.field.mode?) = gs.map (·.field.mode?) := by
  induction houtline generalizing before before' b with
  | nil =>
    cases hw
    exact ⟨[], by rw [List.append_nil]; rfl, rfl, rfl⟩
  | @cons x y ps gs hxy houtline ih =>
    obtain ⟨hname, hkind⟩ := hxy
    obtain ⟨hx, hcontent⟩ := List.forall₂_cons.1 hcontent
    obtain ⟨hmode, hmodes⟩ := hmodes
    obtain ⟨c, d, hc, hd, rfl⟩ := writeMembers_cons_inv hw
    obtain ⟨v, hread, hv⟩ := Field.inMode_reads_written hkind hx
      (requiredMode_ne_tentative rules version before') hmode
      (fun hnone => hunruled 0 x y rfl rfl (requiredMode_eq_none hnone)) hc (d ++ rest)
    -- the masks agree one field further on
    have hmasks' : masks (before ++ [{ x with field := v }]) = masks (before' ++ [y]) := by
      unfold masks at *
      rw [List.map_append, List.map_append, hmasks]
      exact congrArg (_ ++ [·]) (Field.mask?_congr hv.kind hv.value)
    obtain ⟨xs, hxs, hvalues, hxmodes⟩ := ih hcontent hmasks' hmodes
      (fun i x y hx hy hr => hunruled (i + 1) x y hx hy fun r hm => by
        simpa [Nat.add_assoc, Nat.add_comm 1 i] using hr r hm) hd
    refine ⟨{ x with field := v } :: xs, ?_, ?_, ?_⟩
    · rw [readFields_cons, requiredMode_congr hmasks, List.append_assoc, hread,
        Outcome.andThen_of_none rfl]
      show readFields _ _ (before ++ [{ x with field := v }]) _ (d ++ rest) = _
      rw [hxs, List.append_assoc]
      rfl
    · rw [memberValues_cons, memberValues_cons, hvalues, hname, hv.value]
    · rw [List.map_cons, List.map_cons, hxmodes, hv.mode]

/-- **Presence survives the wire.** A message is made from a prototype by edits and a version and is
refreshed. If the prototype's fields, the inner ones for those that are optional and there, read
back what the message's fields are written as, and no optional field without a rule is in another
mode than the prototype's or left to the input, then a copy of the prototype with that version reads
what the message is written as, in front of anything, to the same value and the same modes. Nothing
is asked of the rules, so they may be any that the prototype was given: several for one field, set
bits, clear bits and bounds of the version. -/
theorem Message.read_write_presence {p m : Message} (h : p.Edited m)
    (hcontent : List.Forall₂ (fun x y => x.field.ContentReadsBack y.field) p.fields
      m.refresh.1.fields)
    (hunruled : ∀ i, (∀ r ∈ p.rules, r.target ≠ i) →
      m.refresh.1.modes[i]? = p.modes[i]? ∧ m.refresh.1.modes[i]? ≠ some (some .tentative))
    {b : Bytes} (hw : m.refresh.1.write = .ok b) (rest : Bytes) :
    ∃ x, (p.setVersion m.version).read (b ++ rest) = .done x rest ∧
      x.value = m.refresh.1.value ∧ x.modes = m.refresh.1.modes := by
  obtain ⟨fresh, hfresh, -, hmodes⟩ := refreshFields_inModes m.rules m.version [] m.fields
  have hfields : m.refresh.1.fields = fresh := hfresh
  have htype := h.sameType
  have houtline : SameOutline p.fields fresh := hfields ▸ h.refresh.sameType.fields
  have hat : ∀ i x y, p.fields[i]? = some x → fresh[i]? = some y →
      (∀ r ∈ p.rules, r.target ≠ 0 + i) →
      y.field.mode? = x.field.mode? ∧ y.field.mode? ≠ some .tentative := by
    intro i x y hx hy hr
    have hi := hunruled i (by simpa using hr)
    simpa [modes, hfields, hx, hy] using hi
  unfold Message.write at hw
  rw [hfields] at hcontent hw
  rw [htype.rules] at hmodes
  obtain ⟨xs, hread, hvalues, hxmodes⟩ :=
    readFields_written houtline hcontent (Eq.refl (masks [])) hmodes hat hw rest
  have hp : (p.setVersion m.version).rules = p.rules ∧
      (p.setVersion m.version).fields = p.fields := by
    unfold setVersion
    split <;> exact ⟨rfl, rfl⟩
  have hcopy : readFields (p.setVersion m.version).rules (p.setVersion m.version).version []
      (p.setVersion m.version).fields (b ++ rest) = .done xs rest := by
    rw [hp.1, hp.2, htype.version_setVersion]
    exact hread
  refine ⟨{ p.setVersion m.version with fields := xs }, ?_, ?_, ?_⟩
  · rw [Message.read, hcopy]
    rfl
  · exact congrArg Value.bundle (by rw [hvalues, hfields])
  · exact hxmodes.trans (by rw [modes, hfields])

/-- A byte that may be absent, and is if no rule is about it. -/
def maybeOctet (mode : OptionalMode) (v : Int64) : Field :=
  .optional ⟨.int ((octet 0).withValue v), .int (octet 0), mode⟩

/-- Three bytes behind flags, before any rule is given. -/
def unruledBytes : Message where
  id := 1
  name := "Bytes"
  fields := [⟨"flags", .bitmask (.ofBytes 1)⟩, ⟨"a", maybeOctet .missing 0⟩,
    ⟨"b", maybeOctet .missing 0⟩, ⟨"c", maybeOctet .missing 0⟩]
  versioned := true

/-- The first byte is there if the lowest flag is set and the version is at least two, the second
one if the next flag is clear. There is no rule about the third one. -/
def flaggedBytes : Message :=
  { unruledBytes with
    rules := [⟨1, .bit 0 0 true⟩, ⟨1, .versionAtLeast 2⟩, ⟨2, .bit 0 1 false⟩]
    fields := [⟨"flags", .bitmask (.ofBytes 1)⟩, ⟨"a", maybeOctet .missing 0⟩,
      ⟨"b", maybeOctet .present 0⟩, ⟨"c", maybeOctet .missing 0⟩] }

/-- Both flags are set, and the first byte too, which the version then makes present. -/
theorem flaggedBytes_read_write_presence :
    ((unruledBytes.withPresence? "a" (.bit "flags" 0 true)).bind fun m =>
        (m.withPresence? "a" (.versionAtLeast 2)).bind fun m =>
          m.withPresence? "b" (.bit "flags" 1 false)) = .ok flaggedBytes ∧
      ∃ m, flaggedBytes.Edited m ∧ m.refresh.1.write = .ok [3, 7] ∧
        m.refresh.1.modes = [none, some .present, some .missing, some .missing] ∧
        ∃ x, (flaggedBytes.setVersion m.version).read ([3, 7] ++ [9]) = .done x [9] ∧
          x.value = m.refresh.1.value ∧ x.modes = m.refresh.1.modes := by
  let unversioned : Message :=
    { flaggedBytes with
      fields := [⟨"flags", .bitmask ((BitmaskField.ofBytes 1).withValue 3)⟩,
        ⟨"a", maybeOctet .present 7⟩, ⟨"b", maybeOctet .present 0⟩, ⟨"c", maybeOctet .missing 0⟩] }
  let m := unversioned.setVersion 2
  have hflags : flaggedBytes.editAt? "flags" [] (.assign (.int 3)) = some (_, _) := rfl
  have hm : flaggedBytes.Edited m := .setVersion 2 (.edit (.edit .start hflags)
    (show Message.editAt? _ "a" [] (.assign (.int 7)) = some (unversioned, _) from rfl))
  have hw : m.refresh.1.write = .ok [3, 7] := rfl
  refine ⟨rfl, m, hm, hw, rfl, Message.read_write_presence hm ?_ ?_ hw [9]⟩
  · refine .cons ?_ (.cons (fun _ => ?_) (.cons nofun (.cons nofun .nil)))
    · refine Field.Recovers.readsBack (BitmaskField.recovers ⟨?_, nofun⟩) ?_
      · decide
      · rintro b ⟨⟩
        decide
    · refine Field.Recovers.readsBack (IntField.recovers nofun) ?_
      rintro b ⟨⟩
      decide
  · intro i hi
    match i with
    | 0 => exact ⟨rfl, nofun⟩
    | 1 => exact absurd rfl (hi _ (.head _))
    | 2 => exact absurd rfl (hi _ (.tail _ (.tail _ (.head _))))
    | 3 => exact ⟨rfl, nofun⟩
    | i + 4 => exact ⟨rfl, nofun⟩

end WireProtocol
