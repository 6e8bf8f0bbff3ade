import WireProtocol.Proofs.Message.Presence

/-!
# Presence rules stay well formed

A rule names fields by their places, which are checked when it is added and never again. The places
keep their meaning: fields are only ever added behind the others, and whatever is done to a field
keeps its kind and, of a bitmask, its width (`Field.editAt?_role`). A message that takes no version
is given no rule about one, so that no version changes what it reads (`Message.Handled.rules_fit`).
-/

set_option autoImplicit false

namespace WireProtocol

/-! ## Roles -/

/-- The count of bytes of a field that is a bitmask. -/
def Field.maskBytes? (f : Field) : Option Nat := f.bitmask?.map (·.bytes)

/-- What rules rely on of a field: its kind and, of a bitmask, its width. -/
def Field.role (f : Field) : FieldKind × Option Nat := (f.kind, f.maskBytes?)

namespace Field

theorem bitmask?_eq_some {f : Field} {b : BitmaskField} (h : f.bitmask? = some b) :
    f = .bitmask b := by
  cases f with
  | bitmask b' => exact congrArg Field.bitmask (Option.some.inj h)
  | _ => cases h

theorem optional_of_isOptional {f : Field} (h : f.isOptional = true) : ∃ o, f = .optional o := by
  cases f with
  | optional o => exact ⟨o, rfl⟩
  | _ => cases h

/-- A field in the role of an optional one is optional. -/
theorem optional_of_role {f : Field} {o : Optional Field} (h : f.role = (Field.optional o).role) :
    ∃ o', f = .optional o' :=
  optional_of_kind (congrArg Prod.fst h)

/-- A field in the role of a bitmask is one of the same width. -/
theorem bitmask_of_role {f : Field} {b : BitmaskField} (h : f.role = (Field.bitmask b).role) :
    ∃ b', f = .bitmask b' ∧ b'.bytes = b.bytes := by
  obtain ⟨b', hb', hw⟩ := Option.map_eq_some_iff.1 (congrArg Prod.snd h)
  exact ⟨b', bitmask?_eq_some hb', hw⟩

/-- Fields of one kind that is not that of bitmasks have one role. -/
theorem role_congr {f g : Field} (hk : g.kind = f.kind)
    (h : ∀ b, f = .bitmask b → g.role = f.role) : g.role = f.role := by
  cases f with
  | bitmask b => exact h b rfl
  | _ =>
    refine congrArg₂ Prod.mk hk ?_
    cases g with
    | bitmask b => cases hk
    | _ => rfl

theorem read_role (f : Field) (src : Bytes) : (f.read src).value.role = f.role := by
  refine role_congr (read_kind f src) ?_
  rintro b rfl
  have hw : (b.read src).value.bytes = b.bytes := by
    unfold BitmaskField.read withBytes
    split
    · dsimp only
      split <;> rfl
    · rfl
  exact congrArg (fun n => (FieldKind.bitmask, some n)) hw

theorem inMode_role (f : Field) (mode : Option OptionalMode) :
    (f.inMode mode).1.role = f.role := by
  refine role_congr (inMode_kind f mode) ?_
  rintro b rfl
  cases mode <;> rfl

theorem refresh_role (f : Field) : f.refresh.1.role = f.role := by
  refine role_congr (refresh_kind f) ?_
  rintro b rfl
  rfl

theorem assign_role (v : Value) (f : Field) : (f.assign v).1.role = f.role := by
  refine role_congr (assign_kind v f) ?_
  rintro b rfl
  cases v with
  | missing => rfl
  | _ =>
    rw [Field.assign]
    rfl

theorem edit_role (e : Edit) (f : Field) : (f.edit e).1.role = f.role := by
  cases e with
  | read src => exact read_role f src
  | assign v => exact assign_role v f
  | refresh => exact refresh_role f
  | setBit i on =>
    refine role_congr (edit_kind _ f) ?_
    rintro b rfl
    have hw : (b.setBit i on).bytes = b.bytes := by
      unfold BitmaskField.setBit
      split <;> rfl
    exact congrArg (fun n => (FieldKind.bitmask, some n)) hw
  | _ => cases f <;> rfl

/-- **An edit of any part keeps the role of a field.** -/
theorem editAt?_role {path : List PathStep} {e : Edit} {f f' : Field} {reply : Option Reply}
    (h : f.editAt? path e = some (f', reply)) : f'.role = f.role := by
  cases path with
  | nil =>
    have hf : (f.edit e).1 = f' := congrArg Prod.fst (Option.some.inj h)
    rw [← hf]
    exact edit_role e f
  | cons step path =>
    refine role_congr (editAt?_kind h) ?_
    rintro b rfl
    -- a bitmask has no parts
    cases step <;> cases h

end Field

/-! ## Roles of all fields -/

/-- The roles of the fields by their places. -/
def roles (ms : List (Member Field)) : List (FieldKind × Option Nat) := ms.map (·.field.role)

theorem roles_getElem? {ms ms' : List (Member Field)} (h : roles ms' = roles ms) {i : Nat}
    {x : Member Field} (hx : ms[i]? = some x) :
    ∃ x', ms'[i]? = some x' ∧ x'.field.role = x.field.role := by
  have hi : (roles ms')[i]? = some x.field.role := by
    rw [h, roles, List.getElem?_map, hx]
    rfl
  rw [roles, List.getElem?_map] at hi
  exact Option.map_eq_some_iff.1 hi

theorem roles_modifyFirst? {ρ : Type} {name : String} {g : Field → Option (Field × ρ)}
    (hg : ∀ f f' r, g f = some (f', r) → f'.role = f.role) {ms new : List (Member Field)} {r : ρ}
    (h : Member.modifyFirst? name g ms = some (new, r)) : roles new = roles ms := by
  have hms := Member.modifyFirst?_forall₂ (R := fun f f' : Field => f'.role = f.role)
    (fun _ => rfl) hg h
  clear h
  induction hms with
  | nil => rfl
  | cons hm _ ih => exact congrArg₂ List.cons hm.2 ih

/-- Refreshing keeps the roles of the fields. -/
theorem refreshFields_roles (rules : List PresenceRule) (version : UInt64)
    (before ms : List (Member Field)) :
    roles (refreshFields rules version before ms).1 = roles (before ++ ms) := by
  induction ms generalizing before with
  | nil =>
    rw [List.append_nil]
    rfl
  | cons m ms ih =>
    have hp : (m.field.inMode (requiredMode rules version before)).1.refresh.1.role =
        m.field.role := (Field.refresh_role _).trans (Field.inMode_role _ _)
    rw [refreshFields]
    dsimp only
    rw [ih]
    simp only [roles, List.map_append, List.map_cons, List.append_assoc, List.singleton_append, hp]

/-! ## Rules that fit -/

/-- The rule is about an optional field, and the bit that it looks at, if any, is one of a bitmask in
front of that field. -/
def PresenceRule.Fits (ms : List (Member Field)) (r : PresenceRule) : Prop :=
  (∃ x o, ms[r.target]? = some x ∧ x.field = .optional o) ∧
    ∀ mask bit set, r.condition = .bit mask bit set →
      mask < r.target ∧ ∃ x b, ms[mask]? = some x ∧ x.field = .bitmask b ∧ bit < 8 * b.bytes

/-- The condition is not about the version. -/
def Condition.IgnoresVersion (c : Condition) : Prop :=
  ∀ v, c ≠ .versionAtLeast v ∧ c ≠ .versionBelow v

namespace PresenceRule.Fits

variable {ms ms' : List (Member Field)} {r : PresenceRule}

theorem congr (hf : r.Fits ms) (h : roles ms' = roles ms) : r.Fits ms' := by
  obtain ⟨⟨x, o, hx, ho⟩, hmask⟩ := hf
  constructor
  · obtain ⟨x', hx', hr⟩ := roles_getElem? h hx
    obtain ⟨o', ho'⟩ := Field.optional_of_role (ho ▸ hr)
    exact ⟨x', o', hx', ho'⟩
  · intro mask bit set hc
    obtain ⟨hlt, y, b, hy, hb, hbit⟩ := hmask mask bit set hc
    obtain ⟨y', hy', hr⟩ := roles_getElem? h hy
    obtain ⟨b', hb', hbytes⟩ := Field.bitmask_of_role (hb ▸ hr)
    exact ⟨hlt, y', b', hy', hb', hbytes ▸ hbit⟩

/-- More fields behind the others leave the places as they are. -/
theorem append (hf : r.Fits ms) (more : List (Member Field)) : r.Fits (ms ++ more) := by
  have hkept {i : Nat} {x : Member Field} (hx : ms[i]? = some x) : (ms ++ more)[i]? = some x := by
    rwa [List.getElem?_append_left (List.getElem?_eq_some_iff.1 hx).1]
  obtain ⟨⟨x, o, hx, ho⟩, hmask⟩ := hf
  refine ⟨⟨x, o, hkept hx, ho⟩, fun mask bit set hc => ?_⟩
  obtain ⟨hlt, y, b, hy, hb, hbit⟩ := hmask mask bit set hc
  exact ⟨hlt, y, b, hkept hy, hb, hbit⟩

end PresenceRule.Fits

namespace Message

/-- The rules fit the fields, and a message that takes no version has none and no rule about it. -/
structure RulesFit (m : Message) : Prop where
  fits : ∀ r ∈ m.rules, r.Fits m.fields
  versionless : m.versioned = false → m.version = 0
  unversioned : m.versioned = false → ∀ r ∈ m.rules, r.condition.IgnoresVersion

/-- Fields with other contents but the same roles do not unsettle the rules. -/
theorem RulesFit.congr {m m' : Message} (h : m.RulesFit) (hr : m'.rules = m.rules)
    (hd : m'.versioned = m.versioned) (hv : m.versioned = false → m'.version = m.version)
    (hf : roles m'.fields = roles m.fields) : m'.RulesFit where
  fits r hm := (h.fits r (hr ▸ hm)).congr hf
  versionless hu := (hv (hd ▸ hu)).trans (h.versionless (hd ▸ hu))
  unversioned hu r hm := h.unversioned (hd ▸ hu) r (hr ▸ hm)

theorem RulesFit.refresh {m : Message} (h : m.RulesFit) : m.refresh.1.RulesFit :=
  h.congr rfl rfl (fun _ => rfl) (refreshFields_roles m.rules m.version [] m.fields)

theorem RulesFit.read {m : Message} (h : m.RulesFit) (src : Bytes) : (m.read src).value.RulesFit :=
  h.congr rfl rfl (fun _ => rfl) <|
    readFields_map Field.read_role Field.inMode_role m.rules m.version [] m.fields src

theorem RulesFit.setVersion {m : Message} (h : m.RulesFit) (version : UInt64) :
    (m.setVersion version).RulesFit := by
  unfold Message.setVersion
  split
  · rename_i hv
    refine h.congr rfl rfl (fun hu => ?_) rfl
    rw [hv] at hu
    cases hu
  · exact h

theorem RulesFit.edit {m m' : Message} (h : m.RulesFit) {name : String} {path : List PathStep}
    {e : Edit} {reply : Option Reply} (he : m.editAt? name path e = some (m', reply)) :
    m'.RulesFit := by
  obtain ⟨⟨fields, r⟩, hf, heq⟩ := Option.map_eq_some_iff.1 he
  cases heq
  exact h.congr rfl rfl (fun _ => rfl) (roles_modifyFirst? (fun _ _ _ => Field.editAt?_role) hf)

/-! ## Accepted rules -/

theorem maskIndex?_ok {m : Message} {mask : String} {target bit i : Nat}
    (h : m.maskIndex? mask target bit = .ok i) :
    i < target ∧ ∃ x b, m.fields[i]? = some x ∧ x.field = .bitmask b ∧ bit < 8 * b.bytes := by
  unfold maskIndex? at h
  dsimp only at h
  split at h
  · cases h
  · split at h
    · rename_i b hb
      split at h
      · rename_i hbit
        cases h
        obtain ⟨x, hx, hxb⟩ := Option.bind_eq_some_iff.1 hb
        have hlt : i < target := by
          have hi := (List.getElem?_eq_some_iff.1 hx).1
          rw [List.length_take] at hi
          omega
        rw [List.getElem?_take_of_lt hlt] at hx
        exact ⟨hlt, x, b, hx, Field.bitmask?_eq_some hxb, hbit⟩
      · cases h
    · cases h

/-- An accepted condition looks at a bit of a bitmask before the target, or at the version of a
message that takes one. -/
theorem condition?_ok {m : Message} {target : String} {index : Nat} {presence : Presence}
    {c : Condition} (h : m.condition? target index presence = .ok c) :
    (∀ mask bit set, c = .bit mask bit set →
      mask < index ∧ ∃ x b, m.fields[mask]? = some x ∧ x.field = .bitmask b ∧ bit < 8 * b.bytes) ∧
    (m.versioned = false → c.IgnoresVersion) := by
  cases presence with
  | bit mask bit set =>
    obtain ⟨i, hi, h⟩ := bind_eq_ok.1 h
    cases h
    refine ⟨?_, fun _ _ => ⟨nofun, nofun⟩⟩
    rintro _ _ _ ⟨⟩
    exact maskIndex?_ok hi
  | versionAtLeast v | versionBelow v =>
    rw [condition?] at h
    split at h
    · rename_i hv
      cases h
      refine ⟨nofun, fun hu => ?_⟩
      rw [hv] at hu
      cases hu
    · cases h

/-- **A rule that is accepted fits the fields**, and is about the version only if the message takes
one. -/
theorem rule?_ok {m : Message} {target : String} {presence : Presence} {r : PresenceRule}
    (h : m.rule? target presence = .ok r) :
    r.Fits m.fields ∧ (m.versioned = false → r.condition.IgnoresVersion) := by
  unfold rule? at h
  split at h
  · cases h
  · rename_i i _
    split at h
    · rename_i hopt
      obtain ⟨c, hc, h⟩ := bind_eq_ok.1 h
      cases h
      obtain ⟨hbit, hversion⟩ := condition?_ok hc
      refine ⟨⟨?_, hbit⟩, hversion⟩
      cases hx : m.fields[i]? with
      | none =>
        rw [hx] at hopt
        cases hopt
      | some x =>
        rw [hx] at hopt
        obtain ⟨o, ho⟩ := Field.optional_of_isOptional hopt
        exact ⟨x, o, rfl, ho⟩
    · cases h

/-- A rule more, if it is accepted, is one more that fits. -/
theorem RulesFit.withPresence? {m m' : Message} (hm : m.RulesFit) {target : String}
    {presence : Presence} (h : m.withPresence? target presence = .ok m') : m'.RulesFit := by
  unfold Message.withPresence? at h
  split at h
  · cases h
  · rename_i r hr
    cases h
    obtain ⟨hfits, hversion⟩ := rule?_ok hr
    refine RulesFit.refresh ⟨fun r' hr' => ?_, hm.versionless, fun hu r' hr' => ?_⟩
    · rcases List.mem_append.1 hr' with h | h
      · exact hm.fits r' h
      · rwa [List.mem_singleton.1 h]
    · rcases List.mem_append.1 hr' with h | h
      · exact hm.unversioned hu r' h
      · rw [List.mem_singleton.1 h]
        exact hversion hu

theorem RulesFit.withField {m : Message} (h : m.RulesFit) (name : String) (f : Field) :
    (m.withField name f).RulesFit where
  fits r hr := (h.fits r hr).append _
  versionless := h.versionless
  unversioned := h.unversioned

/-! ## Building and handling -/

/-- The message was made by giving an empty one fields and rules, and maybe the wish for a version,
in any order. -/
inductive Built : Message → Prop
  | new (id : UInt64) (name : String) : Built { id, name }
  | versioned {m : Message} : Built m → Built { m with versioned := true }
  | field {m : Message} (name : String) (f : Field) : Built m → Built (m.withField name f)
  | rule {m m' : Message} {target : String} {presence : Presence} :
    Built m → m.withPresence? target presence = .ok m' → Built m'

/-- The message was built and then read into, refreshed, given versions and edited, in any order.
What a failed reading left behind counts too. -/
inductive Handled : Message → Prop
  | built {m : Message} : Built m → Handled m
  | read {m : Message} (src : Bytes) : Handled m → Handled (m.read src).value
  | refresh {m : Message} : Handled m → Handled m.refresh.1
  | setVersion {m : Message} (version : UInt64) : Handled m → Handled (m.setVersion version)
  | edit {m m' : Message} {name : String} {path : List PathStep} {e : Edit}
    {reply : Option Reply} : Handled m → m.editAt? name path e = some (m', reply) → Handled m'

theorem Built.rulesFit {m : Message} (h : m.Built) : m.RulesFit := by
  induction h with
  | new id name => exact ⟨nofun, fun _ => rfl, fun _ => nofun⟩
  | versioned _ ih => exact ⟨ih.fits, nofun, nofun⟩
  | field name f _ ih => exact ih.withField name f
  | rule _ hr ih => exact ih.withPresence? hr

theorem Handled.rulesFit {m : Message} (h : m.Handled) : m.RulesFit := by
  induction h with
  | built hb => exact hb.rulesFit
  | read src _ ih => exact ih.read src
  | refresh _ ih => exact ih.refresh
  | setVersion version _ ih => exact ih.setVersion version
  | edit _ he ih => exact ih.edit he

end Message

/-! ## Reading without a version -/

theorem Condition.IgnoresVersion.holds {c : Condition} (h : c.IgnoresVersion) (v₁ v₂ : UInt64)
    (before : List (Member Field)) : c.holds v₁ before = c.holds v₂ before := by
  cases c with
  | bit mask bit set => rfl
  | versionAtLeast v => exact absurd rfl (h v).1
  | versionBelow v => exact absurd rfl (h v).2

section IgnoredVersion

variable {rules : List PresenceRule} (h : ∀ r ∈ rules, r.condition.IgnoresVersion)
  (v₁ v₂ : UInt64)

include h

theorem requiredMode_ignoresVersion (before : List (Member Field)) :
    requiredMode rules v₁ before = requiredMode rules v₂ before := by
  have hall : (rules.filter (·.target == before.length)).all (·.condition.holds v₁ before) =
      (rules.filter (·.target == before.length)).all (·.condition.holds v₂ before) := by
    rw [Bool.eq_iff_iff, List.all_eq_true, List.all_eq_true]
    refine forall₂_congr fun r hr => ?_
    rw [(h r (List.mem_of_mem_filter hr)).holds v₁ v₂ before]
  unfold requiredMode
  split
  · rfl
  · rw [hall]

/-- Rules that are not about the version read the same under any two. -/
theorem readFields_ignoresVersion (before ms : List (Member Field)) (src : Bytes) :
    readFields rules v₁ before ms src = readFields rules v₂ before ms src := by
  induction ms generalizing before src with
  | nil => rfl
  | cons m ms ih =>
    rw [readFields_cons, readFields_cons, requiredMode_ignoresVersion h v₁ v₂]
    simp only [ih]

end IgnoredVersion

/-- **Presence rules stay well formed, and a message that takes no version reads without one.**
However a message was built and handled, each of its rules is about an optional field and each bit
that a rule looks at is one of a bitmask in front of that field. If the message takes no version, no
rule is about one and the version stays zero. Setting a version then changes nothing in what any
bytes are read to, and no more would a version that the fields were read under in spite of that.
Names of fields need not differ, since a rule means the first field of a name. -/
theorem Message.Handled.rules_fit {m : Message} (h : m.Handled) :
    (∀ r ∈ m.rules, r.Fits m.fields) ∧
      (m.versioned = false →
        (∀ r ∈ m.rules, r.condition.IgnoresVersion) ∧ m.version = 0 ∧
          ∀ v₁ v₂ src, (m.setVersion v₁).read src = (m.setVersion v₂).read src ∧
            readFields m.rules v₁ [] m.fields src = readFields m.rules v₂ [] m.fields src) := by
  have hm := h.rulesFit
  refine ⟨hm.fits, fun hu => ⟨hm.unversioned hu, hm.versionless hu, fun v₁ v₂ src => ⟨?_, ?_⟩⟩⟩
  · have hset (v : UInt64) : m.setVersion v = m := by
      unfold Message.setVersion
      rw [hu]
      rfl
    rw [hset, hset]
  · exact readFields_ignoresVersion (hm.unversioned hu) v₁ v₂ [] m.fields src

/-- Two bytes behind flags. The first one is there if the lowest flag is set, the second one if the
next flag is clear. -/
def flaggedPair : Message where
  id := 1
  name := "Pair"
  fields := [⟨"flags", .bitmask (.ofBytes 1)⟩, ⟨"a", maybeOctet .missing 0⟩,
    ⟨"b", maybeOctet .present 0⟩]
  rules := [⟨1, .bit 0 0 true⟩, ⟨2, .bit 0 1 false⟩]

theorem flaggedPair_built : flaggedPair.Built := by
  have hfields := Message.Built.field "a" (maybeOctet .missing 0)
    (.field "flags" (.bitmask (.ofBytes 1)) (.new 1 "Pair"))
  have hfirst := hfields.rule
    (show Message.withPresence? _ "a" (.bit "flags" 0 true) = .ok _ from rfl)
  exact (hfirst.field "b" (maybeOctet .missing 0)).rule
    (show Message.withPresence? _ "b" (.bit "flags" 1 false) = .ok _ from rfl)

/-- The input ends in front of the first byte, which its flag asks for, and the second byte keeps its
mode. It is then edited. -/
theorem flaggedPair_rules_fit :
    ∃ m reply, (flaggedPair.read [3]).error = some (.notEnoughData 1) ∧
      (flaggedPair.read [3]).value.editAt? "b" [] (.assign (.int 7)) = some (m, reply) ∧
      m.versioned = false ∧ m.modes = [none, some .present, some .present] ∧
      (∀ r ∈ m.rules, r.Fits m.fields) ∧
      (∀ r ∈ m.rules, r.condition.IgnoresVersion) ∧ m.version = 0 ∧
        ∀ v₁ v₂ src, (m.setVersion v₁).read src = (m.setVersion v₂).read src ∧
          readFields m.rules v₁ [] m.fields src = readFields m.rules v₂ [] m.fields src := by
  have hcut : (flaggedPair.read [3]).value.Handled := .read [3] (.built flaggedPair_built)
  have hedit : (flaggedPair.read [3]).value.editAt? "b" [] (.assign (.int 7)) = some (_, _) := rfl
  obtain ⟨fits, unversioned⟩ := Message.Handled.rules_fit (.edit hcut hedit)
  exact ⟨_, _, rfl, hedit, rfl, rfl, fits, unversioned rfl⟩

end WireProtocol
