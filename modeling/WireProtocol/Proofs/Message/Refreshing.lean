import WireProtocol.Proofs.Field.RefreshedEncoding
import WireProtocol.Proofs.Field.Spans
import WireProtocol.Proofs.Message.Presence

/-!
# Refreshing a message settles it

One pass from the first field to the last is enough: a rule looks only at bitmasks in front of its
field, which refreshing leaves as they are, and a field is brought into its mode before the lengths
inside it are derived. Nothing else changes (`Message.refresh_keeps`). What the pass leaves is
settled, that is, each field is in the mode that the rules ask of it and fresh
(`Message.refresh_settles`). A message that was read is settled as well, because the reader asks for
the same modes and takes over exact lengths (`Message.read_refresh`).
-/

set_option autoImplicit false

namespace WireProtocol

variable {rules : List PresenceRule} {version : UInt64}

/-! ## The mode that is asked for -/

/-- A field that some rule is about is asked to be there if all rules about it hold, and otherwise
not to be. -/
theorem requiredMode_cases (version : UInt64) {before : List (Member Field)}
    (h : ∃ r ∈ rules, r.target = before.length) :
    (requiredMode rules version before = some .present ∧
        ∀ r ∈ rules, r.target = before.length → r.condition.holds version before = true) ∨
      (requiredMode rules version before = some .missing ∧
        ∃ r ∈ rules, r.target = before.length ∧ r.condition.holds version before = false) := by
  have hne : rules.filter (·.target == before.length) ≠ [] := by
    obtain ⟨r, hr, ht⟩ := h
    exact List.ne_nil_of_mem (List.mem_filter.2 ⟨hr, by simpa using ht⟩)
  unfold requiredMode
  split
  · exact absurd ‹_› hne
  · split
    · rename_i hall
      refine .inl ⟨rfl, fun r hr ht => ?_⟩
      exact List.all_eq_true.1 hall r (List.mem_filter.2 ⟨hr, by simpa using ht⟩)
    · rename_i hall
      refine .inr ⟨rfl, ?_⟩
      simpa [and_assoc] using hall

theorem InModes.getElem? {before ms : List (Member Field)} (h : InModes rules version before ms)
    {i : Nat} {x : Member Field} (hi : ms[i]? = some x) {mode : OptionalMode}
    (hmode : requiredMode rules version (before ++ ms.take i) = some mode) {o : Optional Field}
    (ho : x.field = .optional o) : o.mode = mode := by
  induction ms generalizing before i with
  | nil => cases hi
  | cons m ms ih =>
    obtain ⟨hm, hms⟩ := h
    cases i with
    | zero =>
      cases hi
      rw [List.take_zero, List.append_nil] at hmode
      exact hm mode hmode o ho
    | succ i =>
      rw [List.take_succ_cons, ← List.singleton_append, ← List.append_assoc] at hmode
      exact ih hms hi hmode

/-! ## One field -/

theorem Field.refresh_mode? (f : Field) : f.refresh.1.mode? = f.mode? := by
  cases f with
  | optional o =>
    obtain ⟨inner, default, mode⟩ := o
    cases mode <;> rfl
  | _ => rfl

/-- Bringing a field into the mode that it is in changes nothing. -/
theorem Field.inMode_unchanged {f : Field} {mode : Option OptionalMode}
    (h : ∀ m, mode = some m → ∀ o, f = .optional o → o.mode = m) : f.inMode mode = (f, false) := by
  unfold inMode
  split
  · exact if_pos (h _ rfl _ rfl)
  · rfl

/-- Bringing a field into a mode either changes nothing or gives it another mode, and says so. -/
theorem Field.inMode_cases (f : Field) (mode : Option OptionalMode) :
    f.inMode mode = (f, false) ∨
      ((f.inMode mode).2 = true ∧ (f.inMode mode).1.mode? ≠ f.mode?) := by
  unfold inMode
  split
  · rename_i m o
    by_cases hm : o.mode = m
    · exact .inl (if_pos hm)
    · rw [if_neg hm]
      exact .inr ⟨rfl, fun h => hm (Option.some.inj h).symm⟩
  · exact .inl rfl

section
variable {f : Field} {mode : Option OptionalMode}

/-- A field for which nothing is reported stays as it is. -/
theorem Field.refresh_inMode_unchanged
    (h : ((f.inMode mode).2 || (f.inMode mode).1.refresh.2) = false) :
    (f.inMode mode).1.refresh.1 = f := by
  rcases f.inMode_cases mode with heq | ⟨hm, -⟩
  · rw [heq] at h ⊢
    exact Fresh.refresh_eq h
  · rw [hm] at h
    cases h

/-- A field for which a change is reported has another mode afterwards or another length somewhere
in it. -/
theorem Field.refresh_inMode_changed
    (h : ((f.inMode mode).2 || (f.inMode mode).1.refresh.2) = true) :
    (f.inMode mode).1.refresh.1.mode? ≠ f.mode? ∨
      f.LengthChanged (f.inMode mode).1.refresh.1 := by
  rcases f.inMode_cases mode with heq | ⟨-, hm⟩
  · rw [heq] at h ⊢
    exact .inr (f.refresh_changed.1 h)
  · rw [refresh_mode?]
    exact .inl hm

end

theorem Field.mask?_inMode (f : Field) (mode : Option OptionalMode) :
    (f.inMode mode).1.mask? = f.mask? := by
  unfold inMode
  split
  · split <;> rfl
  · rfl

theorem Field.mask?_refresh (f : Field) : f.refresh.1.mask? = f.mask? := by
  cases f with
  | optional o =>
    obtain ⟨inner, default, mode⟩ := o
    cases mode <;> rfl
  | _ => rfl

/-- The second field is the first one in the mode that is asked of it, and refreshed. But for the
lengths in it nothing else has changed. -/
structure Member.RefreshedIn (mode : Option OptionalMode) (x y : Member Field) : Prop where
  name : y.name = x.name
  field : y.field = (x.field.inMode mode).1.refresh.1
  kept : y.field.forgetLengths = (x.field.inMode mode).1.forgetLengths

/-! ## All fields -/

/-- Fields that are refreshed stay in their places, and bitmasks keep their bits. -/
theorem refreshFields_keeps (rules : List PresenceRule) (version : UInt64)
    (before ms : List (Member Field)) :
    ∃ fresh, (refreshFields rules version before ms).1 = before ++ fresh ∧
      masks fresh = masks ms ∧
      ∀ (i : Nat) (x y : Member Field), ms[i]? = some x → fresh[i]? = some y →
        x.RefreshedIn (requiredMode rules version (before ++ ms.take i)) y := by
  induction ms generalizing before with
  | nil => exact ⟨[], (List.append_nil before).symm, rfl, fun _ _ _ hx => by cases hx⟩
  | cons m ms ih =>
    let mode := requiredMode rules version before
    let first : Member Field := { m with field := (m.field.inMode mode).1.refresh.1 }
    have hmask : first.field.mask? = m.field.mask? :=
      (Field.mask?_refresh _).trans (m.field.mask?_inMode mode)
    obtain ⟨fresh, heq, hmasks, hfields⟩ := ih (before ++ [first])
    refine ⟨first :: fresh, ?_, congrArg₂ List.cons hmask hmasks, fun i x y hx hy => ?_⟩
    · rw [refreshFields]
      exact heq.trans (List.append_assoc before [first] fresh)
    · cases i with
      | zero =>
        cases hx
        cases hy
        rw [List.take_zero, List.append_nil]
        exact ⟨rfl, rfl, Field.forgetLengths_refresh _⟩
      | succ i =>
        -- the rules see the first field as it was and as it is alike
        have hbefore : masks (before ++ [first] ++ ms.take i) =
            masks (before ++ (m :: ms).take (i + 1)) := by
          simp only [masks, List.map_append, List.map_cons, List.take_succ_cons,
            List.append_assoc, List.singleton_append, hmask]
        rw [← requiredMode_congr hbefore]
        exact hfields i x y hx hy

/-- Fields that are fresh and in the modes asked of them stay as they are. -/
theorem refreshFields_settled {before ms : List (Member Field)} (h : InModes rules version before ms)
    (hf : ∀ m ∈ ms, m.field.Fresh) :
    refreshFields rules version before ms = (before ++ ms, false) := by
  induction ms generalizing before with
  | nil => rw [List.append_nil]; rfl
  | cons m ms ih =>
    obtain ⟨hm, hms⟩ := h
    have hfresh := hf m (.head _)
    have ih := ih hms fun m hm => hf m (.tail _ hm)
    rw [refreshFields]
    simp only [Field.inMode_unchanged hm, hfresh.refresh_eq, ih, List.append_assoc,
      List.singleton_append]
    exact congrArg (Prod.mk _) (by rw [show m.field.refresh.2 = false from hfresh]; rfl)

/-- A length that a field sends is another one in the second list. -/
def LengthsChanged (ms ms' : List (Member Field)) : Prop :=
  ∃ (i : Nat) (x y : Member Field), ms[i]? = some x ∧ ms'[i]? = some y ∧
    x.field.LengthChanged y.field

theorem LengthsChanged.irrefl (ms : List (Member Field)) : ¬ LengthsChanged ms ms := by
  rintro ⟨i, x, y, hx, hy, path, v, v', hne, hv, hv'⟩
  cases hx.symm.trans hy
  exact hne (hv.unique hv')

/-- What refreshing leaves is fresh. It is what was there before unless a change is reported, and
then some field has another mode or another length in it. -/
theorem refreshFields_changes (rules : List PresenceRule) (version : UInt64)
    (before ms : List (Member Field)) :
    ∃ fresh, (refreshFields rules version before ms).1 = before ++ fresh ∧
      (∀ x ∈ fresh, x.field.Fresh) ∧
      ((refreshFields rules version before ms).2 = false → fresh = ms) ∧
      ((refreshFields rules version before ms).2 = true →
        fresh.map (·.field.mode?) ≠ ms.map (·.field.mode?) ∨ LengthsChanged ms fresh) := by
  induction ms generalizing before with
  | nil => exact ⟨[], (List.append_nil before).symm, List.forall_mem_nil _, fun _ => rfl, nofun⟩
  | cons m ms ih =>
    let mode := requiredMode rules version before
    let first : Member Field := { m with field := (m.field.inMode mode).1.refresh.1 }
    obtain ⟨fresh, heq, hfresh, hsame, hchanged⟩ := ih (before ++ [first])
    have hrefresh : refreshFields rules version before (m :: ms) =
        ((refreshFields rules version (before ++ [first]) ms).1,
          ((m.field.inMode mode).2 || (m.field.inMode mode).1.refresh.2) ||
            (refreshFields rules version (before ++ [first]) ms).2) := rfl
    rw [hrefresh]
    refine ⟨first :: fresh, ?_, ?_, fun h => ?_, fun h => ?_⟩
    · dsimp only
      rw [heq, List.append_assoc]
      rfl
    · exact List.forall_mem_cons.2 ⟨Field.refresh_fresh _, hfresh⟩
    · obtain ⟨hm, hms⟩ := Bool.or_eq_false_iff.1 h
      rw [hsame hms]
      exact congrArg (fun f => { m with field := f } :: ms) (Field.refresh_inMode_unchanged hm)
    · rcases Bool.or_eq_true_iff.1 h with hm | hms
      · rcases Field.refresh_inMode_changed hm with hmode | hlength
        · exact .inl fun hmodes => hmode (List.cons.inj hmodes).1
        · exact .inr ⟨0, m, first, rfl, rfl, hlength⟩
      · rcases hchanged hms with hmodes | ⟨i, x, y, hx, hy, hlength⟩
        · exact .inl fun h => hmodes (List.cons.inj h).2
        · exact .inr ⟨i + 1, x, y, hx, hy, hlength⟩

/-! ## Messages -/

/-- The message is the other one with each field in the mode that the rules ask of it there, and
refreshed. -/
structure Message.RefreshedFrom (fresh m : Message) : Prop where
  rest : fresh = { m with fields := fresh.fields }
  length : fresh.fields.length = m.fields.length
  masks : masks fresh.fields = masks m.fields
  field : ∀ (i : Nat) (x y : Member Field), m.fields[i]? = some x → fresh.fields[i]? = some y →
    x.RefreshedIn (requiredMode m.rules m.version (m.fields.take i)) y

theorem Message.refresh_keeps (m : Message) : m.refresh.1.RefreshedFrom m := by
  obtain ⟨fresh, heq, hmasks, hfields⟩ := refreshFields_keeps m.rules m.version [] m.fields
  replace heq : m.refresh.1.fields = fresh := heq
  rw [← heq] at hmasks hfields
  exact ⟨rfl, by simpa [WireProtocol.masks] using congrArg List.length hmasks, hmasks, hfields⟩

theorem Message.refresh_of_settled {m : Message} (h : InModes m.rules m.version [] m.fields)
    (hf : ∀ x ∈ m.fields, x.field.Fresh) : m.refresh = (m, false) := by
  unfold refresh
  rw [refreshFields_settled h hf]
  rfl

/-- **Refreshing settles a message**, whatever its fields and rules are and in any state. It keeps all
of the message but the modes of fields and the lengths in them, and the bitmasks with it. Then each
optional field that rules are about is there if they all hold, given the bitmasks and the version,
and is not otherwise; all length members that are sent are exact, wherever they are nested. A change
is reported exactly if the mode of a field or a length that is sent was changed, and if it is not,
nothing was. Refreshing once more changes nothing and reports no change. -/
theorem Message.refresh_settles (m : Message) :
    m.refresh.1.RefreshedFrom m ∧
    (∀ (i : Nat) (x : Member Field) (o : Optional Field), m.refresh.1.fields[i]? = some x →
      x.field = .optional o → (∃ r ∈ m.rules, r.target = i) →
        (o.mode = .present ↔ ∀ r ∈ m.rules, r.target = i →
          r.condition.holds m.version (m.refresh.1.fields.take i) = true) ∧
        (o.mode = .missing ↔ ∃ r ∈ m.rules, r.target = i ∧
          r.condition.holds m.version (m.refresh.1.fields.take i) = false)) ∧
    (∀ x ∈ m.refresh.1.fields, ∀ g, Field.Sends g x.field → g.LengthExact) ∧
    (m.refresh.2 = true ↔
      m.refresh.1.modes ≠ m.modes ∨ LengthsChanged m.fields m.refresh.1.fields) ∧
    (m.refresh.2 = false → m.refresh.1 = m) ∧
    m.refresh.1.refresh = (m.refresh.1, false) := by
  obtain ⟨fresh, hfields, hfresh, hsame, hchanged⟩ :=
    refreshFields_changes m.rules m.version [] m.fields
  obtain ⟨_, heq, -, hmodes⟩ := refreshFields_inModes m.rules m.version [] m.fields
  cases hfields.symm.trans heq
  replace hfields : m.refresh.1.fields = fresh := hfields
  have hunchanged : m.refresh.2 = false → m.refresh.1 = m := fun h => by
    show { m with fields := m.refresh.1.fields } = m
    rw [hfields, hsame h]
  refine ⟨m.refresh_keeps, fun i x o hx ho hr => ?_, fun x hx => ?_,
    ⟨fun h => ?_, fun h => ?_⟩, hunchanged, ?_⟩
  · rw [hfields] at hx ⊢
    have hl : (fresh.take i).length = i := by
      have := (List.getElem?_eq_some_iff.1 hx).1
      rw [List.length_take]
      omega
    have hcases := requiredMode_cases m.version (hl.symm ▸ hr)
    rw [hl] at hcases
    rcases hcases with ⟨hmode, hall⟩ | ⟨hmode, r, hr, ht, hfalse⟩
    · have hmode := hmodes.getElem? hx hmode ho
      refine ⟨iff_of_true hmode hall, iff_of_false (by rw [hmode]; exact nofun) ?_⟩
      rintro ⟨r, hr, ht, hfalse⟩
      cases (hall r hr ht).symm.trans hfalse
    · have hmode := hmodes.getElem? hx hmode ho
      refine ⟨iff_of_false (by rw [hmode]; exact nofun) fun hall => ?_,
        iff_of_true hmode ⟨r, hr, ht, hfalse⟩⟩
      cases (hall r hr ht).symm.trans hfalse
  · rw [hfields] at hx
    exact Field.fresh_iff.1 (hfresh x hx)
  · rw [Message.modes, Message.modes, hfields]
    exact hchanged h
  · by_contra hf
    rw [hunchanged (by simpa using hf)] at h
    exact h.elim (fun hne => hne rfl) (LengthsChanged.irrefl _)
  · refine refresh_of_settled ?_ ?_ <;> rw [hfields]
    · exact hmodes
    · exact hfresh

/-- A region behind its length, of which a byte is read. -/
def measuredOctet : Field :=
  .bundle (.measured [] "length" (octet 0) [⟨"first", .int (octet 0)⟩] [])

/-- A message whose body is there if the lowest flag is set. -/
def flaggedBody : Message where
  id := 1
  name := "Body"
  fields := [⟨"flags", .bitmask (.ofBytes 1)⟩,
    ⟨"body", .optional ⟨measuredOctet, measuredOctet, .missing⟩⟩]
  rules := [⟨1, .bit 0 0 true⟩]

/-- The message with the flag set, and a body of that length member in that mode. -/
def flaggedBodyIn (mode : OptionalMode) (length : Int64) : Message :=
  let length := (octet 0).withValue length
  let inner := .bundle (.measured [] "length" length [⟨"first", .int (octet 0)⟩] [])
  { flaggedBody with
    fields := [⟨"flags", .bitmask { BitmaskField.ofBytes 1 with value := 1 }⟩,
      ⟨"body", .optional ⟨inner, measuredOctet, mode⟩⟩] }

/-- The flag brings in the body, whose length is then that of the byte in it. -/
theorem flaggedBodyIn_refresh :
    (flaggedBodyIn .missing 0).refresh = (flaggedBodyIn .present 1, true) ∧
      (flaggedBodyIn .present 1).refresh = (flaggedBodyIn .present 1, false) :=
  ⟨rfl, (Message.refresh_settles (flaggedBodyIn .missing 0)).2.2.2.2.2⟩

/-- An optional field that was read in a mode that a rule can ask for is in that mode. -/
theorem Field.inMode_read {f : Field} {mode : OptionalMode} (hne : mode ≠ .tentative) {src : Bytes}
    {o : Optional Field} (h : ((f.inMode (some mode)).1.read src).error = none)
    (ho : ((f.inMode (some mode)).1.read src).value = .optional o) : o.mode = mode := by
  have hkind := (Field.read_kind (f.inMode (some mode)).1 src).trans (f.inMode_kind (some mode))
  rw [ho] at hkind
  obtain ⟨o', rfl⟩ := optional_of_kind hkind.symm
  rw [inMode_optional, read_optional] at h ho
  cases mode with
  | tentative => exact absurd rfl hne
  | missing =>
    cases ho
    rfl
  | present =>
    rw [if_neg (by simp)] at h ho
    obtain ⟨-, heq⟩ := Outcome.andThen_ok h
    rw [heq] at ho
    cases ho
    rfl

/-- Fields that were read are fresh and in the modes asked of them. -/
theorem readFields_settled {before ms : List (Member Field)} {src : Bytes}
    (h : (readFields rules version before ms src).error = none) :
    ∃ read, (readFields rules version before ms src).value = before ++ read ∧
      InModes rules version before read ∧ ∀ x ∈ read, x.field.Fresh := by
  induction ms generalizing before src with
  | nil => exact ⟨[], (List.append_nil before).symm, trivial, List.forall_mem_nil _⟩
  | cons m ms ih =>
    rw [readFields_cons] at h ⊢
    obtain ⟨hm, heq⟩ := Outcome.andThen_ok h
    rw [heq] at h ⊢
    obtain ⟨read, hread, hmodes, hfresh⟩ := ih h
    refine ⟨_ :: read, hread.trans (List.append_assoc _ _ _), ⟨fun mode hmode o ho => ?_, hmodes⟩,
      List.forall_mem_cons.2 ⟨Field.read_fresh hm, hfresh⟩⟩
    have hne : mode ≠ .tentative := by
      rintro rfl
      exact requiredMode_ne_tentative rules version before hmode
    rw [hmode] at hm
    dsimp only at ho
    rw [hmode] at ho
    exact Field.inMode_read hne hm ho

/-- **A message that was read is settled**: refreshing it changes nothing and reports no change. -/
theorem Message.read_refresh {m : Message} {src : Bytes} (h : (m.read src).error = none) :
    (m.read src).value.refresh = ((m.read src).value, false) := by
  replace h : (readFields m.rules m.version [] m.fields src).error = none := h
  obtain ⟨read, hfields, hmodes, hfresh⟩ := readFields_settled h
  replace hfields : (m.read src).value.fields = read := hfields
  refine refresh_of_settled ?_ ?_ <;> rw [hfields]
  · exact hmodes
  · exact hfresh

/-- The flag brings in the body, and two of its three bytes are kept unread. -/
theorem flaggedBody_read_refresh :
    (flaggedBody.read [1, 3, 7, 8, 9]).error = none ∧
      (flaggedBody.read [1, 3, 7, 8, 9]).value.modes = [none, some .present] ∧
      (flaggedBody.read [1, 3, 7, 8, 9]).value.refresh =
        ((flaggedBody.read [1, 3, 7, 8, 9]).value, false) :=
  ⟨rfl, rfl, Message.read_refresh rfl⟩

end WireProtocol
