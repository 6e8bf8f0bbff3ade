import WireProtocol.Proofs.Field.Suffix
import WireProtocol.Proofs.Field.Tags

/-!
# Fields that are read from nothing

A bundle without members, an optional field that is missing and whatever takes the rest of the input
are read from no input at all. Every other field takes a byte at least in each read that succeeds
(`Field.read_progress_iff`), so the read of the empty input tells which of the two a field is.
`Progress r` says of a reader `r` that it always takes a byte; readers in order take one if any of
them does, and are read from nothing if each of them is.
-/

set_option autoImplicit false

namespace WireProtocol

variable {α β φ : Type}

/-- A read that succeeds takes a byte at least. -/
def Progress (read : Bytes → Outcome α) : Prop :=
  ∀ src, (read src).error = none → (read src).rest.length < src.length

/-- The read of the empty input succeeds. -/
def ReadsNothing (read : Bytes → Outcome α) : Prop := (read []).error = none

theorem Progress.not_readsNothing {read : Bytes → Outcome α} (h : Progress read) :
    ¬ ReadsNothing read := fun hn => Nat.not_lt_zero _ (h [] hn)

theorem Progress.map {read : Bytes → Outcome α} (h : Progress read) (f : α → β) :
    Progress fun src => (read src).map f := fun src he => h src he

theorem LeavesSuffix.rest_nil {read : Bytes → Outcome α} (h : LeavesSuffix read) :
    (read []).rest = [] := List.suffix_nil.1 (h [])

/-! ## Readers in order -/

theorem Progress.andThen {read : Bytes → Outcome α} {failed : α → β}
    {next : α → Bytes → Outcome β} (h : Progress read) (hn : ∀ v, LeavesSuffix (next v)) :
    Progress fun src => (read src).andThen failed next := by
  intro src he
  obtain ⟨hr, heq⟩ := Outcome.andThen_ok he
  have hlt := h src hr
  have hle := (hn (read src).value (read src).rest).length_le
  dsimp only
  rw [heq]
  omega

theorem LeavesSuffix.andThen_progress {read : Bytes → Outcome α} {failed : α → β}
    {next : α → Bytes → Outcome β} (h : LeavesSuffix read) (hn : ∀ v, Progress (next v)) :
    Progress fun src => (read src).andThen failed next := by
  intro src he
  obtain ⟨-, heq⟩ := Outcome.andThen_ok he
  dsimp only at he ⊢
  rw [heq] at he ⊢
  have hlt := hn _ _ he
  have hle := (h src).length_le
  omega

theorem withBytes_progress {n : Nat} (hn : 0 < n) {value : α}
    {next : Bytes → Bytes → Outcome α} (h : ∀ taken rest, (next taken rest).rest <:+ rest) :
    Progress fun src => withBytes n src value next := by
  intro src he
  obtain ⟨taken, rest, rfl, hl, heq⟩ := withBytes_ok he
  have hle := (h taken rest).length_le
  dsimp only
  rw [heq, List.length_append]
  omega

/-! ## Scalars -/

theorem IntField.read_progress (f : IntField) : Progress f.read := by
  intro src h
  obtain ⟨v, c, -, hs, hw⟩ := IntField.read_ok h
  have hc := IntField.length_write hw
  have hpos := (f.withValue v).minLength_pos
  have hmin := (f.withValue v).minLength_le_length
  have hl := congrArg List.length hs
  rw [List.length_append] at hl
  omega

theorem EnumField.read_progress (f : EnumField) : Progress f.read := by
  intro src h
  rw [EnumField.read_eq] at h ⊢
  exact f.storage.read_progress.andThen (fun s rest => suffix_of_eq (f.checked_rest s rest)) src h

theorem BitmaskField.read_progress (f : BitmaskField) : Progress f.read :=
  withBytes_progress f.bounds.1 fun taken rest => by dsimp only; split <;> exact List.suffix_rfl

theorem FloatField.read_progress (f : FloatField) : Progress f.read :=
  withBytes_progress (by cases f.precision <;> decide) fun _ _ => List.suffix_rfl

theorem Bitfield.read_progress (f : Bitfield) : Progress f.read :=
  withBytes_progress f.bounds.1 fun _ _ => List.suffix_rfl

theorem SizePolicy.readSize_progress {p : IntField} {src rest : Bytes} {n : Nat}
    (h : readSize p src = (.ok n, rest)) : rest.length < src.length := by
  obtain ⟨c, rfl, hw⟩ := readSize_ok h
  have hc := IntField.length_write hw
  have hpos := (p.withCount n).minLength_pos
  have hmin := (p.withCount n).minLength_le_length
  rw [List.length_append]
  omega

theorem SizePolicy.resume_progress {p : IntField} {value : α} {next : Nat → Bytes → Outcome α}
    (hn : ∀ n, LeavesSuffix (next n)) :
    Progress fun src => Decoded.resume (readSize p src) value next := by
  intro src he
  obtain ⟨n, mid, hr, heq⟩ := Decoded.resume_ok he
  have hlt := readSize_progress hr
  have hle := (hn n mid).length_le
  dsimp only
  rw [heq]
  omega

theorem ByteField.read_nothing_or_progress (f : ByteField) :
    ReadsNothing f.read ∨ Progress f.read := by
  cases hp : f.size.sizeField? with
  | some p =>
    refine .inr fun src h => ?_
    rw [f.read_sized hp] at h ⊢
    exact SizePolicy.resume_progress f.readData_suffix src h
  | none =>
    obtain ⟨size, data⟩ := f
    cases size with
    | remainder => exact .inl rfl
    | fixed n =>
      by_cases hn : n = 0
      · subst hn
        exact .inl rfl
      · exact .inr (withBytes_progress (Nat.pos_of_ne_zero hn) fun _ _ => List.suffix_rfl)
    | count p | length p => cases hp

/-! ## Lists -/

namespace ListOf

variable {readOne : Bytes → Outcome φ} {elemLength : Option IntField}

/-- An element takes the byte of its length, or one of its own. -/
theorem readElement_progress (hp : elemLength = none → Progress readOne) {src rest : Bytes}
    {e : φ × Bytes} (h : readElement readOne elemLength src = (.ok e, rest)) : rest.length < src.length := by
  cases elemLength with
  | none =>
    rw [readElement_none] at h
    obtain ⟨v, mid, hv, hn⟩ := Decoded.andThen_ok h
    obtain ⟨he, -, rfl⟩ := Decoded.ofOutcome_ok hv
    cases hn
    exact hp rfl src he
  | some p =>
    rw [readElement_some] at h
    obtain ⟨q, mid, hq, hn⟩ := Decoded.andThen_ok h
    obtain ⟨he, -, rfl⟩ := Decoded.ofOutcome_ok hq
    have hlt := p.read_progress src he
    have hsuffix : (readRegion readOne q (p.read src).rest).2 <:+ (p.read src).rest :=
      readRegion_suffix q _
    rw [hn] at hsuffix
    exact Nat.lt_of_le_of_lt hsuffix.length_le hlt

/-- Elements that are read from nothing are read from nothing in any number. -/
theorem readMany_nothing (hs : LeavesSuffix readOne) (hn : ReadsNothing readOne) (n : Nat)
    (before : List (φ × Bytes)) :
    readMany readOne none n before [] =
      (.ok (before.reverse ++ List.replicate n ((readOne []).value, [])), []) := by
  induction n generalizing before with
  | zero => simp [readMany]
  | succ n ih =>
    have he : readElement readOne none [] = (.ok ((readOne []).value, []), []) := by
      rw [readElement_none, Decoded.ofOutcome_andThen, hn, hs.rest_nil]
    rw [readMany_succ, he]
    show readMany readOne none n (((readOne []).value, []) :: before) [] = _
    rw [ih]
    simp [List.replicate_succ]

/-- Each of the elements takes a byte. -/
theorem readMany_progress (hp : elemLength = none → Progress readOne) {n : Nat}
    {before es : List (φ × Bytes)} {src rest : Bytes}
    (h : readMany readOne elemLength n before src = (.ok es, rest)) :
    n + rest.length ≤ src.length := by
  induction n generalizing before src with
  | zero =>
    cases h
    omega
  | succ n ih =>
    rw [readMany_succ] at h
    obtain ⟨e, mid, he, hn⟩ := Decoded.andThen_ok h
    have hlt := readElement_progress hp he
    have hle := ih hn
    omega

theorem readWith_nothing_or_progress (l : ListOf φ) (hs : LeavesSuffix readOne)
    (h : ReadsNothing readOne ∨ Progress readOne) :
    ReadsNothing (readWith readOne l) ∨ Progress (readWith readOne l) := by
  cases hsize : l.size with
  | remainder =>
    left
    simp only [ReadsNothing, readWith, hsize]
    rfl
  | count p =>
    refine .inr fun src he => ?_
    rw [readWith_count readOne l hsize] at he ⊢
    refine SizePolicy.resume_progress (fun n rest => ?_) src he
    rw [finish_rest]
    exact readMany_suffix hs _ _ _ _
  | length p =>
    refine .inr fun src he => ?_
    rw [readWith_length readOne l hsize] at he ⊢
    exact SizePolicy.resume_progress (fun n rest =>
      withBytes_suffix fun region rest => suffix_of_eq (finish_rest _ _)) src he
  | fixed n =>
    by_cases hempty : n = 0 ∨ l.elemLength = none ∧ ReadsNothing readOne
    · left
      simp only [ReadsNothing, readWith, hsize]
      rcases hempty with rfl | ⟨hl, hn⟩
      · rfl
      · rw [hl, readMany_nothing hs hn]
        rfl
    · simp only [not_or, not_and] at hempty
      obtain ⟨hpos, hone⟩ := hempty
      refine .inr fun src he => ?_
      simp only [readWith, hsize] at he ⊢
      obtain ⟨es, rest, hr, -⟩ := finish_ok he
      have hle := readMany_progress (fun hl => h.resolve_left (hone hl)) hr
      rw [finish_rest, hr]
      dsimp only
      omega

end ListOf

/-! ## Members -/

theorem readMembers_nothing {ms : List (Member Field)}
    (h : ∀ m ∈ ms, ReadsNothing m.field.read) : ReadsNothing (readMembers ms) := by
  induction ms with
  | nil => rfl
  | cons m ms ih =>
    have hm : ReadsNothing m.field.read := h m (.head _)
    have hms : ReadsNothing (readMembers ms) := ih fun m hm => h m (.tail _ hm)
    show (readMembers (m :: ms) []).error = none
    rw [readMembers_cons, Outcome.andThen_of_none hm, m.field.read_suffix.rest_nil]
    exact hms

theorem readMembers_progress {ms : List (Member Field)} {m : Member Field} (hm : m ∈ ms)
    (h : Progress m.field.read) : Progress (readMembers ms) := by
  have hsuffix (ms : List (Member Field)) : LeavesSuffix (readMembers ms) :=
    readMembers_suffix fun m _ => m.field.read_suffix
  induction hm with
  | head ms =>
    intro src he
    rw [readMembers_cons] at he ⊢
    exact h.andThen (fun v => (hsuffix ms).map _) src he
  | tail a _ ih =>
    intro src he
    rw [readMembers_cons] at he ⊢
    exact a.field.read_suffix.andThen_progress (fun v => ih.map _) src he

theorem readBundle_measured_progress (head : List (Member Field)) (name : String)
    (length : IntField) (tail : List (Member Field)) (trailing : Bytes) :
    Progress (readBundle (.measured head name length tail trailing)) := by
  intro src he
  rw [readBundle_measured] at he ⊢
  refine (readMembers_suffix fun m _ => m.field.read_suffix).andThen_progress (fun hs => ?_) src he
  exact length.read_progress.andThen fun n => readTail_suffix hs name tail trailing n

theorem readBundle_progress {b : Bundle Field} {m : Member Field} (hm : m ∈ b.members)
    (h : Progress m.field.read) : Progress (readBundle b) := by
  cases b with
  | plain ms =>
    intro src he
    rw [readBundle] at he ⊢
    exact readMembers_progress hm h src he
  | measured head name length tail trailing =>
    exact readBundle_measured_progress head name length tail trailing

theorem readBundle_nothing_or_progress {b : Bundle Field}
    (h : ∀ m ∈ b.members, ReadsNothing m.field.read ∨ Progress m.field.read) :
    ReadsNothing (readBundle b) ∨ Progress (readBundle b) := by
  by_cases hex : ∃ m ∈ b.members, Progress m.field.read
  · obtain ⟨m, hm, hp⟩ := hex
    exact .inr (readBundle_progress hm hp)
  · cases b with
    | plain ms =>
      left
      show (readBundle (.plain ms) []).error = none
      rw [readBundle]
      exact readMembers_nothing fun m hm => (h m hm).resolve_right fun hp => hex ⟨m, hm, hp⟩
    | measured head name length tail trailing =>
      exact .inr (readBundle_measured_progress head name length tail trailing)

/-- An alternative that finds its tag begins with a member that takes a byte. -/
theorem Choice.Takes.progress {c : Choice Field} {src : Bytes} (h : c.Takes src) :
    Progress (readBundle c.bundle) := by
  obtain ⟨f, t, hf, -⟩ := Choice.readTag?_ok h
  obtain ⟨m, hm, hstorage⟩ := Option.bind_eq_some_iff.1 hf
  obtain ⟨first, hfirst, rfl⟩ := Option.map_eq_some_iff.1 hm
  refine readBundle_progress (List.mem_of_head? hfirst) ?_
  cases hfield : first.field with
  | int g => exact g.read_progress
  | enumeration g => exact g.read_progress
  | _ => rw [hfield] at hstorage; cases hstorage

/-! ## Fields -/

theorem Variant.read_progress (v : Variant Field) : Progress (Field.variant v).read := by
  intro src he
  obtain ⟨alternatives, current⟩ := v
  rw [Field.read] at he ⊢
  cases hp : probeTags src 0 none alternatives with
  | error e =>
    rw [hp] at he
    cases he
  | ok i =>
    rw [hp] at he
    obtain ⟨k, c, rfl, hc, htakes, -⟩ := probeTags_ok hp
    rw [Nat.zero_add] at he ⊢
    dsimp only at he ⊢
    rw [readChoice_eq, hc] at he ⊢
    exact htakes.progress src he

theorem Field.read_nothing_or_progress (f : Field) : ReadsNothing f.read ∨ Progress f.read := by
  induction f with
  | int f => exact .inr f.read_progress
  | enumeration f => exact .inr f.read_progress
  | bitmask f => exact .inr f.read_progress
  | float f => exact .inr f.read_progress
  | text f => exact f.read_nothing_or_progress
  | bytes f => exact f.read_nothing_or_progress
  | list l ih _ =>
    refine (l.readWith_nothing_or_progress l.prototype.read_suffix ih).imp (fun h => ?_)
      fun h src he => ?_
    · show ((Field.list l).read []).error = none
      rw [Field.read]
      exact h
    · rw [Field.read] at he ⊢
      exact h src he
  | bitfield b => exact .inr b.read_progress
  | bundle b ih =>
    refine (readBundle_nothing_or_progress ih).imp (fun h => ?_) fun h src he => ?_
    · show ((Field.bundle b).read []).error = none
      rw [Field.read]
      exact h
    · rw [Field.read] at he ⊢
      exact h src he
  | optional o ih _ =>
    by_cases hmode : o.mode = .present
    · refine ih.imp (fun h => ?_) fun h src he => ?_
      · show ((Field.optional o).read []).error = none
        rw [Field.read_optional, hmode, if_neg (by simp), Outcome.andThen_of_none h]
        rfl
      · rw [Field.read_optional, hmode, if_neg (by simp)] at he ⊢
        exact h.andThen (fun _ _ => List.suffix_rfl) src he
    · left
      show ((Field.optional o).read []).error = none
      rw [Field.read_optional]
      cases hm : o.mode with
      | present => exact absurd hm hmode
      | missing | tentative => rfl
  | variant v => exact .inr v.read_progress
  | unknown data => exact .inl rfl

/-- **A field takes a byte in every read that succeeds, or is read from nothing.** -/
theorem Field.read_progress_iff (f : Field) : Progress f.read ↔ ¬ ReadsNothing f.read :=
  ⟨Progress.not_readsNothing, f.read_nothing_or_progress.resolve_left⟩

end WireProtocol
