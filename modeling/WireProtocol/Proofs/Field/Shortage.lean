import WireProtocol.Proofs.Field.Settled

/-!
# How much input is missing

A reader that is short of input says how many bytes are missing, and that count is exact as a lower
bound: there is at least one, and as long as fewer have come the reader is still short, of as many
fewer. `CountsMissing` is this law for the errors of a reader. Together with steadiness it says all
that more input can do to reading a field whose tags have one width (`Field.read_append`).
-/

set_option autoImplicit false

namespace WireProtocol

variable {α β φ : Type}

/-- At least one byte is missing, and each byte that comes leaves one less. -/
def CountsMissing (error : Bytes → Option CodecError) : Prop :=
  ∀ src n, error src = some (.notEnoughData n) →
    0 < n ∧ ∀ more, more.length < n →
      error (src ++ more) = some (.notEnoughData (n - more.length))

namespace Decoded

/-- The error of a decoder. -/
def error? (d : Decoded α) : Option CodecError :=
  match d.1 with
  | .ok _ => none
  | .error e => some e

/-- The error of a sequence: that of its first step, else that of the second. -/
def thenError (d : Decoded α) (next : α → Bytes → Option CodecError) : Option CodecError :=
  match d with
  | (.ok v, rest) => next v rest
  | (.error e, _) => some e

theorem ofOutcome_error? (o : Outcome α) : (ofOutcome o).error? = o.error := by
  unfold ofOutcome error?
  cases h : o.error <;> rfl

theorem andThen_error? (d : Decoded α) (next : α → Bytes → Decoded β) :
    (andThen d next).error? = d.thenError fun v rest => (next v rest).error? := by
  obtain ⟨result, rest⟩ := d
  cases result <;> rfl

theorem resume_error? (d : Decoded α) (value : β) (next : α → Bytes → Outcome β) :
    (resume d value next).error = d.thenError fun v rest => (next v rest).error := by
  obtain ⟨result, rest⟩ := d
  cases result <;> rfl

end Decoded

theorem Outcome.andThen_error? (o : Outcome α) (failed : α → β) (next : α → Bytes → Outcome β) :
    (o.andThen failed next).error =
      (Decoded.ofOutcome o).thenError fun v rest => (next v rest).error := by
  unfold andThen Decoded.ofOutcome
  cases h : o.error <;> rfl

namespace CountsMissing

/-- A reader that is never short of input. -/
theorem of_never {error : Bytes → Option CodecError}
    (h : ∀ src n, error src ≠ some (.notEnoughData n)) : CountsMissing error :=
  fun src n hn => absurd hn (h src n)

/-- A reader that never fails. -/
theorem of_none {error : Bytes → Option CodecError} (h : ∀ src, error src = none) :
    CountsMissing error :=
  of_never fun src n hn => by cases (h src).symm.trans hn

/-- **A sequence counts what is missing** if both steps do and the first one is steady: once it has
been read, what is missing is missing in the second. -/
theorem thenError {read : Bytes → Decoded α} {next : α → Bytes → Option CodecError}
    (hs : SteadyDecoder read) (h : CountsMissing fun src => (read src).error?)
    (hn : ∀ v, CountsMissing (next v)) :
    CountsMissing fun src => (read src).thenError next := by
  intro src n he
  dsimp only at he ⊢
  cases hr : read src with
  | mk result rest =>
    rw [hr] at he
    cases result with
    | error e =>
      cases he
      obtain ⟨hpos, hmore⟩ := h src n (by simp only [hr, Decoded.error?])
      refine ⟨hpos, fun more hl => ?_⟩
      have hm := hmore more hl
      dsimp only at hm
      cases hr' : read (src ++ more) with
      | mk result' rest' =>
        rw [hr'] at hm
        cases result' with
        | ok v => cases hm
        | error e => exact hm
    | ok v =>
      obtain ⟨hpos, hmore⟩ := hn v rest n he
      refine ⟨hpos, fun more hl => ?_⟩
      rw [hs src more (by rw [hr]; exact nofun), hr]
      exact hmore more hl

theorem andThen {read : Bytes → Outcome α} {failed : α → β} {next : α → Bytes → Outcome β}
    (hs : Steady read) (h : CountsMissing fun src => (read src).error)
    (hn : ∀ v, CountsMissing fun src => (next v src).error) :
    CountsMissing fun src => ((read src).andThen failed next).error := by
  simp only [Outcome.andThen_error?]
  refine thenError (SteadyDecoder.ofOutcome hs) ?_ hn
  simp only [Decoded.ofOutcome_error?]
  exact h

theorem decoded {read : Bytes → Outcome α} (h : CountsMissing fun src => (read src).error) :
    CountsMissing fun src => (Decoded.ofOutcome (read src)).error? := by
  simp only [Decoded.ofOutcome_error?]
  exact h

theorem decodedThen {read : Bytes → Decoded α} {next : α → Bytes → Decoded β}
    (hs : SteadyDecoder read) (h : CountsMissing fun src => (read src).error?)
    (hn : ∀ v, CountsMissing fun src => (next v src).error?) :
    CountsMissing fun src => (Decoded.andThen (read src) next).error? := by
  simp only [Decoded.andThen_error?]
  exact thenError hs h hn

theorem resume {read : Bytes → Decoded α} {value : β} {next : α → Bytes → Outcome β}
    (hs : SteadyDecoder read) (h : CountsMissing fun src => (read src).error?)
    (hn : ∀ v, CountsMissing fun src => (next v src).error) :
    CountsMissing fun src => (Decoded.resume (read src) value next).error := by
  simp only [Decoded.resume_error?]
  exact thenError hs h hn

end CountsMissing

/-- Bytes that are missing for a region are missing for it until they have come. -/
theorem Bytes.take?_missing {n missing : Nat} {src : Bytes} (h : take? n src = .error missing) :
    0 < missing ∧ ∀ more, more.length < missing →
      take? n (src ++ more) = .error (missing - more.length) := by
  rw [take?_eq] at h
  split at h
  · cases h
    refine ⟨by omega, fun more hm => ?_⟩
    rw [take?_eq, List.length_append, if_pos (by omega), Nat.sub_add_eq]
  · cases h

theorem withBytes_counts {n : Nat} {value : α} {next : Bytes → Bytes → Outcome α}
    (h : ∀ taken, CountsMissing fun rest => (next taken rest).error) :
    CountsMissing fun src => (withBytes n src value next).error := by
  intro src missing he
  dsimp only [withBytes] at he ⊢
  cases ht : Bytes.take? n src with
  | error m =>
    rw [ht] at he
    cases he
    obtain ⟨hpos, hmore⟩ := Bytes.take?_missing ht
    refine ⟨hpos, fun more hl => ?_⟩
    rw [hmore more hl]
    rfl
  | ok p =>
    rw [ht] at he
    obtain ⟨hpos, hmore⟩ := h p.1 p.2 missing he
    refine ⟨hpos, fun more hl => ?_⟩
    rw [Bytes.take?_extend more ht]
    exact hmore more hl

/-! ## Scalars -/

theorem IntField.checked_counts (f : IntField) : CountsMissing fun rest => (f.checked rest).error :=
  .of_never fun rest n hn => f.checked_not_isShort rest ⟨n, hn⟩

theorem IntField.read_counts (f : IntField) : CountsMissing fun src => (f.read src).error := by
  intro src n hn
  have hshort := (f.read_isShort src).1 ⟨n, hn⟩
  cases hw : f.format.width with
  | fixed k bounds =>
    have hread : f.read = fun src => withBytes k src f fun taken rest =>
        (f.setWire (wordOfBits f.format.signed (taken.toNat f.format.order)
          (8 * k))).checked rest := by
      funext src
      simp only [IntField.read, hw]
    rw [hread] at hn ⊢
    exact withBytes_counts (fun taken => IntField.checked_counts _) src n hn
  | var min max bounds =>
    -- a chain that goes on is short of one byte, whatever its length
    rw [hw] at hshort
    have hread : (f.read src).error = some (.notEnoughData 1) := by
      unfold IntField.read
      simp only [hw]
      rw [show Groups.scan max src = .short from hshort]
      rfl
    cases hread.symm.trans hn
    refine ⟨Nat.one_pos, fun more hl => ?_⟩
    obtain rfl := List.length_eq_zero_iff.1 (Nat.lt_one_iff.1 hl)
    rw [List.append_nil]
    exact hn

theorem EnumField.read_counts (f : EnumField) : CountsMissing fun src => (f.read src).error := by
  simp only [f.read_eq]
  refine .andThen f.storage.read_steady f.storage.read_counts fun s => .of_never fun rest n hn => ?_
  unfold EnumField.checked at hn
  dsimp only at hn
  split at hn <;> cases hn

theorem BitmaskField.read_counts (f : BitmaskField) :
    CountsMissing fun src => (f.read src).error :=
  withBytes_counts fun taken => .of_never fun rest n hn => by
    dsimp only at hn
    split at hn <;> cases hn

theorem FloatField.read_counts (f : FloatField) : CountsMissing fun src => (f.read src).error :=
  withBytes_counts fun _ => .of_none fun _ => rfl

theorem Bitfield.read_counts (f : Bitfield) : CountsMissing fun src => (f.read src).error :=
  withBytes_counts fun _ => .of_none fun _ => rfl

theorem SizePolicy.readSize_counts (p : IntField) :
    CountsMissing fun src => Decoded.error? (readSize p src) := by
  simp only [readSize_eq p]
  refine .decodedThen (SteadyDecoder.ofOutcome p.read_steady) p.read_counts.decoded fun v =>
    .of_never fun rest n hn => ?_
  split at hn <;> cases hn

theorem ByteField.readData_counts (f : ByteField) (n : Nat) :
    CountsMissing fun src => (f.readData n src).error :=
  withBytes_counts fun _ => .of_none fun _ => rfl

theorem ByteField.read_counts (f : ByteField) : CountsMissing fun src => (f.read src).error := by
  cases hp : f.size.sizeField? with
  | some p =>
    simp only [f.read_sized hp]
    exact .resume (SizePolicy.readSize_steady p) (SizePolicy.readSize_counts p) f.readData_counts
  | none =>
    obtain ⟨size, data⟩ := f
    cases size with
    | remainder => exact .of_none fun _ => rfl
    | fixed n => exact readData_counts _ n
    | count p | length p => cases hp

/-! ## Lists -/

namespace ListOf

variable {readOne : Bytes → Outcome φ}

/-- Inside a region no shortage of input is left to report. -/
theorem readRegion_counts (length : IntField) :
    CountsMissing fun src => (readRegion readOne length src).error? := by
  intro src n hn
  dsimp only [readRegion] at hn ⊢
  by_cases hneg : length.value < 0
  · rw [if_pos hneg] at hn
    cases hn
  rw [if_neg hneg] at hn
  cases ht : Bytes.take? length.value.toInt.toNat src with
  | error missing =>
    rw [ht] at hn
    cases hn
    obtain ⟨hpos, hmore⟩ := Bytes.take?_missing ht
    refine ⟨hpos, fun more hl => ?_⟩
    rw [if_neg hneg, hmore more hl]
    rfl
  | ok region =>
    rw [ht] at hn
    dsimp only at hn
    split at hn
    · cases hn
    · exact absurd (Option.some.inj hn) (CodecError.bounded_ne_notEnoughData _ _ _)

/-- An element counts what is missing if its reader does or it has a region of its own. -/
theorem readElement_counts {elemLength : Option IntField}
    (hs : elemLength = none → Steady readOne)
    (h : elemLength = none → CountsMissing fun src => (readOne src).error) :
    CountsMissing fun src => (readElement readOne elemLength src).error? := by
  cases elemLength with
  | none =>
    simp only [readElement_none readOne]
    exact .decodedThen (SteadyDecoder.ofOutcome (hs rfl)) (h rfl).decoded fun v => .of_none fun _ => rfl
  | some p =>
    simp only [readElement_some readOne p]
    exact .decodedThen (SteadyDecoder.ofOutcome p.read_steady) p.read_counts.decoded
      readRegion_counts

theorem readMany_counts {elemLength : Option IntField}
    (hs : elemLength = none → Steady readOne)
    (h : elemLength = none → CountsMissing fun src => (readOne src).error) (n : Nat)
    (before : List (φ × Bytes)) :
    CountsMissing fun src => (readMany readOne elemLength n before src).error? := by
  induction n generalizing before with
  | zero => exact .of_none fun _ => rfl
  | succ n ih =>
    simp only [readMany_succ readOne elemLength n before]
    exact .decodedThen (readElement_steady hs) (readElement_counts hs h) fun e => ih (e :: before)

theorem finish_error (l : ListOf φ) (d : Decoded (List (φ × Bytes))) :
    (l.finish d).error = d.error? := by
  obtain ⟨result, rest⟩ := d
  cases result <;> rfl

theorem readBounded_counts (l : ListOf φ) (n : Nat) :
    CountsMissing fun src => (readBounded readOne l n src).error := by
  refine withBytes_counts fun region => .of_never fun rest k hk => ?_
  rw [finish_error] at hk
  dsimp only [Decoded.error?] at hk
  cases hr : (readAll readOne l.elemLength region).1 with
  | ok elements =>
    rw [hr] at hk
    cases hk
  | error e =>
    rw [hr] at hk
    exact absurd (Option.some.inj hk) (CodecError.bounded_ne_notEnoughData _ _ _)

/-- A list that does not take the whole input counts what is missing if its elements do, or if it
or they have regions of declared length. -/
theorem readWith_counts {l : ListOf φ} (hl : l.size.endsWithInput = false)
    (hs : (∀ p, l.size ≠ .length p) → l.elemLength = none → Steady readOne)
    (h : (∀ p, l.size ≠ .length p) → l.elemLength = none →
      CountsMissing fun src => (readOne src).error) :
    CountsMissing fun src => (readWith readOne l src).error := by
  cases hz : l.size with
  | remainder =>
    rw [hz] at hl
    cases hl
  | fixed n =>
    have hp : ∀ p, l.size ≠ .length p := fun p h => by cases hz.symm.trans h
    simp only [readWith, hz, finish_error]
    exact readMany_counts (hs hp) (h hp) n []
  | count p =>
    have hp : ∀ q, l.size ≠ .length q := fun q h => by cases hz.symm.trans h
    simp only [readWith_count readOne l hz]
    refine .resume (SizePolicy.readSize_steady p) (SizePolicy.readSize_counts p) fun n => ?_
    simp only [finish_error]
    exact readMany_counts (hs hp) (h hp) n []
  | length p =>
    simp only [readWith_length readOne l hz]
    exact .resume (SizePolicy.readSize_steady p) (SizePolicy.readSize_counts p)
      (readBounded_counts l)

end ListOf

/-! ## Members -/

theorem readMembers_counts {ms : List (Member Field)} (hs : ∀ m ∈ ms, Steady m.field.read)
    (h : ∀ m ∈ ms, CountsMissing fun src => (m.field.read src).error) :
    CountsMissing fun src => (readMembers ms src).error := by
  induction ms with
  | nil => exact .of_none fun _ => rfl
  | cons m ms ih =>
    simp only [readMembers_cons m ms]
    exact .andThen (hs m (.head _)) (h m (.head _)) fun v =>
      ih (fun m hm => hs m (.tail _ hm)) fun m hm => h m (.tail _ hm)

theorem readTail_counts (head : List (Member Field)) (name : String)
    (tail : List (Member Field)) (trailing : Bytes) (length : IntField) :
    CountsMissing fun src => (readTail head name tail trailing length src).error := by
  unfold readTail
  dsimp only
  split
  · exact .of_never fun src n hn => by cases hn
  · refine withBytes_counts fun region => .of_never fun rest n hn => ?_
    split at hn
    · exact absurd (Option.some.inj hn) (CodecError.bounded_ne_notEnoughData _ _ _)
    · cases hn

/-- A bundle counts what is missing if the members outside its region do. -/
theorem readBundle_counts {b : Bundle Field} (hs : ∀ f ∈ b.exposed, Steady f.read)
    (h : ∀ f ∈ b.exposed, CountsMissing fun src => (f.read src).error) :
    CountsMissing fun src => (readBundle b src).error := by
  cases b with
  | plain ms =>
    simp only [readBundle]
    exact readMembers_counts (fun m hm => hs _ (List.mem_map_of_mem hm))
      fun m hm => h _ (List.mem_map_of_mem hm)
  | measured head name length tail trailing =>
    have hhead : ∀ m ∈ head, Steady m.field.read := fun m hm => hs _ (List.mem_map_of_mem hm)
    simp only [readBundle_measured head name length tail trailing]
    refine .andThen (readMembers_steady hhead)
      (readMembers_counts hhead fun m hm => h _ (List.mem_map_of_mem hm)) fun ms => ?_
    exact .andThen length.read_steady length.read_counts fun n =>
      readTail_counts ms name tail trailing n

theorem readChoice_counts {cs : List (Choice Field)}
    (h : ∀ c ∈ cs, CountsMissing fun src => (readBundle c.bundle src).error) (i : Nat) :
    CountsMissing fun src => (readChoice cs i src).error := by
  induction cs generalizing i with
  | nil =>
    simp only [readChoice]
    exact .of_none fun _ => rfl
  | cons c cs ih =>
    cases i with
    | zero =>
      simp only [readChoice]
      exact h c (.head _)
    | succ i =>
      simp only [readChoice]
      exact ih (fun c hc => h c (.tail _ hc)) i

/-! ## Variants -/

theorem Choice.tagReader?_counts {c : Choice Field} {read : Bytes → Outcome Int64}
    (h : c.tagReader? = some read) : CountsMissing fun src => (read src).error := by
  unfold tagReader? at h
  split at h
  · cases h
    exact IntField.read_counts _
  · cases h
    exact EnumField.read_counts _
  · cases h

theorem Choice.readTag?_counts (c : Choice Field) {src : Bytes} {n : Nat}
    (h : c.readTag? src = some (.error (.notEnoughData n))) :
    0 < n ∧ ∀ more, more.length < n →
      c.readTag? (src ++ more) = some (.error (.notEnoughData (n - more.length))) := by
  have herror : ∀ (o : Outcome Int64) e, (Decoded.ofOutcome o).1 = .error e ↔ o.error = some e := by
    intro o e
    unfold Decoded.ofOutcome
    cases o.error <;> simp
  simp only [c.readTag?_eq] at h ⊢
  cases hr : c.tagReader? with
  | none =>
    rw [hr] at h
    cases h
  | some read =>
    rw [hr] at h
    simp only [Option.map_some, Option.some.injEq, herror] at h ⊢
    exact tagReader?_counts hr src n h

/-- The probe is short of as many bytes as the shortest of the tags it is short of, so it stays
short as long as all of them do. The alternatives that it has passed over before count in
`missing`. -/
theorem probeTags_counts {src : Bytes} {i n : Nat} {missing : Option Nat}
    {cs : List (Choice Field)} (hm : ∀ k ∈ missing, 0 < k)
    (h : probeTags src i missing cs = .error (.notEnoughData n)) :
    (0 < n ∧ ∀ k ∈ missing, n ≤ k) ∧ ∀ more : Bytes, more.length < n →
      probeTags (src ++ more) i (missing.map (· - more.length)) cs =
        .error (.notEnoughData (n - more.length)) := by
  induction cs generalizing i missing with
  | nil =>
    cases missing with
    | none => cases h
    | some k =>
      cases h
      exact ⟨⟨hm n rfl, fun k hk => Nat.le_of_eq (Option.some.inj hk)⟩, fun more _ => rfl⟩
  | cons c cs ih =>
    rw [probeTags_cons] at h
    simp only [probeTags_cons]
    by_cases hc : ∃ k, c.readTag? src = some (.error (.notEnoughData k))
    · obtain ⟨k, hk⟩ := hc
      obtain ⟨hpos, hmore⟩ := c.readTag?_counts hk
      rw [hk] at h
      have hleast : ∀ j ∈ some (leastMissing k missing), 0 < j := by
        rintro j ⟨⟩
        cases missing with
        | none => exact hpos
        | some m => exact Nat.lt_min.2 ⟨hm m rfl, hpos⟩
      obtain ⟨⟨hn, hle⟩, hstays⟩ := ih hleast h
      have hle := hle _ rfl
      have hnk : n ≤ k := by
        cases missing with
        | none => exact hle
        | some m => exact (Nat.le_min.1 hle).2
      refine ⟨⟨hn, fun m hmem => ?_⟩, fun more hl => ?_⟩
      · cases hmem
        exact (Nat.le_min.1 hle).1
      · have hsub : some (leastMissing (k - more.length) (missing.map (· - more.length))) =
            (some (leastMissing k missing)).map (· - more.length) := by
          cases missing with
          | none => rfl
          | some m => exact congrArg some (Nat.sub_min_sub_right m k more.length)
        rw [hmore more (by omega)]
        dsimp only
        rw [hsub]
        exact hstays more hl
    · have htag : ∀ more, c.readTag? (src ++ more) = c.readTag? src := fun more =>
        c.readTag?_extend more fun k hk => hc ⟨k, hk⟩
      simp only [htag]
      split at h
      · rename_i tag htag
        split at h
        · cases h
        · rename_i hne
          simp only [if_neg hne]
          exact ih hm h
      · rename_i k hk
        exact absurd ⟨k, hk⟩ hc
      · exact ih hm h

/-- The tags of the alternatives have one width. -/
def Variant.UniformTags (v : Variant Field) : Prop :=
  ∃ w, ∀ c ∈ v.alternatives, c.tagWidth? = some w

theorem Variant.read_counts {v : Variant Field} (ht : v.UniformTags)
    (h : ∀ c ∈ v.alternatives, CountsMissing fun src => (readBundle c.bundle src).error) :
    CountsMissing fun src => ((Field.variant v).read src).error := by
  obtain ⟨alternatives, current⟩ := v
  obtain ⟨w, hw⟩ := ht
  intro src n hn
  simp only [Field.read] at hn ⊢
  cases hp : probeTags src 0 none alternatives with
  | error e =>
    rw [hp] at hn
    cases hn
    obtain ⟨⟨hpos, -⟩, hmore⟩ := probeTags_counts (fun k hk => by cases hk) hp
    refine ⟨hpos, fun more hl => ?_⟩
    rw [show probeTags (src ++ more) 0 none alternatives = _ from hmore more hl]
    rfl
  | ok i =>
    rw [hp] at hn
    obtain ⟨hpos, hmore⟩ := readChoice_counts h i src n hn
    refine ⟨hpos, fun more hl => ?_⟩
    rw [probeTags_ok_of_width w hw more hp]
    exact hmore more hl

/-! ## Fields -/

/-- Every variant outside the regions of declared length has tags of one width. -/
def Field.TagsUniform (f : Field) : Prop := ∀ v, Field.Exposed (.variant v) f → v.UniformTags

namespace Field.TagsUniform

variable {f c : Field}

theorem child (h : f.TagsUniform) (hc : c ∈ f.exposed) : c.TagsUniform :=
  fun v hv => h v (.child hc hv)

theorem settled (h : f.TagsUniform) : f.TagsSettled := fun v hv =>
  have ⟨w, hw⟩ := h v hv
  Variant.settled_of_width w hw

/-- A field in a field that does not read to the end is steady. -/
theorem read_steady (h : f.TagsUniform) (hend : f.readsToEnd = false) (hc : c ∈ f.exposed) :
    Steady c.read :=
  Field.read_steady (readsToEnd_exposed hend hc) (h.child hc).settled

end Field.TagsUniform

/-- **Reading a field counts the bytes that are missing** if it does not run to the end of the
input and the tags of each variant have one width. -/
theorem Field.read_counts {f : Field} (h : f.readsToEnd = false) (ht : f.TagsUniform) :
    CountsMissing fun src => (f.read src).error := by
  induction f with
  | int f => exact f.read_counts
  | enumeration f => exact f.read_counts
  | bitmask f => exact f.read_counts
  | float f => exact f.read_counts
  | text f => exact f.read_counts
  | bytes f => exact f.read_counts
  | list l ih _ =>
    have hc := fun hl he => ListOf.prototype_exposed (l := l) hl he
    exact ListOf.readWith_counts (ListOf.endsWithInput_eq_false h)
      (fun hl he => ht.read_steady h (hc hl he))
      fun hl he => ih (readsToEnd_exposed h (hc hl he)) (ht.child (hc hl he))
  | bitfield b => exact b.read_counts
  | bundle b ih =>
    refine readBundle_counts (fun c hc => ht.read_steady h hc) fun c hc => ?_
    obtain ⟨m, hm, rfl⟩ := Bundle.exposed_member hc
    exact ih m hm (readsToEnd_exposed h hc) (ht.child hc)
  | optional o ih _ =>
    have hc : o.inner ∈ (Field.optional o).exposed := List.mem_singleton_self _
    have hm : (o.mode == .tentative) = false := by
      rw [readsToEnd, Bool.or_eq_false_iff] at h
      exact h.1
    simp only [Field.read_optional, hm, Bool.false_and, Bool.or_false]
    split
    · exact .of_none fun _ => rfl
    · exact .andThen (ht.read_steady h hc) (ih (readsToEnd_exposed h hc) (ht.child hc)) fun v =>
        .of_none fun _ => rfl
  | variant v ih =>
    refine Variant.read_counts (ht v .self) fun c hc => readBundle_counts (fun g hg => ?_)
      fun g hg => ?_
    · exact ht.read_steady h (List.mem_flatMap.2 ⟨c, hc, hg⟩)
    · have hv : g ∈ (Field.variant v).exposed := List.mem_flatMap.2 ⟨c, hc, hg⟩
      obtain ⟨m, hm, rfl⟩ := Bundle.exposed_member hg
      exact ih c hc m hm (readsToEnd_exposed h hv) (ht.child hv)
  | unknown data =>
    rw [readsToEnd] at h
    cases h

/-- **What more input can do to reading a field** that does not run to the end of the input and
whose variants have tags of one width. Short of input, it stays short, of one byte less for each
that comes, until as many have come as were missing. Otherwise the result stays: the value, the
error if there was one, and what was consumed. -/
theorem Field.read_append {f : Field} (h : f.readsToEnd = false) (ht : f.TagsUniform)
    (src : Bytes) :
    (∀ n, (f.read src).error = some (.notEnoughData n) → 0 < n ∧ ∀ more, more.length < n →
      (f.read (src ++ more)).error = some (.notEnoughData (n - more.length))) ∧
      ((∀ n, (f.read src).error ≠ some (.notEnoughData n)) → ∀ more,
        f.read (src ++ more) = { f.read src with rest := (f.read src).rest ++ more }) :=
  ⟨Field.read_counts h ht src, fun hs more =>
    Field.read_steady h ht.settled src more fun ⟨n, hn⟩ => hs n hn⟩

/-- A number or a text behind a tag of two bytes, and a note behind its length. -/
def parcel : Field :=
  let word (v : Int64) := (IntField.ofFormat ⟨.ofBytes 2, false, .big⟩).withDefault v
  let octet := IntField.ofFormat ⟨.ofBytes 1, false, .big⟩
  .bundle (.measured
    [⟨"content", .variant ⟨[
      ⟨"number", 1, .plain [⟨"tag", .int (word 1)⟩, ⟨"value", .int (word 0)⟩]⟩,
      ⟨"text", 2, .plain [⟨"tag", .int (word 2)⟩, ⟨"text", .text (.ofSize (.count octet))⟩]⟩], 0⟩⟩]
    "length" octet [⟨"note", .text (.ofSize .remainder)⟩] [])

theorem parcel_tagsUniform : parcel.TagsUniform := by
  intro v hv
  rcases hv with _ | ⟨hc, hv⟩
  rcases hc with _ | ⟨_, ⟨⟩⟩
  rcases hv with _ | ⟨hc, hv⟩
  · refine ⟨.ofBytes 2, fun c hc => ?_⟩
    rcases hc with _ | ⟨_, _ | ⟨_, ⟨⟩⟩⟩ <;> rfl
  · -- what an alternative is made of is not composed
    rcases hc with _ | ⟨_, _ | ⟨_, _ | ⟨_, _ | ⟨_, ⟨⟩⟩⟩⟩⟩ <;>
    · rcases hv with _ | ⟨hc, _⟩
      cases hc

/-- Two bytes of the note are missing, then one; once both are there, nothing more is read. -/
theorem parcel_read_append :
    (parcel.read [0, 1, 7, 9, 2]).error = some (.notEnoughData 2) ∧
      (parcel.read ([0, 1, 7, 9, 2] ++ [104])).error = some (.notEnoughData 1) ∧
      (parcel.read [0, 1, 7, 9, 2, 104, 105]).error = none ∧
      parcel.read ([0, 1, 7, 9, 2, 104, 105] ++ [5]) =
        { parcel.read [0, 1, 7, 9, 2, 104, 105] with rest := [5] } := by
  have hshort : (parcel.read [0, 1, 7, 9, 2]).error = some (.notEnoughData 2) := rfl
  have hdone : (parcel.read [0, 1, 7, 9, 2, 104, 105]).error = none := rfl
  refine ⟨hshort, ?_, hdone, ?_⟩
  · exact ((Field.read_append rfl parcel_tagsUniform _).1 2 hshort).2 [104] (by decide)
  · exact (Field.read_append rfl parcel_tagsUniform _).2 (by rw [hdone]; exact nofun) [5]

end WireProtocol
