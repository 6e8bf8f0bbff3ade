import WireProtocol.Proofs.Field.Rereading

/-!
# What a read leaves

However a read ends, it changes nothing of a field but its state, and of the modes only those that
were left to the input: a twin that has read anything is a twin again (`Field.Twin.read`).
-/

set_option autoImplicit false

namespace WireProtocol

variable {α β : Type}

/-! ## Outcomes -/

/-- However the read ended, the state that it reached has a property. -/
def Outcome.Leaves (o : Outcome α) (P : α → Prop) : Prop := P o.value

namespace Outcome.Leaves

variable {P : α → Prop} {Q : β → Prop}

theorem map {o : Outcome α} (h : o.Leaves P) {f : α → β} (hf : ∀ v, P v → Q (f v)) :
    (o.map f).Leaves Q :=
  hf _ h

theorem andThen {o : Outcome α} (h : o.Leaves P) {failed : α → β} {next : α → Bytes → Outcome β}
    (hf : ∀ v, P v → Q (failed v)) (hn : ∀ v rest, P v → (next v rest).Leaves Q) :
    (o.andThen failed next).Leaves Q := by
  cases he : o.error with
  | none =>
    rw [andThen_of_none he]
    exact hn _ _ h
  | some e =>
    rw [andThen_of_some he]
    exact hf _ h

theorem resume {d : Decoded α} {w : β} (h : Q w) {next : α → Bytes → Outcome β}
    (hn : ∀ v rest, (next v rest).Leaves Q) : (Decoded.resume d w next).Leaves Q := by
  obtain ⟨result, rest⟩ := d
  cases result with
  | ok v => exact hn v rest
  | error e => exact h

end Outcome.Leaves

theorem withBytes_leaves {P : α → Prop} {n : Nat} {src : Bytes} {v : α}
    {next : Bytes → Bytes → Outcome α} (h : P v) (hn : ∀ taken rest, (next taken rest).Leaves P) :
    (withBytes n src v next).Leaves P := by
  unfold withBytes
  cases Bytes.take? n src with
  | error missing => exact h
  | ok p => exact hn p.1 p.2

/-! ## Scalars -/

theorem IntField.read_leaves (f : IntField) (src : Bytes) :
    (f.read src).Leaves fun g => ∃ v, g = f.withValue v := by
  have hchecked (w : Int64) (rest : Bytes) :
      ((f.setWire w).checked rest).Leaves fun g => ∃ v, g = f.withValue v := by
    unfold checked
    split <;> exact ⟨_, rfl⟩
  unfold read
  cases f.format.width with
  | fixed n bounds => exact withBytes_leaves ⟨f.value, rfl⟩ fun taken rest => hchecked _ rest
  | var min max bounds =>
    dsimp only
    cases Groups.scan max src with
    | short => exact ⟨f.value, rfl⟩
    | tooLong rest => exact ⟨f.value, rfl⟩
    | ended chain rest =>
      dsimp only
      split
      · split
        · exact hchecked _ _
        · exact ⟨_, rfl⟩
      · exact ⟨_, rfl⟩

theorem EnumField.read_leaves (f : EnumField) (src : Bytes) :
    (f.read src).Leaves fun g => ∃ v, g = f.withValue v := by
  rw [read_eq]
  refine (f.storage.read_leaves src).andThen ?_ ?_
  · rintro _ ⟨v, rfl⟩
    exact ⟨v, rfl⟩
  · rintro _ rest ⟨v, rfl⟩
    unfold checked
    dsimp only
    split <;> exact ⟨v, rfl⟩

theorem BitmaskField.read_leaves (f : BitmaskField) (src : Bytes) :
    (f.read src).Leaves fun g => ∃ v, g = f.withDefault v := by
  refine withBytes_leaves ⟨f.value, rfl⟩ fun taken rest => ?_
  dsimp only
  split <;> exact ⟨_, rfl⟩

theorem FloatField.read_leaves (f : FloatField) (src : Bytes) :
    (f.read src).Leaves fun g => ∃ bits, g = { f with bits } :=
  withBytes_leaves ⟨f.bits, rfl⟩ fun _ _ => ⟨_, rfl⟩

theorem ByteField.read_leaves (f : ByteField) (src : Bytes) :
    (f.read src).Leaves fun g => ∃ data, g = { f with data } := by
  have hdata (n : Nat) (src : Bytes) :
      (f.readData n src).Leaves fun g => ∃ data, g = { f with data } :=
    withBytes_leaves ⟨f.data, rfl⟩ fun _ _ => ⟨_, rfl⟩
  cases hp : f.size.sizeField? with
  | some p =>
    rw [f.read_sized hp]
    exact .resume ⟨f.data, rfl⟩ hdata
  | none =>
    obtain ⟨size, old⟩ := f
    cases size with
    | remainder => exact ⟨src, rfl⟩
    | fixed n => exact hdata n src
    | count p | length p => cases hp

theorem ListOf.readWith_leaves (readOne : Bytes → Outcome Field) (l : ListOf Field) (src : Bytes) :
    (readWith readOne l src).Leaves fun l' => ∃ elements, l' = { l with elements } := by
  have hfinish (d : Decoded (List (Field × Bytes))) :
      (l.finish d).Leaves fun l' => ∃ elements, l' = { l with elements } := by
    rw [finish_eq]
    exact .resume ⟨l.elements, rfl⟩ fun _ _ => ⟨_, rfl⟩
  obtain ⟨prototype, size, elemLength, elements⟩ := l
  cases size with
  | fixed n | remainder => exact hfinish _
  | count p =>
    rw [readWith_count readOne _ rfl]
    exact .resume ⟨elements, rfl⟩ fun _ _ => hfinish _
  | length p =>
    rw [readWith_length readOne _ rfl]
    exact .resume ⟨elements, rfl⟩ fun _ _ => withBytes_leaves ⟨elements, rfl⟩ fun _ _ => hfinish _

theorem Packable.Twin.setBits_right {f g : Packable} (h : f.Twin g) (raw : UInt64)
    (bits : UInt32) : f.Twin (g.setBits raw bits) := by
  cases h <;> constructor

theorem Bitfield.twins_unpack {ms ms' : List BitMember} (h : List.Forall₂ BitMember.Twin ms ms')
    (raw : UInt64) (pos : UInt32) : List.Forall₂ BitMember.Twin ms (unpack raw pos ms') := by
  induction h generalizing pos with
  | nil => exact .nil
  | cons hm _ ih =>
    cases hm with
    | mk name bits hf => exact .cons (.mk name bits (hf.setBits_right _ bits)) (ih _)

theorem Bitfield.read_leaves {b : Bitfield} {members : List BitMember}
    (h : List.Forall₂ BitMember.Twin b.members members) (src : Bytes) :
    (({ b with members } : Bitfield).read src).Leaves fun b' =>
      ∃ ms, b' = { b with members := ms } ∧ List.Forall₂ BitMember.Twin b.members ms :=
  withBytes_leaves ⟨members, rfl, h⟩ fun _ _ => ⟨_, rfl, twins_unpack h _ _⟩

/-! ## A field is its own twin -/

theorem membersAlike_self {R : Field → Field → Prop} {ms : List (Member Field)}
    (h : ∀ m ∈ ms, R m.field m.field) : List.Forall₂ (Member.Alike R) ms ms :=
  List.forall₂_same.2 fun m hm => .mk m.name (h m hm)

theorem Bundle.alike_self {R : Field → Field → Prop} {b : Bundle Field}
    (h : ∀ m ∈ b.members, R m.field m.field) : b.Alike R b := by
  cases b with
  | plain ms => exact .plain (membersAlike_self h)
  | measured head name length tail trailing =>
    refine .measured name length length.value trailing trailing ?_ ?_
    · exact membersAlike_self fun m hm => h m (List.mem_append_left _ hm)
    · exact membersAlike_self fun m hm => h m (List.mem_append_right _ (.tail _ hm))

theorem Field.twin_self {modes : OptionalMode → OptionalMode → Prop} (hm : ∀ mode, modes mode mode)
    (f : Field) : f.Twin modes f := by
  induction f with
  | int f => exact .int f f.value
  | enumeration f => exact .enumeration f f.value
  | bitmask f => exact .bitmask f f.value
  | float f => exact .float f f.bits
  | text f => exact .text f f.data
  | bytes f => exact .bytes f f.data
  | list l _ _ => exact .list l l.elements
  | bitfield b =>
    refine .bitfield b (List.forall₂_same.2 fun m _ => ?_)
    obtain ⟨name, bits, field⟩ := m
    refine .mk name bits ?_
    cases field with
    | int f => exact .int f f.value
    | enumeration f => exact .enumeration f f.value
    | bitmask f => exact .bitmask f f.value
  | bundle b ih => exact .bundle (Bundle.alike_self ih)
  | optional o ih _ => exact .optional o (hm o.mode) fun _ => ih
  | variant v ih =>
    exact .variant v v.current (List.forall₂_same.2 fun c hc =>
      .mk c.name c.tag (Bundle.alike_self (ih c hc)))
  | unknown data => exact .unknown data data

/-! ## Twins stay twins -/

section
variable {R : Field → Field → Prop}

/-- The second field is related to the first one, and so is what any read leaves of it. -/
def Field.Stays (R : Field → Field → Prop) (p g : Field) : Prop :=
  R p g ∧ ∀ src, (g.read src).Leaves (R p)

theorem membersAlike_read {ms ms' : List (Member Field)}
    (h : List.Forall₂ (Member.Alike (Field.Stays R)) ms ms') (src : Bytes) :
    (readMembers ms' src).Leaves (List.Forall₂ (Member.Alike R) ms) := by
  induction h generalizing src with
  | nil =>
    rw [readMembers]
    exact List.Forall₂.nil
  | cons hm hms ih =>
    cases hm with
    | mk name hf =>
      rw [readMembers_cons]
      refine Outcome.Leaves.andThen (hf.2 src) (fun v hv => ?_) fun v rest hv => ?_
      · exact .cons (.mk name hv) (membersAlike_imp hms fun _ _ _ _ h => h.1)
      · exact (ih rest).map fun vs hvs => .cons (.mk name hv) hvs

theorem Bundle.Alike.read {b b' : Bundle Field} (h : b.Alike (Field.Stays R) b') (src : Bytes) :
    (readBundle b' src).Leaves (b.Alike R) := by
  cases h with
  | plain h =>
    rw [readBundle]
    exact (membersAlike_read h src).map fun _ => Bundle.Alike.plain
  | @measured head head' tail tail' name length v trailing trailing' hh ht =>
    have htail := membersAlike_imp ht fun _ _ _ _ h => h.1
    rw [readBundle_measured]
    refine (membersAlike_read hh src).andThen (fun hs hhs => ?_) fun hs rest hhs => ?_
    · exact .measured name length v trailing trailing' hhs htail
    · have hunread (w : Int64) :
          (Bundle.measured head name length tail trailing).Alike R
            (.measured hs name (length.withValue w) tail' trailing') :=
        .measured name length w trailing trailing' hhs htail
      refine ((length.withValue v).read_leaves rest).andThen ?_ ?_
      · rintro _ ⟨w, rfl⟩
        exact hunread w
      · rintro _ rest ⟨w, rfl⟩
        unfold readTail
        dsimp only
        split
        · exact hunread w
        · refine withBytes_leaves (hunread w) fun region rest => ?_
          have hts := membersAlike_read ht region
          split
          · exact Bundle.Alike.measured name length w trailing trailing' hhs hts
          · exact Bundle.Alike.measured name length w trailing _ hhs hts

theorem choicesAlike_read {cs cs' : List (Choice Field)}
    (h : List.Forall₂ (Choice.Alike (Field.Stays R)) cs cs') (i : Nat) (src : Bytes) :
    (readChoice cs' i src).Leaves (List.Forall₂ (Choice.Alike R) cs) := by
  induction h generalizing i with
  | nil =>
    rw [readChoice]
    exact List.Forall₂.nil
  | cons hc hcs ih =>
    cases hc with
    | mk name tag hb =>
      cases i with
      | zero =>
        have hcs := choicesAlike_imp hcs fun _ _ _ _ _ _ _ _ h => h.1
        rw [readChoice]
        exact (hb.read src).map fun b hb => .cons (.mk name tag hb) hcs
      | succ i =>
        have hb := hb.imp fun _ _ _ _ h => h.1
        rw [readChoice]
        exact (ih i).map fun cs hcs => .cons (.mk name tag hb) hcs

end

/-- Reading keeps a mode or, if it was left to the input, resolves it. -/
def Resolves (mode mode' : OptionalMode) : Prop := mode = mode' ∨ mode = .tentative

theorem Resolves.of_tentative {mode : OptionalMode} (h : Resolves mode .tentative)
    (mode' : OptionalMode) : Resolves mode mode' :=
  .inr (h.elim id id)

/-- **A twin that has read anything is a twin again**, but for the modes that reading has resolved. -/
theorem Field.Twin.read {p g : Field} (h : p.Twin Resolves g) (src : Bytes) :
    (g.read src).Leaves (p.Twin Resolves) := by
  induction p generalizing g src with
  | int f =>
    cases h with
    | int _ v =>
      refine ((f.withValue v).read_leaves src).map ?_
      rintro _ ⟨w, rfl⟩
      exact .int f w
  | enumeration f =>
    cases h with
    | enumeration _ v =>
      refine ((f.withValue v).read_leaves src).map ?_
      rintro _ ⟨w, rfl⟩
      exact .enumeration f w
  | bitmask f =>
    cases h with
    | bitmask _ v =>
      refine ((f.withDefault v).read_leaves src).map ?_
      rintro _ ⟨w, rfl⟩
      exact .bitmask f w
  | float f =>
    cases h with
    | float _ bits =>
      refine (({ f with bits } : FloatField).read_leaves src).map ?_
      rintro _ ⟨w, rfl⟩
      exact .float f w
  | text f =>
    cases h with
    | text _ data =>
      refine (({ f with data } : ByteField).read_leaves src).map ?_
      rintro _ ⟨w, rfl⟩
      exact .text f w
  | bytes f =>
    cases h with
    | bytes _ data =>
      refine (({ f with data } : ByteField).read_leaves src).map ?_
      rintro _ ⟨w, rfl⟩
      exact .bytes f w
  | list l _ _ =>
    cases h with
    | list _ elements =>
      rw [Field.read]
      refine (ListOf.readWith_leaves _ _ src).map ?_
      rintro _ ⟨es, rfl⟩
      exact .list l es
  | bitfield b =>
    cases h with
    | @bitfield _ members hm =>
      refine (Bitfield.read_leaves hm src).map ?_
      rintro _ ⟨ms, rfl, hms⟩
      exact .bitfield b hms
  | bundle b ih =>
    cases h with
    | @bundle _ b' hb =>
      rw [Field.read]
      have hb : b.Alike (Stays (Twin Resolves)) b' := hb.imp fun m hm _ _ hr => ⟨hr, ih m hm hr⟩
      exact (hb.read src).map fun _ => .bundle
  | optional o ih _ =>
    cases h with
    | @optional _ inner mode hm hi =>
      rw [read_optional]
      dsimp only
      split
      · rename_i hc
        refine Twin.optional o ?_ fun hne => absurd rfl hne
        cases mode with
        | missing => exact hm
        | present => simp at hc
        | tentative => exact hm.of_tentative _
      · rename_i hc
        have hne : mode ≠ .missing := by
          rintro rfl
          simp at hc
        refine (ih (hi hne) src).andThen (fun v hv => .optional o hm fun _ => hv) fun v rest hv => ?_
        refine Twin.optional o ?_ fun _ => hv
        cases mode with
        | missing => exact absurd rfl hne
        | present => exact hm
        | tentative => exact hm.of_tentative _
  | variant v ih =>
    cases h with
    | @variant _ alternatives current hcs =>
      rw [Field.read]
      split
      · exact Twin.variant v current hcs
      · have hcs : List.Forall₂ (Choice.Alike (Stays (Twin Resolves))) v.alternatives alternatives :=
          choicesAlike_imp hcs fun c hc _ _ m hm _ _ hr => ⟨hr, ih c hc m hm hr⟩
        exact (choicesAlike_read hcs _ src).map fun _ => .variant v _
  | unknown data =>
    cases h
    exact Twin.unknown data src

end WireProtocol
