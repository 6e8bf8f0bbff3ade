import WireProtocol.Proofs.Field.Alike
import WireProtocol.Proofs.Field.Settled
import WireProtocol.Proofs.Field.Length

/-!
# When a field can be read back

A field is delimited if its bytes tell where it ends, whatever it holds (`Field.Delimited`), and
ready if what it sends can be told from its bytes (`Field.Ready`): strict parts are valid, lists have
the elements that their size asks for, variants carry the tag of the chosen alternative. A ready
field takes at least its least length (`Field.Ready.minLength_le_length`).
-/

set_option autoImplicit false

namespace WireProtocol

/-! ## Fields that end by themselves -/

/-- The field itself, apart from the fields inside it, tells where it ends. -/
def Field.EndsItself : Field → Prop
  | .text f => f.size.endsWithInput = false
  | .bytes f => f.size.endsWithInput = false
  | .list l => l.size.endsWithInput = false
  | .optional o => o.mode ≠ .tentative
  | .bitfield _ => False
  | .unknown _ => False
  | _ => True

/-- The field and all fields inside it tell where they end. -/
def Field.Delimited (f : Field) : Prop := ∀ g, Field.Within g f → g.EndsItself

namespace Field.Delimited

theorem self {f : Field} (h : f.Delimited) : f.EndsItself := h f .self

theorem child {f c : Field} (h : f.Delimited) (hc : c ∈ f.children) : c.Delimited :=
  fun g hg => h g (.child hc hg)

/-- Bits are packed in none of these fields. -/
theorem sound {f : Field} (h : f.Delimited) : f.Sound := fun _ hb => (h _ hb).elim

end Field.Delimited

theorem Field.delimited_of_children {f : Field} (hf : f.EndsItself)
    (hc : ∀ c ∈ f.children, c.Delimited) : f.Delimited := by
  intro g hg
  cases hg with
  | self => exact hf
  | child hm hg => exact hc _ hm g hg

/-! ## What is sent -/

/-- The fields directly inside a field that it sends. -/
def Field.sentParts : Field → List Field
  | .list l => l.elements.map (·.1)
  | .bundle b => b.members.map (·.field)
  | .optional o => o.field?.toList
  | .variant v => v.current?.elim [] fun c => c.bundle.members.map (·.field)
  | _ => []

/-- The second field is the first one or sends it as a part. -/
inductive Field.Sends (g : Field) : Field → Prop
  | self : Sends g g
  | part {f c : Field} : c ∈ f.sentParts → Sends g c → Sends g f

/-- The integer of a field that can carry a tag. -/
def Field.tagStorage? : Field → Option IntField
  | .int f => some f
  | .enumeration f => some f.storage
  | _ => none

/-- The integer that carries the tag. -/
def Choice.tagStorage? (c : Choice Field) : Option IntField := c.tagMember?.bind Field.tagStorage?

/-- The alternatives can be told apart by their first members, integers that are sent alike. -/
structure Variant.Tagged (v : Variant Field) : Prop where
  distinct : (v.alternatives.map (·.tag)).Nodup
  /-- The tags have one format and one offset. -/
  alike : ∃ (format : IntFormat) (offset : Int64), ∀ c ∈ v.alternatives,
    ∃ f, c.tagStorage? = some f ∧ f.format = format ∧ f.offset = offset
  /-- The chosen alternative holds its tag, and not as the length of what follows it. -/
  holds : ∀ c, v.current? = some c → c.bundle.lengthIndex? ≠ some 0 ∧
    ∀ f, c.tagStorage? = some f → f.value = c.tag

/-- The list holds what its size asks for. -/
structure ListOf.Filled (l : ListOf Field) : Prop where
  size_lenient : ∀ p, l.size.sizeField? = some p → p.strict = false
  elemLength_lenient : ∀ p, l.elemLength = some p → p.strict = false
  count : ∀ n, l.size = .fixed n → l.elements.length = n
  /-- Only elements that take some bytes are found in a region. -/
  nonempty : ∀ p, l.size = .length p → ∀ e ∈ l.elements, 1 ≤ e.1.minLength
  /-- The elements can be counted. -/
  short : l.elements.length < 2 ^ 63

/-- What the field itself, apart from the fields inside it, holds can be told from its bytes. -/
def Field.Recoverable : Field → Prop
  | .int f => f.strict = true → f.isValid = true
  | .enumeration f =>
    (f.storage.strict = true → f.storage.isValid = true) ∧ (f.strict = true → f.isValid = true)
  | .bitmask f => f.value.toNat < 256 ^ f.bytes ∧ (f.strict = true → f.isValid = true)
  | .text f => ∀ p, f.size.sizeField? = some p → p.strict = false
  | .bytes f => ∀ p, f.size.sizeField? = some p → p.strict = false
  | .list l => l.Filled
  | .variant v => v.Tagged
  | _ => True

/-- All that the field sends can be told from its bytes. -/
def Field.Ready (f : Field) : Prop := ∀ g, Field.Sends g f → g.Recoverable

namespace Field.Ready

theorem self {f : Field} (h : f.Ready) : f.Recoverable := h f .self

theorem part {f c : Field} (h : f.Ready) (hc : c ∈ f.sentParts) : c.Ready :=
  fun g hg => h g (.part hc hg)

theorem element {l : ListOf Field} (h : (Field.list l).Ready) {e : Field × Bytes}
    (he : e ∈ l.elements) : e.1.Ready :=
  h.part (List.mem_map_of_mem he)

theorem member {b : Bundle Field} (h : (Field.bundle b).Ready) {m : Member Field}
    (hm : m ∈ b.members) : m.field.Ready :=
  h.part (List.mem_map_of_mem hm)

theorem inner {o : Optional Field} (h : (Field.optional o).Ready) (hm : o.mode = .present) :
    o.inner.Ready := by
  refine h.part ?_
  simp [sentParts, Optional.field?, hm]

theorem current {v : Variant Field} (h : (Field.variant v).Ready) {c : Choice Field}
    (hc : v.current? = some c) {m : Member Field} (hm : m ∈ c.bundle.members) :
    m.field.Ready := by
  refine h.part ?_
  simp only [sentParts, hc, Option.elim_some]
  exact List.mem_map_of_mem hm

end Field.Ready

theorem Field.ready_of_parts {f : Field} (hf : f.Recoverable)
    (hp : ∀ c ∈ f.sentParts, c.Ready) : f.Ready := by
  intro g hg
  cases hg with
  | self => exact hf
  | part hc hg => exact hp _ hc g hg

/-! ## The least length is reached -/

theorem SizePolicy.minSizeLength_le (size : SizePolicy) (n : Nat) :
    size.minSizeLength ≤ size.sizeLength n := by
  unfold minSizeLength sizeLength
  cases size.sizeField? with
  | none => exact Nat.le_refl _
  | some p => exact (p.withCount n).minLength_le_length

theorem ByteField.minLength_le_length (f : ByteField) : f.minLength ≤ f.length := by
  have hs := f.size.minSizeLength_le f.data.length
  obtain ⟨size, data⟩ := f
  cases size with
  | fixed n => exact Nat.le_refl n
  | remainder | count p | length p => exact Nat.le_trans hs (Nat.le_add_right _ _)

theorem framedLength_ge (elemLength : Option IntField) {least n : Nat} (h : least ≤ n) :
    least + elemLength.elim 0 IntField.minLength ≤ framedLength elemLength n := by
  cases elemLength with
  | none => exact h
  | some p =>
    have hp : p.minLength ≤ (p.withCount n).length := (p.withCount n).minLength_le_length
    show least + p.minLength ≤ (p.withCount n).length + n
    omega

theorem framedLengths_ge (elemLength : Option IntField) {least : Nat} {es : List (Field × Bytes)}
    (h : ∀ e ∈ es, least ≤ e.1.length) :
    es.length * (least + elemLength.elim 0 IntField.minLength) ≤ framedLengths elemLength es := by
  induction es with
  | nil => simp [framedLengths]
  | cons e es ih =>
    have he : least ≤ e.1.length + e.2.length := Nat.le_trans (h e (.head _)) (Nat.le_add_right _ _)
    have hframed := framedLength_ge elemLength he
    have ih := ih fun e he => h e (.tail _ he)
    simp only [framedLengths, List.length_cons] at ih ⊢
    rw [Nat.succ_mul]
    omega

theorem membersMinLength_le {ms ms' : List (Member Field)}
    (h : List.Forall₂ (Member.Alike fun f g => f.minLength ≤ g.length) ms ms') :
    membersMinLength ms ≤ membersLength ms' := by
  induction h with
  | nil => exact Nat.le_refl _
  | cons hm _ ih =>
    cases hm with
    | mk name hf =>
      simp only [membersMinLength, membersLength]
      omega

theorem bundleMinLength_le {b b' : Bundle Field}
    (h : b.Alike (fun f g => f.minLength ≤ g.length) b') : bundleMinLength b ≤ bundleLength b' := by
  cases h with
  | plain h => exact membersMinLength_le h
  | @measured _ _ _ tail' name length v trailing trailing' hh ht =>
    have hhead := membersMinLength_le hh
    have htail := membersMinLength_le ht
    have hl := (length.withCount (membersLength tail' + trailing'.length)).minLength_le_length
    have hmin : (length.withCount (membersLength tail' + trailing'.length)).minLength =
      length.minLength := rfl
    have hsame : (length.withValue v).withCount (membersLength tail' + trailing'.length) =
      length.withCount (membersLength tail' + trailing'.length) := rfl
    simp only [bundleMinLength, bundleLength, hsame]
    omega

/-- A variant needs no more than any of its alternatives. -/
theorem choicesMinLength_le {cs : List (Choice Field)} {c : Choice Field} (h : c ∈ cs) :
    (choicesMinLength cs).getD 0 ≤ bundleMinLength c.bundle := by
  induction cs with
  | nil => cases h
  | cons c' cs ih =>
    rw [choicesMinLength, Option.getD_some]
    rcases List.mem_cons.1 h with rfl | h
    · cases choicesMinLength cs with
      | none => exact Nat.le_refl _
      | some m => exact Nat.min_le_left _ _
    · have ih := ih h
      cases hcs : choicesMinLength cs with
      | none =>
        cases cs with
        | nil => cases h
        | cons c'' cs => cases hcs
      | some m =>
        rw [hcs] at ih
        exact Nat.le_trans (Nat.min_le_right _ _) ih

theorem ListOf.minLength_le_length {l : ListOf Field}
    (hcount : ∀ n, l.size = .fixed n → l.elements.length = n)
    (h : ∀ e ∈ l.elements, l.prototype.minLength ≤ e.1.length) :
    (Field.list l).minLength ≤ (Field.list l).length := by
  rw [Field.length_list, sent_eq hcount]
  have hes := framedLengths_ge l.elemLength h
  obtain ⟨prototype, size, elemLength, elements⟩ := l
  cases size with
  | fixed n =>
    rw [hcount n rfl] at hes
    exact Nat.le_trans hes (Nat.le_add_left _ _)
  | remainder => exact Nat.zero_le _
  | count p =>
    have hp := (SizePolicy.count p).minSizeLength_le elements.length
    exact Nat.le_trans hp (Nat.le_add_right _ _)
  | length p =>
    have hp := (SizePolicy.length p).minSizeLength_le (framedLengths elemLength elements)
    exact Nat.le_trans hp (Nat.le_add_right _ _)

/-- **A ready field takes at least the least length** of what it is a state of. -/
theorem Field.Ready.minLength_le_length {p g : Field} (h : p.Alike (· = ·) g) (hg : g.Ready) :
    p.minLength ≤ g.length := by
  induction p generalizing g with
  | int f =>
    cases h with
    | int f v => exact (f.withValue v).minLength_le_length
  | enumeration f =>
    cases h with
    | enumeration f v => exact (f.storage.withValue v).minLength_le_length
  | bitmask f =>
    cases h
    exact Nat.le_refl _
  | float f =>
    cases h
    exact Nat.le_refl _
  | text f =>
    cases h with
    | @text _ data _ => exact ByteField.minLength_le_length { f with data }
  | bytes f =>
    cases h with
    | @bytes _ data _ => exact ByteField.minLength_le_length { f with data }
  | list l ih _ =>
    rw [← h.minLength]
    cases h with
    | list l hes ht =>
      exact ListOf.minLength_le_length hg.self.count fun e he => ih (hes e he) (hg.element he)
  | bitfield b => cases h
  | bundle b ih =>
    cases h with
    | bundle hb =>
      simp only [minLength, length]
      exact bundleMinLength_le <| hb.imp fun m hm m' hm' hr => ih m hm hr (hg.member hm')
  | optional o ih _ =>
    cases h with
    | @optional _ inner mode hi hm =>
      subst hm
      simp only [minLength, length, beq_iff_eq]
      split
      · rename_i hm
        exact ih hi (hg.inner hm)
      · exact Nat.le_refl _
  | variant v ih =>
    cases h with
    | @variant _ alternatives current hcs hc =>
      obtain ⟨c, hc⟩ : ∃ c, alternatives[current]? = some c :=
        ⟨_, List.getElem?_eq_getElem hc⟩
      obtain ⟨c', hc', hcc⟩ := forall₂_getElem? hcs hc
      have hmem := List.mem_of_getElem? hc'
      have hle := choicesMinLength_le hmem
      simp only [minLength, length, choiceLength_eq, hc, Option.elim_some]
      refine Nat.le_trans hle ?_
      cases hcc with
      | mk name tag hb =>
        exact bundleMinLength_le <| hb.imp fun m hm m' hm' hr =>
          ih _ hmem m hm hr (hg.current hc hm')
  | unknown data => cases h

end WireProtocol
