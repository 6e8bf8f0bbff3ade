import WireProtocol.Proofs.Field.Yield

/-!
# The least and the greatest length

What `Field.minLength` and `Field.maxLength` say of a field before it is read, against what reading
consumes. The least length is a bound of every read (`Field.read_minLength`). The greatest one counts
what members and elements read: a region of declared length may hold more than that, and all that it
holds is consumed and kept. `Field.spare` counts those bytes, and what reading consumes exceeds the
greatest length by them at most (`Field.read_maxLength`).
-/

set_option autoImplicit false

namespace WireProtocol

/-- What a read that succeeds takes off the input is as long as what was read. -/
theorem Field.read_taken {f : Field} {src : Bytes} (h : (f.read src).error = none) :
    ∃ taken, src = taken ++ (f.read src).rest ∧ taken.length = (f.read src).value.length := by
  obtain ⟨taken, htaken⟩ := f.read_suffix src
  have hspan := f.read_spans src h
  have hlen := congrArg List.length htaken
  rw [List.length_append] at hlen
  exact ⟨taken, htaken.symm, by omega⟩

/-! ## The least length -/

theorem Field.Yields.minLength_le_length {p g : Field} (h : p.Yields g) :
    p.minLength ≤ g.length := by
  induction p generalizing g with
  | int f =>
    cases h with
    | int _ v => exact (f.withValue v).minLength_le_length
  | enumeration f =>
    cases h with
    | enumeration _ v => exact (f.storage.withValue v).minLength_le_length
  | text f =>
    cases h with
    | @text _ data _ => exact ByteField.minLength_le_length { f with data }
  | bytes f =>
    cases h with
    | @bytes _ data _ => exact ByteField.minLength_le_length { f with data }
  | list l ih _ =>
    cases h with
    | @list _ es hes _ hcount =>
      have hmin : (Field.list l).minLength = (Field.list { l with elements := es }).minLength := by
        simp only [minLength]
      rw [hmin]
      exact ListOf.minLength_le_length hcount fun e he => ih (hes e he)
  | bundle b ih =>
    cases h with
    | bundle hb =>
      simp only [minLength, length]
      exact bundleMinLength_le (hb.imp fun m hm _ _ hr => ih m hm hr)
  | optional o ih _ =>
    cases h with
    | absent _ hm => simp [minLength, hm]
    | present _ _ hi =>
      have hi := ih hi
      simp only [minLength, length]
      split
      · simpa using hi
      · exact Nat.zero_le _
  | variant v ih =>
    cases h with
    | @variant _ i c bundle hc hb =>
      have hmem := List.mem_of_getElem? hc
      have hle := choicesMinLength_le hmem
      have hlt : i < v.alternatives.length := (List.getElem?_eq_some_iff.1 hc).1
      have hbundle := bundleMinLength_le (hb.imp fun m hm _ _ hr => ih c hmem m hm hr)
      simp only [minLength, length, choiceLength_eq, List.getElem?_set_self hlt, Option.elim_some]
      omega
  | unknown old =>
    cases h
    exact Nat.zero_le _
  | _ =>
    cases h
    exact Nat.le_refl _

/-- **Reading consumes at least the least length** that the field has before, in any state; an input
that is shorter is refused. -/
theorem Field.read_minLength (f : Field) (src : Bytes) :
    (src.length < f.minLength → (f.read src).error ≠ none) ∧
      ((f.read src).error = none →
        ∃ taken, src = taken ++ (f.read src).rest ∧ f.minLength ≤ taken.length) := by
  have hmin : (f.read src).error = none →
      ∃ taken, src = taken ++ (f.read src).rest ∧ f.minLength ≤ taken.length := by
    intro h
    obtain ⟨taken, hsrc, hlength⟩ := read_taken h
    exact ⟨taken, hsrc, hlength ▸ (f.read_yields src h).minLength_le_length⟩
  refine ⟨fun hlt h => ?_, hmin⟩
  obtain ⟨taken, hsrc, hle⟩ := hmin h
  have hlen := congrArg List.length hsrc
  rw [List.length_append] at hlen
  omega

/-- A marked field of two counted octets, which may be missing, behind a chain of seven bits. -/
def markedPair : Field :=
  .bundle (.plain
    [⟨"mark", .int (.ofFormat ⟨.var 1 3 (by decide), false, .big⟩)⟩,
    ⟨"pair", .optional ⟨.list ⟨.int (octet 0), .fixed 2, some (octet 0), []⟩, .unknown [],
      .present⟩⟩])

theorem markedPair_read_minLength :
    [5, 1, 9].length < markedPair.minLength ∧ (markedPair.read [5, 1, 9]).error ≠ none ∧
      (markedPair.read [5, 1, 9, 2, 8, 7]).error = none ∧
      ∃ taken, [5, 1, 9, 2, 8, 7] = taken ++ (markedPair.read [5, 1, 9, 2, 8, 7]).rest ∧
        5 ≤ taken.length :=
  ⟨by decide, (Field.read_minLength markedPair [5, 1, 9]).1 (by decide), rfl,
    (Field.read_minLength markedPair [5, 1, 9, 2, 8, 7]).2 rfl⟩

/-! ## Bytes that nothing reads -/

mutual

/-- The count of bytes of a field that was read that no field inside it has read: those behind the
last member of a region, and those that an element left of its own. -/
def Field.spare : Field → Nat
  | .list ⟨_, _, _, elements⟩ => elementsSpare elements
  | .bundle b => bundleSpare b
  | .optional ⟨inner, _, mode⟩ => if mode == .present then inner.spare else 0
  | .variant ⟨alternatives, current⟩ => choiceSpare alternatives current
  | _ => 0

def bundleSpare : Bundle Field → Nat
  | .plain ms => membersSpare ms
  | .measured head _ _ tail trailing => membersSpare head + membersSpare tail + trailing.length

def membersSpare : List (Member Field) → Nat
  | [] => 0
  | ⟨_, field⟩ :: ms => field.spare + membersSpare ms

def elementsSpare : List (Field × Bytes) → Nat
  | [] => 0
  | (field, rest) :: es => field.spare + rest.length + elementsSpare es

def choiceSpare : List (Choice Field) → Nat → Nat
  | [], _ => 0
  | ⟨_, _, bundle⟩ :: _, 0 => bundleSpare bundle
  | _ :: cs, i + 1 => choiceSpare cs i

end

theorem choiceSpare_eq (cs : List (Choice Field)) (i : Nat) :
    choiceSpare cs i = (cs[i]?).elim 0 fun c => bundleSpare c.bundle := by
  induction cs generalizing i with
  | nil => rw [choiceSpare]; rfl
  | cons c cs ih =>
    cases i with
    | zero => rw [choiceSpare]; rfl
    | succ i => rw [choiceSpare, ih, List.getElem?_cons_succ]

/-- A length that is sent bounds a region of the field, apart from the fields inside it. -/
def Field.HasRegion : Field → Prop
  | .list l => l.elemLength ≠ none
  | .bundle b => b.lengthIndex? ≠ none
  | .variant v => ∃ c ∈ v.alternatives, c.bundle.lengthIndex? ≠ none
  | _ => False

/-- Neither the field nor any field inside it has a region. -/
def Field.WithoutRegions (f : Field) : Prop := f.Everywhere fun g => ¬ g.HasRegion

section
variable {R : Field → Field → Prop} (hR : ∀ f g, R f g → g.spare = 0)
include hR

theorem membersSpare_eq_zero {ms ms' : List (Member Field)}
    (h : List.Forall₂ (Member.Alike R) ms ms') : membersSpare ms' = 0 := by
  induction h with
  | nil => rw [membersSpare]
  | cons hm _ ih =>
    cases hm with
    | mk name hr => rw [membersSpare, hR _ _ hr, ih]

theorem bundleSpare_eq_zero {b b' : Bundle Field} (h : b.Alike R b') (hb : b.lengthIndex? = none) :
    bundleSpare b' = 0 := by
  cases h with
  | plain h =>
    rw [bundleSpare]
    exact membersSpare_eq_zero hR h
  | measured => cases hb

end

theorem elementsSpare_eq_zero {es : List (Field × Bytes)}
    (h : ∀ e ∈ es, e.1.spare = 0 ∧ e.2 = []) : elementsSpare es = 0 := by
  induction es with
  | nil => rw [elementsSpare]
  | cons e es ih =>
    obtain ⟨he, hrest⟩ := h e (.head _)
    rw [elementsSpare, he, hrest, ih fun e he => h e (.tail _ he)]
    rfl

/-- Without regions nothing is left. -/
theorem Field.Yields.spare_eq_zero {p g : Field} (h : p.Yields g) (hp : p.WithoutRegions) :
    g.spare = 0 := by
  induction p generalizing g with
  | list l ih _ =>
    cases h with
    | @list _ es hes hrest _ =>
      have hnone : l.elemLength = none := not_not.1 (hp.self)
      simp only [spare]
      exact elementsSpare_eq_zero fun e he =>
        ⟨ih (hes e he) (hp.child (.head _)), hrest hnone e he⟩
  | bundle b ih =>
    cases h with
    | bundle hb =>
      have hnone : b.lengthIndex? = none := not_not.1 (hp.self)
      simp only [spare]
      refine bundleSpare_eq_zero (R := fun _ g => g.spare = 0) (fun _ _ h => h) ?_ hnone
      exact hb.imp fun m hm _ _ hr => ih m hm hr (hp.child (List.mem_map_of_mem hm))
  | optional o ih _ =>
    cases h with
    | absent => simp [spare]
    | present _ _ hi => simp [spare, ih hi (hp.child (.head _))]
  | variant v ih =>
    cases h with
    | @variant _ i c bundle hc hb =>
      have hmem := List.mem_of_getElem? hc
      have hlt : i < v.alternatives.length := (List.getElem?_eq_some_iff.1 hc).1
      have hnone : c.bundle.lengthIndex? = none :=
        not_not.1 fun hne => hp.self ⟨c, hmem, hne⟩
      simp only [spare, choiceSpare_eq, List.getElem?_set_self hlt, Option.elim_some]
      refine bundleSpare_eq_zero (R := fun _ g => g.spare = 0) (fun _ _ h => h) ?_ hnone
      refine hb.imp fun m hm _ _ hr => ih c hmem m hm hr (hp.child ?_)
      exact List.mem_flatMap.2 ⟨c, hmem, List.mem_map_of_mem hm⟩
  | _ =>
    cases h
    simp [spare]

/-! ## The greatest length -/

namespace Bound

theorem add_eq_some {a b : Bound} {n : Nat} :
    a.add b = some n ↔ ∃ i j, a = some i ∧ b = some j ∧ i + j = n := by
  cases a <;> cases b <;> simp [add]

theorem max_eq_some {a b : Bound} {n : Nat} :
    a.max b = some n ↔ ∃ i j, a = some i ∧ b = some j ∧ Nat.max i j = n := by
  cases a <;> cases b <;> simp [max]

theorem times_eq_some {k n : Nat} {a : Bound} (h : times k a = some n) (hk : k ≠ 0) :
    ∃ i, a = some i ∧ k * i = n := by
  cases a <;> simp_all [times]

end Bound

/-- The second field is as long at most as the first one tells, but for the spare bytes. -/
def Field.Limits (p g : Field) : Prop :=
  ∀ limit, p.maxLength = some limit → g.length ≤ limit + g.spare

theorem ByteField.length_le_maxLength {f : ByteField} {limit : Nat} (h : f.maxLength = some limit) :
    f.length ≤ limit := by
  obtain ⟨size, data⟩ := f
  cases size with
  | fixed n =>
    cases h
    exact Nat.le_refl _
  | remainder | count p | length p => cases h

theorem framedLength_le (elemLength : Option IntField) (n : Nat) :
    framedLength elemLength n ≤ n + elemLength.elim 0 IntField.maxLength := by
  cases elemLength with
  | none => exact Nat.le_refl n
  | some p =>
    have hp : (p.withCount n).length ≤ p.maxLength := (p.withCount n).length_le_maxLength
    show (p.withCount n).length + n ≤ n + p.maxLength
    omega

theorem framedLengths_le (elemLength : Option IntField) {k : Nat} {es : List (Field × Bytes)}
    (h : ∀ e ∈ es, e.1.length ≤ k + e.1.spare) :
    framedLengths elemLength es ≤
      es.length * (k + elemLength.elim 0 IntField.maxLength) + elementsSpare es := by
  induction es with
  | nil => simp [framedLengths]
  | cons e es ih =>
    have he := h e (.head _)
    have hframed := framedLength_le elemLength (e.1.length + e.2.length)
    have ih := ih fun e he => h e (.tail _ he)
    rw [framedLengths, elementsSpare, List.length_cons, Nat.succ_mul]
    omega

theorem ListOf.length_le_maxLength {l : ListOf Field} {es : List (Field × Bytes)}
    (hcount : ∀ n, l.size = .fixed n → es.length = n) (h : ∀ e ∈ es, l.prototype.Limits e.1) :
    (Field.list l).Limits (.list { l with elements := es }) := by
  intro limit hl
  obtain ⟨prototype, size, elemLength, elements⟩ := l
  cases size with
  | fixed n =>
    have hn : es.length = n := hcount n rfl
    rw [Field.length_list, sent_eq hcount]
    simp only [prefixLength, Nat.zero_add, Field.spare]
    rw [Field.maxLength] at hl
    by_cases hzero : n = 0
    · rw [hzero] at hn
      rw [List.eq_nil_of_length_eq_zero hn]
      simp [framedLengths]
    · obtain ⟨per, hper, rfl⟩ := Bound.times_eq_some hl hzero
      obtain ⟨k, j, hk, hj, rfl⟩ := Bound.add_eq_some.1 hper
      cases hj
      rw [← hn]
      exact framedLengths_le elemLength fun e he => h e he k hk
  | remainder | count p | length p => simp [Field.maxLength] at hl

theorem membersLength_le {ms ms' : List (Member Field)}
    (h : List.Forall₂ (Member.Alike Field.Limits) ms ms') {limit : Nat}
    (hl : membersMaxLength ms = some limit) : membersLength ms' ≤ limit + membersSpare ms' := by
  induction h generalizing limit with
  | nil => simp [membersLength]
  | cons hm _ ih =>
    cases hm with
    | mk name hf =>
      rw [membersMaxLength] at hl
      obtain ⟨i, j, hi, hj, rfl⟩ := Bound.add_eq_some.1 hl
      have hf := hf i hi
      have ih := ih hj
      rw [membersLength, membersSpare]
      omega

theorem bundleLength_le {b b' : Bundle Field} (h : b.Alike Field.Limits b') {limit : Nat}
    (hl : bundleMaxLength b = some limit) : bundleLength b' ≤ limit + bundleSpare b' := by
  cases h with
  | plain h =>
    rw [bundleMaxLength] at hl
    rw [bundleLength, bundleSpare]
    exact membersLength_le h hl
  | @measured _ _ _ tail' name length v _ trailing' hh ht =>
    rw [bundleMaxLength] at hl
    obtain ⟨front, j, hfront, hj, rfl⟩ := Bound.add_eq_some.1 hl
    obtain ⟨i, k, hi, hk, rfl⟩ := Bound.add_eq_some.1 hfront
    cases hk
    have hhead := membersLength_le hh hi
    have htail := membersLength_le ht hj
    have hlength : ((length.withValue v).withCount (membersLength tail' + trailing'.length)).length ≤
        length.maxLength := IntField.length_le_maxLength _
    rw [bundleLength, bundleSpare]
    omega

/-- No alternative may be longer than the variant. -/
theorem choicesMaxLength_ge {cs : List (Choice Field)} {limit : Nat}
    (hl : choicesMaxLength cs = some limit) {c : Choice Field} (hc : c ∈ cs) :
    ∃ k ≤ limit, bundleMaxLength c.bundle = some k := by
  induction cs generalizing limit with
  | nil => cases hc
  | cons a cs ih =>
    rw [choicesMaxLength] at hl
    obtain ⟨i, j, hi, hj, rfl⟩ := Bound.max_eq_some.1 hl
    rcases List.mem_cons.1 hc with rfl | hc
    · exact ⟨i, Nat.le_max_left i j, hi⟩
    · obtain ⟨k, hk, hbundle⟩ := ih hj hc
      exact ⟨k, Nat.le_trans hk (Nat.le_max_right i j), hbundle⟩

theorem Field.Yields.limits {p g : Field} (h : p.Yields g) : p.Limits g := by
  intro limit hl
  induction p generalizing g limit with
  | int f =>
    cases h with
    | int _ v =>
      cases hl
      exact Nat.le_add_right_of_le (f.withValue v).length_le_maxLength
  | enumeration f =>
    cases h with
    | enumeration _ v =>
      cases hl
      exact Nat.le_add_right_of_le (f.storage.withValue v).length_le_maxLength
  | text f =>
    cases h with
    | @text _ data _ =>
      exact Nat.le_add_right_of_le (ByteField.length_le_maxLength (f := { f with data }) hl)
  | bytes f =>
    cases h with
    | @bytes _ data _ =>
      exact Nat.le_add_right_of_le (ByteField.length_le_maxLength (f := { f with data }) hl)
  | list l ih _ =>
    cases h with
    | list _ hes _ hcount =>
      exact ListOf.length_le_maxLength hcount (fun e he => fun k hk => ih (hes e he) k hk) limit hl
  | bundle b ih =>
    cases h with
    | bundle hb =>
      simp only [maxLength, length, spare] at hl ⊢
      exact bundleLength_le (hb.imp fun m hm _ _ hr => fun k hk => ih m hm hr k hk) hl
  | optional o ih _ =>
    cases h with
    | absent => simp [length]
    | present _ _ hi =>
      simp only [maxLength, length, spare] at hl ⊢
      simpa using ih hi limit hl
  | variant v ih =>
    cases h with
    | @variant _ i c bundle hc hb =>
      have hmem := List.mem_of_getElem? hc
      have hlt : i < v.alternatives.length := (List.getElem?_eq_some_iff.1 hc).1
      simp only [maxLength] at hl
      obtain ⟨k, hk, hbundle⟩ := choicesMaxLength_ge hl hmem
      have hle := bundleLength_le
        (hb.imp fun m hm _ _ hr => fun k hk => ih c hmem m hm hr k hk) hbundle
      simp only [length, spare, choiceLength_eq, choiceSpare_eq, List.getElem?_set_self hlt,
        Option.elim_some]
      omega
  | unknown old => cases hl
  | _ =>
    cases h
    cases hl
    exact Nat.le_add_right _ _

/-- **Reading exceeds the greatest length by the spare bytes at most**, and consumes as many bytes as
what was read is long. A field without regions keeps to its greatest length, and tells of none if
there is none. -/
theorem Field.read_maxLength (f : Field) :
    (∀ src, (f.read src).error = none → ∃ taken, src = taken ++ (f.read src).rest ∧
        taken.length = (f.read src).value.length ∧
        ∀ limit, f.maxLength = some limit → taken.length ≤ limit + (f.read src).value.spare) ∧
      (f.WithoutRegions →
        (∀ limit, f.maxLength = some limit → ∀ src, (f.read src).error = none →
          ∃ taken, src = taken ++ (f.read src).rest ∧ taken.length ≤ limit ∧
            (f.read src).value.length ≤ limit) ∧
        ((∀ limit, ∃ src, (f.read src).error = none ∧ limit < (f.read src).value.length) →
          f.maxLength = none)) := by
  have hall : ∀ src, (f.read src).error = none → ∃ taken, src = taken ++ (f.read src).rest ∧
      taken.length = (f.read src).value.length ∧
      ∀ limit, f.maxLength = some limit → taken.length ≤ limit + (f.read src).value.spare := by
    intro src h
    obtain ⟨taken, hsrc, hlength⟩ := read_taken h
    refine ⟨taken, hsrc, hlength, fun limit hl => ?_⟩
    rw [hlength]
    exact (f.read_yields src h).limits limit hl
  refine ⟨hall, fun hf => ?_⟩
  have hbound : ∀ limit, f.maxLength = some limit → ∀ src, (f.read src).error = none →
      ∃ taken, src = taken ++ (f.read src).rest ∧ taken.length ≤ limit ∧
        (f.read src).value.length ≤ limit := by
    intro limit hl src h
    obtain ⟨taken, hsrc, hlength, hle⟩ := hall src h
    have hle := hle limit hl
    rw [(f.read_yields src h).spare_eq_zero hf] at hle
    exact ⟨taken, hsrc, hle, hlength ▸ hle⟩
  refine ⟨hbound, fun hunbounded => ?_⟩
  cases hl : f.maxLength with
  | none => rfl
  | some limit =>
    obtain ⟨src, h, hlt⟩ := hunbounded limit
    obtain ⟨taken, -, -, hle⟩ := hbound limit hl src h
    exact absurd hle (Nat.not_le.2 hlt)

/-- Two octets that may be missing. -/
def twoOctets : Field :=
  .optional ⟨.list ⟨.int (octet 0), .fixed 2, none, []⟩, .unknown [], .tentative⟩

theorem twoOctets_withoutRegions : twoOctets.WithoutRegions := by
  refine Field.everywhere_iff.2 ⟨nofun, fun c hc => ?_⟩
  rcases hc with _ | ⟨_, _ | ⟨_, ⟨⟩⟩⟩
  · refine Field.everywhere_iff.2 ⟨fun h => h rfl, fun c hc => ?_⟩
    rcases hc with _ | ⟨_, ⟨⟩⟩
    exact Field.everywhere_int nofun
  · exact Field.everywhere_iff.2 ⟨nofun, nofun⟩

/-- A length of one byte and one octet of what it announces. -/
def announcedBytes : Field :=
  .bundle (.measured [] "len" (octet 0) [⟨"x", .int (octet 0)⟩] [])

theorem announcedBytes_read_maxLength :
    (∃ taken, [2, 7, 8] = taken ++ (announcedBytes.read [2, 7, 8]).rest ∧
        taken.length = (announcedBytes.read [2, 7, 8]).value.length ∧
        taken.length ≤ 2 + (announcedBytes.read [2, 7, 8]).value.spare) ∧
      (∃ taken, [5, 6, 7] = taken ++ (twoOctets.read [5, 6, 7]).rest ∧ taken.length ≤ 2 ∧
        (twoOctets.read [5, 6, 7]).value.length ≤ 2) := by
  obtain ⟨taken, hsrc, hlength, hle⟩ := (Field.read_maxLength announcedBytes).1 [2, 7, 8] rfl
  exact ⟨⟨taken, hsrc, hlength, hle 2 rfl⟩,
    ((Field.read_maxLength twoOctets).2 twoOctets_withoutRegions).1 2 rfl [5, 6, 7] rfl⟩

/-- The greatest length of the field is two bytes. Reading a region of two bytes, of which its member
reads one, consumes three, and the field that was read is three bytes long. -/
theorem announcedBytes_exceeds : announcedBytes.maxLength = some 2 ∧
    (announcedBytes.read [2, 7, 8]).error = none ∧ (announcedBytes.read [2, 7, 8]).rest = [] ∧
      (announcedBytes.read [2, 7, 8]).value.length = 3 :=
  ⟨rfl, rfl, rfl, rfl⟩

end WireProtocol
