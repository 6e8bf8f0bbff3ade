import WireProtocol.Proofs.Field.Decoding
import WireProtocol.Proofs.Field.Kind

/-!
# Where the parts of a field that was read come from

A composed field puts nothing into its value that no reader of a part has passed: after a read that
succeeds, every part that is sent is what a field inside the reader read, and succeeded to read,
from some bytes (`Field.read_sends`). So a property that each kind of field checks for itself holds
wherever such a field is nested.
-/

set_option autoImplicit false

namespace WireProtocol

/-- The field is what a reader of that kind read, and succeeded to read, from some bytes. -/
def ReadBy (reader : Field → Prop) (g : Field) : Prop :=
  ∃ f, reader f ∧ ∃ src, (f.read src).error = none ∧ g = (f.read src).value

theorem ReadBy.mono {reader reader' : Field → Prop} {g : Field} (h : ReadBy reader g)
    (hr : ∀ f, reader f → reader' f) : ReadBy reader' g := by
  obtain ⟨f, hf, hread⟩ := h
  exact ⟨f, hr f hf, hread⟩

/-! ## Elements -/

namespace ListOf

variable {readOne : Bytes → Outcome Field} {elemLength : Option IntField}

/-- The element was read from some bytes. -/
def ElementRead (readOne : Bytes → Outcome Field) (e : Field × Bytes) : Prop :=
  ∃ src, (readOne src).error = none ∧ e.1 = (readOne src).value

theorem readElement_elementRead {src rest : Bytes} {e : Field × Bytes}
    (h : readElement readOne elemLength src = (.ok e, rest)) : ElementRead readOne e := by
  cases elemLength with
  | none =>
    rw [readElement_none] at h
    obtain ⟨v, mid, hv, hn⟩ := Decoded.andThen_ok h
    obtain ⟨he, rfl, -⟩ := Decoded.ofOutcome_ok hv
    cases hn
    exact ⟨src, he, rfl⟩
  | some p =>
    rw [readElement_some] at h
    obtain ⟨q, mid, -, hn⟩ := Decoded.andThen_ok h
    obtain ⟨-, region, -, -, hone, rfl⟩ := readRegion_ok hn
    exact ⟨region, hone, rfl⟩

section
variable {P : Field × Bytes → Prop}
  (hP : ∀ {src e rest}, readElement readOne elemLength src = (.ok e, rest) → P e)
include hP

/-- What holds of every element that can be read holds of all elements. -/
theorem readMany_forall {n : Nat} {before es : List (Field × Bytes)} {src rest : Bytes}
    (h : readMany readOne elemLength n before src = (.ok es, rest)) (hb : ∀ e ∈ before, P e) :
    ∀ e ∈ es, P e := by
  induction n generalizing before src with
  | zero =>
    cases h
    exact fun e he => hb e (List.mem_reverse.1 he)
  | succ n ih =>
    rw [readMany_succ] at h
    obtain ⟨e, mid, he, hn⟩ := Decoded.andThen_ok h
    exact ih hn (List.forall_mem_cons.2 ⟨hP he, hb⟩)

theorem readUpTo_forall {limit : Nat} {before es : List (Field × Bytes)} {src rest : Bytes}
    (h : readUpTo readOne elemLength limit before src = (.ok es, rest)) (hb : ∀ e ∈ before, P e) :
    ∀ e ∈ es, P e := by
  induction limit generalizing before src with
  | zero =>
    cases src with
    | nil =>
      cases h
      exact fun e he => hb e (List.mem_reverse.1 he)
    | cons b bs => cases h
  | succ n ih =>
    cases src with
    | nil =>
      cases h
      exact fun e he => hb e (List.mem_reverse.1 he)
    | cons b bs =>
      unfold readUpTo at h
      split at h
      · rename_i e mid he
        exact ih h (List.forall_mem_cons.2 ⟨hP he, hb⟩)
      · cases h

end

theorem readBounded_forall {l : ListOf Field} {P : Field × Bytes → Prop}
    (hP : ∀ {src e rest}, readElement readOne l.elemLength src = (.ok e, rest) → P e) {n : Nat}
    {src : Bytes} (h : (readBounded readOne l n src).error = none) :
    ∀ e ∈ (readBounded readOne l n src).value.elements, P e := by
  unfold readBounded at h ⊢
  obtain ⟨region, rest, -, -, hregion⟩ := withBytes_ok h
  rw [hregion] at h ⊢
  obtain ⟨es, rest', hd, hf⟩ := finish_ok h
  rw [hf]
  obtain ⟨hall, -⟩ := Prod.mk.inj hd
  cases hread : readAll readOne l.elemLength region with
  | mk result left =>
    rw [hread] at hall
    cases result with
    | error e => cases hall
    | ok es' =>
      cases hall
      exact readUpTo_forall hP hread (List.forall_mem_nil _)

theorem readWith_forall {l : ListOf Field} {P : Field × Bytes → Prop}
    (hP : ∀ {src e rest}, readElement readOne l.elemLength src = (.ok e, rest) → P e) {src : Bytes}
    (h : (readWith readOne l src).error = none) :
    ∀ e ∈ (readWith readOne l src).value.elements, P e := by
  cases hs : l.size with
  | fixed n =>
    have heq : readWith readOne l src = l.finish (readMany readOne l.elemLength n [] src) := by
      simp only [readWith, hs]
    rw [heq] at h ⊢
    obtain ⟨es, rest, hd, hf⟩ := finish_ok h
    rw [hf]
    exact readMany_forall hP hd (List.forall_mem_nil _)
  | remainder =>
    have heq : readWith readOne l src = l.finish (readAll readOne l.elemLength src) := by
      simp only [readWith, hs]
    rw [heq] at h ⊢
    obtain ⟨es, rest, hd, hf⟩ := finish_ok h
    rw [hf]
    exact readUpTo_forall hP hd (List.forall_mem_nil _)
  | count p =>
    rw [readWith_count readOne l hs] at h ⊢
    obtain ⟨n, mid, -, heq⟩ := Decoded.resume_ok h
    rw [heq] at h ⊢
    obtain ⟨es, rest, hd, hf⟩ := finish_ok h
    rw [hf]
    exact readMany_forall hP hd (List.forall_mem_nil _)
  | length p =>
    rw [readWith_length readOne l hs] at h ⊢
    obtain ⟨n, mid, -, heq⟩ := Decoded.resume_ok h
    rw [heq] at h ⊢
    exact readBounded_forall hP h

/-- All elements of a list that was read were read. -/
theorem readWith_elementRead {l : ListOf Field} {src : Bytes}
    (h : (readWith readOne l src).error = none) :
    ∀ e ∈ (readWith readOne l src).value.elements, ElementRead readOne e :=
  readWith_forall readElement_elementRead h

end ListOf

/-! ## Members -/

theorem readMembers_readBy {ms : List (Member Field)} {src : Bytes}
    (h : (readMembers ms src).error = none) :
    ∀ m ∈ (readMembers ms src).value, ReadBy (· ∈ ms.map (·.field)) m.field := by
  induction ms generalizing src with
  | nil =>
    rw [readMembers]
    exact List.forall_mem_nil _
  | cons m ms ih =>
    rw [readMembers_cons] at h ⊢
    obtain ⟨hm, heq⟩ := Outcome.andThen_ok h
    rw [heq] at h ⊢
    refine List.forall_mem_cons.2 ⟨⟨m.field, .head _, src, hm, rfl⟩, fun m' hm' => ?_⟩
    exact (ih h m' hm').mono fun f hf => .tail _ hf

theorem readBundle_readBy {b : Bundle Field} {src : Bytes} (h : (readBundle b src).error = none) :
    ∀ m ∈ (readBundle b src).value.members, ReadBy (· ∈ b.members.map (·.field)) m.field := by
  cases b with
  | plain ms =>
    rw [readBundle] at h ⊢
    exact readMembers_readBy h
  | measured head name length tail trailing =>
    rw [readBundle_measured] at h ⊢
    obtain ⟨hhead, heq⟩ := Outcome.andThen_ok h
    rw [heq] at h ⊢
    obtain ⟨hlength, heq⟩ := Outcome.andThen_ok h
    rw [heq] at h ⊢
    obtain ⟨-, region, rest, -, -, htail, heq⟩ := readTail_ok h
    rw [heq]
    intro m hm
    show ReadBy (· ∈ (head ++ ⟨name, .int length⟩ :: tail).map (·.field)) m.field
    rw [List.map_append, List.map_cons]
    rcases List.mem_append.1 hm with hm | hm
    · exact (readMembers_readBy hhead m hm).mono fun f hf => List.mem_append_left _ hf
    rcases List.mem_cons.1 hm with rfl | hm
    · exact ⟨.int length, List.mem_append_right _ (.head _), _, hlength, rfl⟩
    · exact (readMembers_readBy htail m hm).mono fun f hf =>
        List.mem_append_right _ (.tail _ hf)

/-- The alternative that was chosen is the one whose bundle was read. -/
theorem readChoice_readBy {cs : List (Choice Field)} {i : Nat} {src : Bytes}
    (h : (readChoice cs i src).error = none) {c : Choice Field}
    (hc : (readChoice cs i src).value[i]? = some c) :
    ∃ c' ∈ cs, ∀ m ∈ c.bundle.members, ReadBy (· ∈ c'.bundle.members.map (·.field)) m.field := by
  rw [readChoice_eq] at h hc
  cases hi : cs[i]? with
  | none =>
    rw [hi] at hc
    cases hi.symm.trans hc
  | some c' =>
    rw [hi] at h hc
    dsimp only [Option.elim_some] at h hc
    have hlt : i < cs.length := (List.getElem?_eq_some_iff.1 hi).1
    rw [Outcome.value_map, List.getElem?_set_self hlt] at hc
    cases hc
    exact ⟨c', List.mem_of_getElem? hi, readBundle_readBy h⟩

/-! ## Fields -/

/-- **The parts of a field that was read were read** by the fields directly inside it. -/
theorem Field.read_sentParts {f : Field} {src : Bytes} (h : (f.read src).error = none) :
    ∀ g ∈ (f.read src).value.sentParts, ReadBy (· ∈ f.children) g := by
  cases f with
  | list l =>
    obtain ⟨prototype, size, elemLength, elements⟩ := l
    rw [Field.read] at h ⊢
    intro g hg
    obtain ⟨e, he, rfl⟩ := List.mem_map.1 hg
    obtain ⟨bs, hbs, hv⟩ := ListOf.readWith_elementRead h e he
    exact ⟨prototype, .head _, bs, hbs, hv⟩
  | bundle b =>
    rw [Field.read] at h ⊢
    intro g hg
    obtain ⟨m, hm, rfl⟩ := List.mem_map.1 hg
    exact readBundle_readBy h m hm
  | optional o =>
    rw [Field.read_optional] at h ⊢
    split at h
    · rename_i hmode
      rw [if_pos hmode]
      exact List.forall_mem_nil _
    · rename_i hmode
      rw [if_neg hmode]
      obtain ⟨he, heq⟩ := Outcome.andThen_ok h
      rw [heq]
      intro g hg
      rcases hg with _ | ⟨_, ⟨⟩⟩
      exact ⟨o.inner, .head _, src, he, rfl⟩
  | variant v =>
    obtain ⟨alternatives, current⟩ := v
    rw [Field.read] at h ⊢
    cases hp : probeTags src 0 none alternatives with
    | error e =>
      rw [hp] at h
      cases h
    | ok i =>
      rw [hp] at h
      intro g hg
      simp only [Outcome.value_map, sentParts, Variant.current?] at hg
      cases hc : (readChoice alternatives i src).value[i]? with
      | none =>
        rw [hc] at hg
        cases hg
      | some c =>
        rw [hc] at hg
        obtain ⟨m, hm, rfl⟩ := List.mem_map.1 hg
        obtain ⟨c', hc', hread⟩ := readChoice_readBy h hc
        exact (hread m hm).mono fun f hf => List.mem_flatMap.2 ⟨c', hc', hf⟩
  | _ => exact List.forall_mem_nil _

/-- **Whatever a field sends after it was read was itself read** by a field inside it, or is the
whole that was read. -/
theorem Field.read_sends {f : Field} {src : Bytes} (h : (f.read src).error = none) {g : Field}
    (hg : Field.Sends g (f.read src).value) : ReadBy (Field.Within · f) g := by
  induction f using Field.inductionOnChildren generalizing src g with
  | step f ih =>
    cases hg with
    | self => exact ⟨f, .self, src, h, rfl⟩
    | part hc hg =>
      obtain ⟨c, hchild, bs, hread, rfl⟩ := Field.read_sentParts h _ hc
      exact (ih c hchild hread hg).mono fun f' hf' => .child hchild hf'

end WireProtocol
