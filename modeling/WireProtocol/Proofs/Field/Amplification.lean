import WireProtocol.Proofs.Field.Lookahead
import WireProtocol.Proofs.Field.Progress

/-!
# How many elements input can stand for

A list that ends with its region or with the input stops as soon as an element takes no byte
(`ListOf.readAll_eq_checked`), so it holds no more elements than it takes bytes. A count that is
sent in front of the elements is not compared with anything: if the elements can be read from
nothing, its bytes alone stand for as many elements as it says (`ListOf.read_announced`). So lists
do not amplify their input exactly as far as `ListOf.Proportionate` holds
(`ListOf.elements_le_taken_iff`).
-/

set_option autoImplicit false

namespace WireProtocol

variable {φ : Type}

namespace SizePolicy

/-- A size is read from its own bytes alone as it is in front of others. -/
theorem readSize_noLookahead {p : IntField} {src rest : Bytes} {n : Nat}
    (h : readSize p src = (.ok n, rest)) :
    ∃ c, src = c ++ rest ∧ ∀ rest', readSize p (c ++ rest') = (.ok n, rest') := by
  rw [readSize_eq] at h
  obtain ⟨q, mid, hq, hn⟩ := Decoded.andThen_ok h
  obtain ⟨he, rfl, rfl⟩ := Decoded.ofOutcome_ok hq
  obtain ⟨c, hc, hread⟩ := p.read_noLookahead (Outcome.eq_done he)
  by_cases hneg : (p.read src).value.value < 0
  · simp [hneg] at hn
  · rw [if_neg hneg] at hn
    cases hn
    refine ⟨c, hc, fun rest' => ?_⟩
    rw [readSize_eq, hread rest']
    show (if (p.read src).value.value < 0 then _ else _) = _
    rw [if_neg hneg]
    rfl

end SizePolicy

namespace ListOf

/-- A list that is read has the elements that were found. -/
theorem finish_done {l l' : ListOf φ} {d : Decoded (List (φ × Bytes))} {rest : Bytes}
    (h : l.finish d = .done l' rest) : d = (.ok l'.elements, rest) := by
  obtain ⟨es, left, hd, hdone⟩ := finish_ok (Outcome.of_done h).1
  rw [hdone] at h
  cases h
  exact hd

/-! ## Lists that end with their bytes -/

section
variable (readOne : Bytes → Outcome φ) (elemLength : Option IntField)

/-- Reads elements up to the end of the input and gives up at the first that takes no byte. -/
def readChecked (before : List (φ × Bytes)) : Bytes → Decoded (List (φ × Bytes))
  | [] => (.ok before.reverse, [])
  | b :: bs =>
    match readElement readOne elemLength (b :: bs) with
    | (.error e, rest) => (.error e, rest)
    | (.ok e, rest) =>
      if rest.length < (b :: bs).length then readChecked (e :: before) rest
      else (.error (.invalidData .emptyElement), rest)
termination_by src => src.length
decreasing_by assumption

variable {readOne elemLength}

/-- After an element that takes no byte the same one comes until the limit is reached. -/
theorem readUpTo_stuck {src : Bytes} {e : φ × Bytes} (hsrc : src ≠ [])
    (h : readElement readOne elemLength src = (.ok e, src)) (limit : Nat)
    (before : List (φ × Bytes)) :
    readUpTo readOne elemLength limit before src = (.error (.invalidData .emptyElement), src) := by
  obtain ⟨b, bs, rfl⟩ := List.exists_cons_of_ne_nil hsrc
  induction limit generalizing before with
  | zero => rfl
  | succ limit ih =>
    unfold readUpTo
    rw [h]
    exact ih _

theorem readUpTo_eq_checked (hs : LeavesSuffix readOne) {limit : Nat} {src : Bytes}
    (hl : src.length ≤ limit) (before : List (φ × Bytes)) :
    readUpTo readOne elemLength limit before src = readChecked readOne elemLength before src := by
  induction limit generalizing src before with
  | zero =>
    have hsrc : src = [] := List.length_eq_zero_iff.1 (by omega)
    subst hsrc
    simp [readUpTo, readChecked]
  | succ limit ih =>
    cases src with
    | nil => simp [readUpTo, readChecked]
    | cons b bs =>
      have hsuffix := readElement_suffix hs elemLength (b :: bs)
      unfold readUpTo readChecked
      cases he : readElement readOne elemLength (b :: bs) with
      | mk result rest =>
        rw [he] at hsuffix
        cases result with
        | error e => rfl
        | ok e =>
          dsimp only at hsuffix ⊢
          by_cases hlt : rest.length < (b :: bs).length
          · rw [if_pos hlt]
            exact ih (by simp only [List.length_cons] at hl hlt; omega) _
          · -- an element that takes no byte leaves all of the input
            have hrest : rest = b :: bs :=
              hsuffix.eq_of_length (Nat.le_antisymm hsuffix.length_le (Nat.le_of_not_lt hlt))
            subst hrest
            rw [if_neg hlt]
            exact readUpTo_stuck (List.cons_ne_nil b bs) he limit _

/-- **Elements are read up to the end of the input, each checked to take a byte.** -/
theorem readAll_eq_checked (hs : LeavesSuffix readOne) (src : Bytes) :
    readAll readOne elemLength src = readChecked readOne elemLength [] src :=
  readUpTo_eq_checked hs (Nat.le_refl _) []

theorem readChecked_length {before es : List (φ × Bytes)} {src rest : Bytes}
    (h : readChecked readOne elemLength before src = (.ok es, rest)) :
    es.length + rest.length ≤ before.length + src.length := by
  fun_induction readChecked readOne elemLength before src with
  | case1 before =>
    cases h
    simp
  | case2 => cases h
  | case3 before b bs e mid he hlt ih =>
    have hle := ih h
    simp only [List.length_cons] at hle hlt ⊢
    omega
  | case4 => cases h

theorem readAll_length (hs : LeavesSuffix readOne) {es : List (φ × Bytes)} {src rest : Bytes}
    (h : readAll readOne elemLength src = (.ok es, rest)) :
    es.length + rest.length ≤ src.length := by
  rw [readAll_eq_checked hs] at h
  have hle := readChecked_length h
  rwa [List.length_nil, Nat.zero_add] at hle

/-- The elements in a region are at most as many as its bytes. -/
theorem readBounded_length (hs : LeavesSuffix readOne) {l l' : ListOf φ} {n : Nat}
    {src rest : Bytes} (h : readBounded readOne l n src = .done l' rest) :
    l'.elements.length + rest.length ≤ src.length := by
  unfold readBounded at h
  obtain ⟨region, left, rfl, -, heq⟩ := withBytes_ok (Outcome.of_done h).1
  rw [heq] at h
  have hall := finish_done h
  cases hregion : readAll readOne l.elemLength region with
  | mk result unread =>
    rw [hregion] at hall
    cases result with
    | error e => cases hall
    | ok es =>
      cases hall
      have hle := readAll_length hs hregion
      rw [List.length_append]
      omega

end

/-! ## Counted lists -/

section
variable {readOne : Bytes → Outcome φ} {elemLength : Option IntField}

theorem readMany_length {n : Nat} {before es : List (φ × Bytes)} {src rest : Bytes}
    (h : readMany readOne elemLength n before src = (.ok es, rest)) :
    es.length = before.length + n := by
  induction n generalizing before src with
  | zero =>
    cases h
    simp
  | succ n ih =>
    rw [readMany_succ] at h
    obtain ⟨e, mid, -, hn⟩ := Decoded.andThen_ok h
    have hl := ih hn
    rw [List.length_cons] at hl
    omega

/-- A count of elements that all take a byte is at most that of the bytes behind it. -/
theorem readMany_elements_le (hp : elemLength = none → Progress readOne) {n : Nat}
    {es : List (φ × Bytes)} {src rest : Bytes}
    (h : readMany readOne elemLength n [] src = (.ok es, rest)) :
    es.length + rest.length ≤ src.length := by
  have hcount := readMany_length h
  have hle := readMany_progress hp h
  rw [List.length_nil] at hcount
  omega

end

/-- **A count alone stands for that many elements** if they can be read from nothing. -/
theorem read_announced {l : ListOf Field} {p : IntField} (hsize : l.size = .count p)
    (hlength : l.elemLength = none) (hn : ReadsNothing l.prototype.read) {c : Bytes} {n : Nat}
    (hc : SizePolicy.readSize p c = (.ok n, [])) :
    ∃ l', (Field.list l).read c = .done (.list l') [] ∧ l'.elements.length = n := by
  have hmany := readMany_nothing l.prototype.read_suffix hn n []
  rw [List.reverse_nil, List.nil_append] at hmany
  refine ⟨{ l with elements := List.replicate n ((l.prototype.read []).value, []) }, ?_, by simp⟩
  rw [Field.read]
  show (readWith l.prototype.read l c).map Field.list = _
  rw [readWith_count _ l hsize, hc]
  show (l.finish (readMany l.prototype.read l.elemLength n [] [])).map Field.list = _
  rw [← hlength] at hmany
  rw [hmany]
  rfl

/-! ## The bound -/

/-- Elements that can be read from nothing are announced by a count that is never larger than the
number of its own bytes. Elements with a length of their own take its bytes. -/
def Proportionate (l : ListOf Field) : Prop :=
  ∀ p, l.size = .count p → l.elemLength = none → ReadsNothing l.prototype.read →
    ∀ src n rest, SizePolicy.readSize p src = (.ok n, rest) → n + rest.length ≤ src.length

theorem Proportionate.elements_le {l : ListOf Field} (h : l.Proportionate)
    (hl : ∀ n, l.size ≠ .fixed n) {l' : ListOf Field} {src rest : Bytes}
    (hr : readWith l.prototype.read l src = .done l' rest) :
    l'.elements.length + rest.length ≤ src.length := by
  have hs := l.prototype.read_suffix
  have hdone := (Outcome.of_done hr).1
  cases hsize : l.size with
  | fixed n => exact absurd hsize (hl n)
  | remainder =>
    simp only [readWith, hsize] at hr
    exact readAll_length hs (finish_done hr)
  | length p =>
    rw [readWith_length _ l hsize] at hr hdone
    obtain ⟨n, mid, hn, heq⟩ := Decoded.resume_ok hdone
    rw [heq] at hr
    have hmid := SizePolicy.readSize_progress hn
    have hle := readBounded_length hs hr
    omega
  | count p =>
    rw [readWith_count _ l hsize] at hr hdone
    obtain ⟨n, mid, hn, heq⟩ := Decoded.resume_ok hdone
    rw [heq] at hr
    have hmany := finish_done hr
    by_cases hnothing : l.elemLength = none ∧ ReadsNothing l.prototype.read
    · -- the bytes of the count make up for elements that take none
      have hle := h p hsize hnothing.1 hnothing.2 src n mid hn
      have hcount := readMany_length hmany
      have hsuffix := readMany_suffix hs l.elemLength n [] mid
      rw [hmany] at hsuffix
      have hrest : rest.length ≤ mid.length := hsuffix.length_le
      rw [List.length_nil] at hcount
      omega
    · have hmid := SizePolicy.readSize_progress hn
      have hle := readMany_elements_le (fun hlength => l.prototype.read_progress_iff.2 fun hone =>
        hnothing ⟨hlength, hone⟩) hmany
      omega

/-- **A list whose size is not fixed holds at most as many elements as the bytes that were read**,
in each read that succeeds, if and only if it is proportionate. -/
theorem elements_le_taken_iff {l : ListOf Field} (hl : ∀ n, l.size ≠ .fixed n) :
    (∀ src l' rest, (Field.list l).read src = .done (.list l') rest →
      l'.elements.length + rest.length ≤ src.length) ↔ l.Proportionate := by
  constructor
  · intro h p hsize hlength hn src n rest hr
    obtain ⟨c, rfl, hc⟩ := SizePolicy.readSize_noLookahead hr
    have hc := hc []
    rw [List.append_nil] at hc
    obtain ⟨l', hread, hcount⟩ := read_announced hsize hlength hn hc
    have hle := h c l' [] hread
    rw [hcount, List.length_nil] at hle
    rw [List.length_append]
    omega
  · intro h src l' rest hr
    rw [Field.read] at hr
    obtain ⟨he, hv, hrest⟩ := Outcome.of_done hr
    rw [Outcome.error_map] at he
    rw [Outcome.value_map] at hv
    have hdone := Outcome.eq_done he
    rw [Field.list.inj hv, ← Outcome.rest_map Field.list, hrest] at hdone
    exact h.elements_le hl hdone

end ListOf

/-- Texts with their lengths in front, counted in one byte. -/
def countedTexts : ListOf Field where
  prototype := .text ⟨.length (octet 0), []⟩
  size := .count (octet 0)
  elemLength := none
  elements := []

/-- An empty text still takes the byte of its length. -/
theorem countedTexts_elements_le :
    (∀ n, countedTexts.size ≠ .fixed n) ∧ countedTexts.Proportionate ∧
      ∃ l, (Field.list countedTexts).read [3, 0, 1, 65, 0, 9] = .done (.list l) [9] ∧
        l.elements.length = 3 ∧ l.elements.length + [(9 : UInt8)].length ≤ 6 := by
  have hsize (n : Nat) : countedTexts.size ≠ .fixed n := nofun
  have hp : countedTexts.Proportionate := fun _ _ _ hn => nomatch hn
  exact ⟨hsize, hp, _, rfl, rfl,
    (ListOf.elements_le_taken_iff hsize).2 hp [3, 0, 1, 65, 0, 9] _ _ rfl⟩

/-- Bundles without members, counted in one byte. -/
def countedBlanks : ListOf Field where
  prototype := .bundle (.plain [])
  size := .count (octet 0)
  elemLength := none
  elements := []

/-- One byte is read as five elements. -/
theorem countedBlanks_amplified :
    ∃ l, (Field.list countedBlanks).read [5] = .done (.list l) [] ∧ l.elements.length = 5 :=
  ⟨_, rfl, rfl⟩

end WireProtocol
