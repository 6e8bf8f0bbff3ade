import WireProtocol.Frame.Read
import WireProtocol.Proofs.Field.Suffix

/-!
# The extent of a frame

Every count that reading layers reports, of bytes consumed or of the extent of a frame with a
wrong checksum, lies within the input (`readLayers_within`). So a frame read from a byte string is
a beginning of it (`readOne_extent`): the message carries exactly the bytes that its count names.
-/

set_option autoImplicit false

namespace WireProtocol

namespace LayerRead

/-- The counts of the result are at most `n`. -/
def Within (n : Nat) : LayerRead → Prop
  | .done _ consumed => consumed ≤ n
  | .mismatch _ _ _ extent => extent ≤ n
  | .failed _ => True

theorem Within.mono {r : LayerRead} {n k : Nat} (h : r.Within n) (hk : n ≤ k) : r.Within k := by
  cases r with
  | failed e => trivial
  | done m consumed => exact Nat.le_trans h hk
  | mismatch computed received m extent => exact Nat.le_trans h hk

theorem Within.seenFrom {src rest : Bytes} {r : LayerRead} (h : r.Within rest.length)
    (hs : rest <:+ src) : (r.seenFrom src rest).Within src.length := by
  have hl := hs.length_le
  cases r with
  | failed e => trivial
  | done m consumed =>
    simp only [Within, LayerRead.seenFrom, taken] at h ⊢
    omega
  | mismatch computed received m extent =>
    simp only [Within, LayerRead.seenFrom, taken] at h ⊢
    omega

theorem within_inRegion (len : Nat) (r : LayerRead) : (r.inRegion len).Within len := by
  unfold inRegion
  split
  · exact Nat.le_refl _
  · exact Nat.le_refl _
  · trivial
  · trivial

theorem within_compare {computed received : UInt64} {m : Option Message} {consumed n : Nat}
    (h : consumed ≤ n) : (compare computed received m consumed).Within n := by
  unfold compare
  split <;> exact h

end LayerRead

open LayerRead

theorem withInt_within {field : IntField} {src : Bytes} {next : IntField → Bytes → LayerRead}
    {n : Nat} (h : ∀ f rest, rest <:+ src → (next f rest).Within n) :
    (withInt field src next).Within n := by
  unfold withInt
  dsimp only
  split
  · trivial
  · exact h _ _ (field.read_suffix src)

theorem dispatch_within {id : UInt64} {attempt : Message → LayerRead} {n : Nat}
    (h : ∀ m, (attempt m).Within n) (types : List Message) :
    (dispatch id attempt types).Within n := by
  induction types with
  | nil => trivial
  | cons m ms ih =>
    cases ms with
    | nil => exact h m
    | cons m' ms =>
      unfold dispatch
      split
      · exact ih
      · exact h m

theorem readPayload_within (supplied : List Supplied) (message : Option Message) (src : Bytes) :
    (readPayload supplied message src).Within src.length := by
  unfold readPayload
  split
  · trivial
  · dsimp only
    split
    · trivial
    · exact Nat.sub_le _ _

/-- **Reading layers counts no byte beyond the input.** -/
theorem readLayers_within (registry : Registry) (sized : Bool) (ls : List Layer)
    (supplied : List Supplied) (message : Option Message) (src : Bytes) :
    (readLayers registry sized ls supplied message src).Within src.length := by
  induction ls generalizing supplied message src with
  | nil => exact Nat.zero_le _
  | cons l ls ih =>
    obtain ⟨name, kind⟩ := l
    cases kind with
    | sync field =>
      simp only [readLayers]
      refine withInt_within fun f rest hs => ?_
      split
      · exact (ih _ _ rest).seenFrom hs
      · trivial
    | size field max =>
      simp only [readLayers]
      refine withInt_within fun f rest hs => ?_
      split
      · trivial
      split
      · trivial
      rw [Bytes.take?_eq]
      by_cases hl : rest.length < f.value.toInt.toNat
      · rw [if_pos hl]
        trivial
      · rw [if_neg hl]
        -- the region lies within the input after the size field
        exact ((within_inRegion _ _).mono (Nat.le_of_not_lt hl)).seenFrom hs
    | id field =>
      have hs := field.read_suffix src
      simp only [readLayers]
      split
      · trivial
      · split
        · split
          · exact (ih _ _ _).seenFrom hs
          · trivial
        · exact (dispatch_within (fun m => ih _ _ _) _).seenFrom hs
    | transport field version =>
      simp only [readLayers]
      exact withInt_within fun f rest hs => (ih _ _ rest).seenFrom hs
    | payload =>
      simp only [readLayers]
      exact readPayload_within supplied message src
    | checksum field algorithm placement =>
      cases placement with
      | after =>
        have h := ih supplied message src
        simp only [readLayers]
        split
        · rename_i m n heq
          rw [heq] at h
          refine withInt_within fun f rest hs => within_compare ?_
          have := hs.length_le
          simp only [Within, taken, List.length_drop] at h this ⊢
          omega
        · exact h
      | before =>
        simp only [readLayers]
        refine withInt_within fun f rest hs => ?_
        have h := ih supplied message rest
        split
        · rename_i m n heq
          rw [heq] at h
          have := hs.length_le
          refine within_compare ?_
          simp only [Within, taken] at h ⊢
          omega
        · exact h.seenFrom hs

/-! ## One frame -/

/-- **A message read from a byte string**, with a right or a wrong checksum, carries the bytes that
its count names, a beginning of it. -/
theorem readOne_extent {f : Frame} {src : Bytes} {m : Message} {n : Nat}
    (h : f.readOne src = .message m n ∨ f.readOne src = .checksumFailure m n) :
    n ≤ src.length ∧ m.frameBytes = src.take n := by
  have hw := readLayers_within f.registry f.sized f.layers [] none src
  unfold Frame.readOne at h
  rcases h with h | h <;>
  · split at h <;> cases h
    rename_i heq
    rw [heq] at hw
    exact ⟨hw, rfl⟩

end WireProtocol
