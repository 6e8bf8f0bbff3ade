import Mathlib.Data.List.TakeWhile
import WireProtocol.Field.ByteString

/-!
# Texts and their bytes

Bytes without a broken piece are the bytes of the text that is shown for them
(`Utf8.encode_decodeLossy`): each character takes as many bytes as its piece has, and the same ones
(`Utf8.encodeChar_piece`). A zero byte ends a piece, so what stands in front of one is a text if the
whole is (`Utf8.isValid_of_append_zero`), and a text field can take back what it shows
(`ByteField.text_withText`).
-/

set_option autoImplicit false

namespace WireProtocol

namespace Utf8

/-! ## Pieces in order -/

theorem piecesOnto_skip (before : List (Option Char)) (skip : Nat) (bs : Bytes) :
    piecesOnto before skip bs = piecesOnto before 0 (bs.drop skip) := by
  induction bs generalizing skip with
  | nil => simp [piecesOnto]
  | cons b bs ih =>
    cases skip with
    | zero => rfl
    | succ skip => rw [piecesOnto, ih, List.drop_succ_cons]

theorem piecesOnto_append (before : List (Option Char)) (skip : Nat) (bs : Bytes) :
    piecesOnto before skip bs = piecesOnto [] skip bs ++ before := by
  induction bs generalizing before skip with
  | nil => simp [piecesOnto]
  | cons b bs ih =>
    cases skip with
    | zero =>
      simp only [piecesOnto]
      rw [ih, ih [_], List.append_assoc]
      rfl
    | succ skip => rw [piecesOnto, piecesOnto, ih]

@[simp] theorem pieces_nil : pieces [] = [] := by simp [pieces, piecesOnto]

theorem pieces_cons (b : UInt8) (bs : Bytes) :
    pieces (b :: bs) = (piece b bs).1 :: pieces (bs.drop (piece b bs).2) := by
  unfold pieces
  rw [piecesOnto]
  simp only
  rw [piecesOnto_append, piecesOnto_skip, List.reverse_append]
  rfl

/-- Induction along the pieces of a byte string. -/
theorem pieces_induction {motive : Bytes → Prop} (nil : motive [])
    (cons : ∀ b bs, motive (bs.drop (piece b bs).2) → motive (b :: bs)) (bs : Bytes) :
    motive bs := by
  induction hn : bs.length using Nat.strongRecOn generalizing bs with
  | ind n ih =>
    cases bs with
    | nil => exact nil
    | cons b bs =>
      refine cons b bs (ih _ ?_ _ rfl)
      rw [← hn, List.length_cons, List.length_drop]
      omega

@[simp] theorem isValid_nil : isValid [] = true := by simp [isValid]

theorem isValid_cons (b : UInt8) (bs : Bytes) :
    isValid (b :: bs) = ((piece b bs).1.isSome && isValid (bs.drop (piece b bs).2)) := by
  simp [isValid, pieces_cons]

/-! ## The bytes of a character -/

theorem following_eq_some {lead : UInt8} {n low high : Nat}
    (h : following lead = some (n, low, high)) :
    (n = 1 ∧ 0xC2 ≤ lead.toNat ∧ lead.toNat ≤ 0xDF ∧ low = 0x80 ∧ high = 0xBF) ∨
      (n = 2 ∧ 0xE0 ≤ lead.toNat ∧ lead.toNat ≤ 0xEF ∧ 0x80 ≤ low ∧ high ≤ 0xBF ∧
        (lead.toNat = 0xE0 → 0xA0 ≤ low) ∧ (lead.toNat = 0xED → high ≤ 0x9F)) ∨
      (n = 3 ∧ 0xF0 ≤ lead.toNat ∧ lead.toNat ≤ 0xF4 ∧ 0x80 ≤ low ∧ high ≤ 0xBF ∧
        (lead.toNat = 0xF0 → 0x90 ≤ low) ∧ (lead.toNat = 0xF4 → high ≤ 0x8F)) := by
  unfold following at h
  dsimp only at h
  repeat' split at h
  all_goals simp only [Option.some.injEq, Prod.mk.injEq, reduceCtorEq] at h <;> omega

/-- A code point outside of the surrogates is that of its character. -/
theorem toNat_charOfNat {n : Nat} (h : n.isValidChar) : (Char.ofNat n).val.toNat = n := by
  unfold Char.ofNat
  rw [dif_pos h]
  rfl

theorem ofNat_eq {n : Nat} {b : UInt8} (h : n = b.toNat) : UInt8.ofNat n = b := by
  rw [h, UInt8.ofNat_toNat]

theorem encodeChar_one {a : UInt8} (ha : a.toNat < 0x80) :
    String.utf8EncodeChar (Char.ofNat a.toNat) = [a] := by
  have hv : (Char.ofNat a.toNat).val.toNat = a.toNat := toNat_charOfNat (.inl (by omega))
  unfold String.utf8EncodeChar
  simp only [hv]
  rw [if_pos (by omega), ofNat_eq rfl]

theorem encodeChar_two {a b : UInt8} (ha : 0xC2 ≤ a.toNat ∧ a.toNat ≤ 0xDF)
    (hb : b.toNat / 64 = 2) :
    String.utf8EncodeChar (Char.ofNat (a.toNat % 32 * 64 + b.toNat % 64)) = [a, b] := by
  have hv := toNat_charOfNat (n := a.toNat % 32 * 64 + b.toNat % 64) (.inl (by omega))
  unfold String.utf8EncodeChar
  simp only [hv]
  rw [if_neg (by omega), if_pos (by omega), ofNat_eq (b := a) (by omega),
    ofNat_eq (b := b) (by omega)]

theorem encodeChar_three {a b c : UInt8} (ha : 0xE0 ≤ a.toNat ∧ a.toNat ≤ 0xEF)
    (hb : b.toNat / 64 = 2) (hc : c.toNat / 64 = 2) (hlow : a.toNat = 0xE0 → 0xA0 ≤ b.toNat)
    (hhigh : a.toNat = 0xED → b.toNat ≤ 0x9F) :
    String.utf8EncodeChar
      (Char.ofNat ((a.toNat % 16 * 64 + b.toNat % 64) * 64 + c.toNat % 64)) = [a, b, c] := by
  have hvalid : ((a.toNat % 16 * 64 + b.toNat % 64) * 64 + c.toNat % 64).isValidChar := by
    unfold Nat.isValidChar
    omega
  have hv := toNat_charOfNat hvalid
  unfold String.utf8EncodeChar
  simp only [hv]
  rw [if_neg (by omega), if_neg (by omega), if_pos (by omega), ofNat_eq (b := a) (by omega),
    ofNat_eq (b := b) (by omega), ofNat_eq (b := c) (by omega)]

theorem encodeChar_four {a b c d : UInt8} (ha : 0xF0 ≤ a.toNat ∧ a.toNat ≤ 0xF4)
    (hb : b.toNat / 64 = 2) (hc : c.toNat / 64 = 2) (hd : d.toNat / 64 = 2)
    (hlow : a.toNat = 0xF0 → 0x90 ≤ b.toNat) (hhigh : a.toNat = 0xF4 → b.toNat ≤ 0x8F) :
    String.utf8EncodeChar (Char.ofNat
      (((a.toNat % 8 * 64 + b.toNat % 64) * 64 + c.toNat % 64) * 64 + d.toNat % 64)) =
        [a, b, c, d] := by
  have hvalid : (((a.toNat % 8 * 64 + b.toNat % 64) * 64 + c.toNat % 64) * 64 +
      d.toNat % 64).isValidChar := by
    unfold Nat.isValidChar
    omega
  have hv := toNat_charOfNat hvalid
  unfold String.utf8EncodeChar
  simp only [hv]
  rw [if_neg (by omega), if_neg (by omega), if_neg (by omega), ofNat_eq (b := a) (by omega),
    ofNat_eq (b := b) (by omega), ofNat_eq (b := c) (by omega), ofNat_eq (b := d) (by omega)]

/-- Continuation bytes that are all there. -/
theorem continued_succ {n code code' : Nat} {bs : Bytes}
    (h : continued (n + 1) code bs = (code', n + 1)) :
    ∃ b rest, bs = b :: rest ∧ b.toNat / 64 = 2 ∧
      continued n (code * 64 + b.toNat % 64) rest = (code', n) := by
  cases bs with
  | nil => simp [continued] at h
  | cons b rest =>
    simp only [continued] at h
    split at h
    · rename_i hb
      obtain ⟨hcode, htaken⟩ := Prod.mk.inj h
      exact ⟨b, rest, rfl, hb, Prod.ext hcode (Nat.succ.inj htaken)⟩
    · simp at h

theorem continued_zero {code code' : Nat} {bs : Bytes} (h : continued 0 code bs = (code', 0)) :
    code' = code := by
  rw [continued] at h
  · exact (Prod.mk.inj h).1.symm
  · nofun

/-- **A character has the bytes of its piece.** -/
theorem encodeChar_piece {b : UInt8} {bs : Bytes} {c : Char} {taken : Nat}
    (h : piece b bs = (some c, taken)) : String.utf8EncodeChar c = b :: bs.take taken := by
  unfold piece at h
  split at h
  · rename_i hb
    obtain ⟨hc, rfl⟩ := Prod.mk.inj h
    obtain rfl := Option.some.inj hc
    exact encodeChar_one hb
  · split at h
    · rename_i n low high b' bs hf
      split at h
      · rename_i hrange
        dsimp only at h
        obtain ⟨hc, rfl⟩ := Prod.mk.inj h
        split at hc
        · rename_i hcount
          have hchar := Option.some.inj hc
          clear hc
          subst hchar
          generalize hk : continued (n - 1) _ bs = r at hcount
          obtain ⟨code, count⟩ := r
          dsimp only at hcount ⊢
          subst hcount
          rcases following_eq_some hf with ⟨rfl, h1, h2, rfl, rfl⟩ | ⟨rfl, h1, h2, h3, h4, h5, h6⟩ |
            ⟨rfl, h1, h2, h3, h4, h5, h6⟩
          · rw [continued_zero hk]
            exact encodeChar_two ⟨h1, h2⟩ (by omega)
          · obtain ⟨c, rest, rfl, hc, hk⟩ := continued_succ hk
            rw [continued_zero hk]
            exact encodeChar_three ⟨h1, h2⟩ (by omega) hc (by omega) (by omega)
          · obtain ⟨c, rest, rfl, hc, hk⟩ := continued_succ hk
            obtain ⟨d, rest, rfl, hd, hk⟩ := continued_succ hk
            rw [continued_zero hk]
            exact encodeChar_four ⟨h1, h2⟩ (by omega) hc hd (by omega) (by omega)
        · cases hc
      · cases h
    · cases h

/-- **Bytes without a broken piece are those of the text that is shown.** -/
theorem encode_decodeLossy {bs : Bytes} (h : isValid bs = true) : encode (decodeLossy bs) = bs := by
  induction bs using pieces_induction with
  | nil => simp [encode, decodeLossy]
  | cons b bs ih =>
    rw [isValid_cons, Bool.and_eq_true] at h
    obtain ⟨c, hc⟩ := Option.isSome_iff_exists.1 h.1
    have hpiece : piece b bs = (some c, (piece b bs).2) := Prod.ext hc rfl
    have hchar := encodeChar_piece hpiece
    have ih := ih h.2
    simp only [encode, decodeLossy, pieces_cons, hc, List.map_cons, Option.getD_some,
      String.toList_ofList, List.flatMap_cons, hchar] at ih ⊢
    rw [ih, List.cons_append, List.take_append_drop]

/-! ## Bytes in front of a zero -/

theorem continued_append_zero (n code : Nat) (xs ys : Bytes) :
    continued n code (xs ++ 0 :: ys) = continued n code xs := by
  induction xs generalizing n code with
  | nil => cases n <;> simp [continued]
  | cons x xs ih =>
    cases n with
    | zero => simp [continued]
    | succ n => simp only [List.cons_append, continued, ih]

theorem continued_le (n code : Nat) (xs : Bytes) : (continued n code xs).2 ≤ xs.length := by
  induction xs generalizing n code with
  | nil => cases n <;> simp [continued]
  | cons x xs ih =>
    cases n with
    | zero => simp [continued]
    | succ n =>
      simp only [continued]
      split
      · exact Nat.succ_le_succ (ih _ _)
      · exact Nat.zero_le _

/-- A zero byte belongs to no piece in front of it. -/
theorem piece_append_zero (b : UInt8) (xs ys : Bytes) :
    piece b (xs ++ 0 :: ys) = piece b xs := by
  unfold piece
  split
  · rfl
  · cases hf : following b with
    | none => rfl
    | some f =>
      obtain ⟨n, low, high⟩ := f
      cases xs with
      | nil =>
        have hlow : low ≠ 0 := by
          rcases following_eq_some hf with h | h | h <;> omega
        simp [hlow]
      | cons x xs => simp only [List.cons_append, continued_append_zero]

theorem piece_le (b : UInt8) (xs : Bytes) : (piece b xs).2 ≤ xs.length := by
  unfold piece
  split
  · exact Nat.zero_le _
  · split
    · split
      · exact Nat.succ_le_succ (continued_le _ _ _)
      · exact Nat.zero_le _
    · exact Nat.zero_le _

theorem isValid_of_append_zero {xs ys : Bytes} (h : isValid (xs ++ 0 :: ys) = true) :
    isValid xs = true := by
  induction xs using pieces_induction with
  | nil => exact isValid_nil
  | cons b xs ih =>
    rw [List.cons_append, isValid_cons, piece_append_zero,
      List.drop_append_of_le_length (piece_le b xs), Bool.and_eq_true] at h
    rw [isValid_cons, Bool.and_eq_true]
    exact ⟨h.1, ih h.2⟩

/-- The bytes that are shown are a text if all bytes are. -/
theorem isValid_shown {bs : Bytes} (h : isValid bs = true) :
    isValid (bs.takeWhile (· != 0)) = true := by
  have hsplit := List.takeWhile_append_dropWhile (p := (· != 0)) (l := bs)
  cases hrest : bs.dropWhile (· != 0) with
  | nil =>
    rw [hrest, List.append_nil] at hsplit
    rwa [hsplit]
  | cons z zs =>
    have hz : z = 0 := by
      have hhead := List.head_dropWhile_not (· != 0) (hrest ▸ List.cons_ne_nil z zs)
      simpa [hrest] using hhead
    rw [hrest, hz] at hsplit
    rw [← hsplit] at h
    exact isValid_of_append_zero h

end Utf8

/-! ## Text fields -/

theorem takeWhile_resize {n : Nat} {bs : Bytes} (hz : ∀ b ∈ bs, b ≠ 0) (hn : bs.length ≤ n) :
    (bs.resize n).takeWhile (· != 0) = bs := by
  have hall : ∀ b ∈ bs, (b != 0) = true := fun b hb => by simpa using hz b hb
  rw [Bytes.resize, List.take_of_length_le hn, List.takeWhile_append_of_pos hall]
  cases n - bs.length <;> simp [List.replicate_succ]

/-- **A text field takes back what it shows**, whatever it held in between. -/
theorem ByteField.text_withText {f : ByteField} {data : Bytes}
    (h : ({ f with data } : ByteField).isValidText = true) :
    (f.withText ({ f with data } : ByteField).text).text = ({ f with data } : ByteField).text := by
  rw [isValidText, Bool.and_eq_true] at h
  obtain ⟨hsize, hvalid⟩ := h
  have hencode := Utf8.encode_decodeLossy (Utf8.isValid_shown hvalid)
  have hz : ∀ b ∈ data.takeWhile (· != 0), b ≠ 0 := fun b hb => by
    simpa using List.mem_takeWhile_imp hb
  have hshown : (f.withText ({ f with data } : ByteField).text).data.takeWhile (· != 0) =
      data.takeWhile (· != 0) := by
    rw [withText, text, hencode]
    obtain ⟨size, old⟩ := f
    cases size with
    | fixed n =>
      have hl : data.length = n := by simpa [isValid] using hsize
      refine takeWhile_resize hz ?_
      rw [← hl]
      exact (List.takeWhile_prefix _).length_le
    | remainder | count p | length p =>
      exact List.takeWhile_eq_self_iff.2 fun b hb => by simpa using hz b hb
  rw [text, hshown]
  rfl

end WireProtocol
