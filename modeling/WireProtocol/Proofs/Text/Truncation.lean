import WireProtocol.Proofs.Text.Utf8

/-!
# Texts that are cut to a size

The bytes of a text are cut without regard to its characters. Those that fit into the size come out
whole (`Utf8.fitting`), and what is left of a character that is cut is one broken piece
(`Utf8.pieces_take`), since the bytes of a character are a lead byte and as many continuation bytes
as it announces (`Utf8.sequence_encodeChar`). So a text field of a fixed size keeps a text exactly
if the size falls between two characters or behind the end (`ByteField.withText_fixed`).
-/

set_option autoImplicit false

namespace WireProtocol

namespace Utf8

/-! ## The bytes of a character -/

/-- The bytes of one character, as the lead byte announces them. -/
inductive Sequence : Bytes → Prop
  | one {a : UInt8} : a.toNat < 0x80 → Sequence [a]
  | several {a b : UInt8} {tail : Bytes} {low high : Nat} :
      0x80 ≤ a.toNat → following a = some (tail.length + 1, low, high) →
      low ≤ b.toNat ∧ b.toNat ≤ high → (∀ t ∈ tail, t.toNat / 64 = 2) → Sequence (a :: b :: tail)

theorem following_two {a : UInt8} (ha : 0xC2 ≤ a.toNat ∧ a.toNat ≤ 0xDF) :
    following a = some (1, 0x80, 0xBF) := by
  unfold following
  dsimp only
  rw [if_pos ha]

theorem following_three {a b : UInt8} (ha : 0xE0 ≤ a.toNat ∧ a.toNat ≤ 0xEF)
    (hb : b.toNat / 64 = 2) (hlow : a.toNat = 0xE0 → 0xA0 ≤ b.toNat)
    (hhigh : a.toNat = 0xED → b.toNat ≤ 0x9F) :
    ∃ low high, following a = some (2, low, high) ∧ low ≤ b.toNat ∧ b.toNat ≤ high := by
  unfold following
  dsimp only
  rw [if_neg (by omega)]
  split
  · exact ⟨_, _, rfl, by omega, by omega⟩
  split
  · exact ⟨_, _, rfl, by omega, by omega⟩
  · rw [if_pos ⟨by omega, by omega⟩]
    exact ⟨_, _, rfl, by omega, by omega⟩

theorem following_four {a b : UInt8} (ha : 0xF0 ≤ a.toNat ∧ a.toNat ≤ 0xF4)
    (hb : b.toNat / 64 = 2) (hlow : a.toNat = 0xF0 → 0x90 ≤ b.toNat)
    (hhigh : a.toNat = 0xF4 → b.toNat ≤ 0x8F) :
    ∃ low high, following a = some (3, low, high) ∧ low ≤ b.toNat ∧ b.toNat ≤ high := by
  unfold following
  dsimp only
  rw [if_neg (by omega), if_neg (by omega), if_neg (by omega), if_neg (by omega)]
  split
  · exact ⟨_, _, rfl, by omega, by omega⟩
  split
  · exact ⟨_, _, rfl, by omega, by omega⟩
  · rw [if_pos (by omega)]
    exact ⟨_, _, rfl, by omega, by omega⟩

theorem sequence_encodeChar (c : Char) : Sequence (String.utf8EncodeChar c) := by
  have hvalid : c.val.toNat.isValidChar := c.valid
  unfold Nat.isValidChar at hvalid
  unfold String.utf8EncodeChar
  generalize c.val.toNat = v at hvalid
  dsimp only
  split
  · refine .one ?_
    rw [UInt8.toNat_ofNat']
    omega
  have hsize : UInt8.size = 256 := rfl
  have hlast : (UInt8.ofNat (v % 64 + 128)).toNat = v % 64 + 128 :=
    UInt8.toNat_ofNat_of_lt' (by omega)
  have hmiddle : (UInt8.ofNat (v / 64 % 64 + 128)).toNat = v / 64 % 64 + 128 :=
    UInt8.toNat_ofNat_of_lt' (by omega)
  split
  · have hlead : (UInt8.ofNat (v / 64 % 32 + 192)).toNat = v / 64 % 32 + 192 :=
      UInt8.toNat_ofNat_of_lt' (by omega)
    exact .several (by omega) (following_two (by omega)) (by omega) (by simp)
  split
  · have hlead : (UInt8.ofNat (v / 4096 % 16 + 224)).toNat = v / 4096 % 16 + 224 :=
      UInt8.toNat_ofNat_of_lt' (by omega)
    obtain ⟨low, high, hf, hb⟩ := following_three (a := UInt8.ofNat (v / 4096 % 16 + 224))
      (b := UInt8.ofNat (v / 64 % 64 + 128)) (by omega) (by omega) (by omega) (by omega)
    refine .several (by omega) hf hb ?_
    simp only [List.mem_singleton, forall_eq]
    omega
  · have hlead : (UInt8.ofNat (v / 262144 % 8 + 240)).toNat = v / 262144 % 8 + 240 :=
      UInt8.toNat_ofNat_of_lt' (by omega)
    have hsecond : (UInt8.ofNat (v / 4096 % 64 + 128)).toNat = v / 4096 % 64 + 128 :=
      UInt8.toNat_ofNat_of_lt' (by omega)
    obtain ⟨low, high, hf, hb⟩ := following_four (a := UInt8.ofNat (v / 262144 % 8 + 240))
      (b := UInt8.ofNat (v / 4096 % 64 + 128)) (by omega) (by omega) (by omega) (by omega)
    refine .several (by omega) hf hb ?_
    simp only [List.mem_cons, List.not_mem_nil, or_false, forall_eq_or_imp, forall_eq]
    omega

/-! ## Pieces of a sequence -/

/-- Continuation bytes are taken up to the last, if no more are wanted or none follow. -/
theorem continued_tail {tail rest : Bytes} (ht : ∀ t ∈ tail, t.toNat / 64 = 2) {n : Nat}
    (hn : tail.length ≤ n) (hend : tail.length = n ∨ rest = []) (code : Nat) :
    (continued n code (tail ++ rest)).2 = tail.length := by
  induction tail generalizing n code with
  | nil =>
    rcases hend with rfl | rfl
    · cases rest <;> rfl
    · cases n <;> rfl
  | cons t tail ih =>
    rw [List.length_cons] at hn hend
    obtain ⟨n, rfl⟩ := Nat.exists_eq_add_one_of_ne_zero (by omega : n ≠ 0)
    rw [List.cons_append, continued, if_pos (ht t (.head _))]
    simp only [List.length_cons,
      ih (fun t h => ht t (.tail _ h)) (by omega) (hend.imp_left Nat.succ.inj)]

/-- A lead byte and the byte after it are a whole character if all continuation bytes are there. -/
theorem piece_lead {a b : UInt8} {n low high : Nat} (ha : 0x80 ≤ a.toNat)
    (hf : following a = some (n + 1, low, high)) (hb : low ≤ b.toNat ∧ b.toNat ≤ high)
    (bs : Bytes) : ∃ code c, piece a (b :: bs) =
      (if (continued n code bs).2 = n then some c else none, (continued n code bs).2 + 1) := by
  unfold piece
  rw [if_neg (by omega), hf]
  dsimp only
  rw [if_pos hb]
  exact ⟨_, _, rfl⟩

theorem Sequence.piece_append {a : UInt8} {bs : Bytes} (h : Sequence (a :: bs)) (rest : Bytes) :
    ∃ c, piece a (bs ++ rest) = (some c, bs.length) := by
  cases h with
  | one ha =>
    unfold piece
    rw [if_pos ha]
    exact ⟨_, rfl⟩
  | several ha hf hb ht =>
    obtain ⟨code, c, hpiece⟩ := piece_lead ha hf hb (_ ++ rest)
    rw [continued_tail ht (Nat.le_refl _) (.inl rfl), if_pos rfl] at hpiece
    exact ⟨c, hpiece⟩

/-- A sequence that ends too early is one broken piece. -/
theorem Sequence.piece_take {a : UInt8} {bs : Bytes} (h : Sequence (a :: bs)) {k : Nat}
    (hk : k < bs.length) : piece a (bs.take k) = (none, k) := by
  cases h with
  | one => exact absurd hk (Nat.not_lt_zero k)
  | several ha hf hb ht =>
    rename_i b tail low high
    cases k with
    | zero =>
      unfold piece
      rw [if_neg (by omega)]
      split
      · rename_i h
        cases h
      · rfl
    | succ k =>
      rw [List.length_cons] at hk
      obtain ⟨code, c, hpiece⟩ := piece_lead ha hf hb (tail.take k)
      have hlength : (tail.take k).length = k := List.length_take_of_le (by omega)
      have htaken : (continued tail.length code (tail.take k)).2 = k := by
        have hall := @continued_tail (tail.take k) [] (fun t h => ht t (List.mem_of_mem_take h))
          tail.length (by omega) (.inr rfl) code
        rwa [List.append_nil, hlength] at hall
      rw [List.take_succ_cons, hpiece, htaken, if_neg (by omega)]

theorem encodeChar_injective {c d : Char}
    (h : String.utf8EncodeChar c = String.utf8EncodeChar d) : c = d := by
  have hc := ByteArray.utf8DecodeChar?_utf8EncodeChar_append (b := .empty) (c := c)
  rw [h, ByteArray.utf8DecodeChar?_utf8EncodeChar_append] at hc
  exact (Option.some.inj hc).symm

/-- The first piece of a text is its first character. -/
theorem piece_encodeChar {c : Char} {a : UInt8} {bs : Bytes}
    (h : String.utf8EncodeChar c = a :: bs) (rest : Bytes) :
    piece a (bs ++ rest) = (some c, bs.length) := by
  obtain ⟨d, hd⟩ := (h ▸ sequence_encodeChar c).piece_append rest
  have hbytes := encodeChar_piece hd
  rw [List.take_left, ← h] at hbytes
  rw [hd, encodeChar_injective hbytes]

theorem pieces_encodeChar_append (c : Char) (rest : Bytes) :
    pieces (String.utf8EncodeChar c ++ rest) = some c :: pieces rest := by
  obtain ⟨a, bs, h⟩ := List.exists_cons_of_ne_nil (String.utf8EncodeChar_ne_nil (c := c))
  rw [h, List.cons_append, pieces_cons, piece_encodeChar h, List.drop_left]

theorem pieces_take_encodeChar {c : Char} {k : Nat} (hpos : 0 < k) (hk : k < c.utf8Size) :
    pieces ((String.utf8EncodeChar c).take k) = [none] := by
  obtain ⟨a, bs, h⟩ := List.exists_cons_of_ne_nil (String.utf8EncodeChar_ne_nil (c := c))
  obtain ⟨k, rfl⟩ := Nat.exists_eq_add_one_of_ne_zero (Nat.ne_of_gt hpos)
  have hlength := String.length_utf8EncodeChar c
  rw [h, List.length_cons] at hlength
  have hpiece := (h ▸ sequence_encodeChar c).piece_take (k := k) (by omega)
  rw [h, List.take_succ_cons, pieces_cons, hpiece,
    List.drop_of_length_le (List.length_take_le k bs), pieces_nil]

/-! ## Texts that are cut -/

/-- The characters at the front of a text whose bytes go into `n`. -/
def fitting : Nat → List Char → List Char
  | _, [] => []
  | n, c :: cs => if c.utf8Size ≤ n then c :: fitting (n - c.utf8Size) cs else []

theorem length_encode (s : String) : (encode s).length = s.utf8ByteSize := by
  rw [encode, ← List.size_toByteArray]
  show (s.toList.utf8Encode).size = _
  rw [String.utf8Encode_toList]
  rfl

@[simp] theorem fitting_zero (cs : List Char) : fitting 0 cs = [] := by
  cases cs with
  | nil => rfl
  | cons c cs => rw [fitting, if_neg (Nat.not_le_of_gt c.utf8Size_pos)]

theorem fitting_append (cs ds : List Char) (n : Nat) :
    fitting ((cs.flatMap String.utf8EncodeChar).length + n) (cs ++ ds) = cs ++ fitting n ds := by
  induction cs with
  | nil => simp
  | cons c cs ih =>
    rw [List.flatMap_cons, List.length_append, String.length_utf8EncodeChar, List.cons_append,
      fitting, if_pos (by omega), List.cons_append, ← ih]
    congr 2
    omega

theorem fitting_prefix (n : Nat) (cs : List Char) : fitting n cs <+: cs := by
  induction cs generalizing n with
  | nil => exact List.prefix_refl _
  | cons c cs ih =>
    rw [fitting]
    split
    · exact List.prefix_cons_inj c |>.2 (ih _)
    · exact List.nil_prefix

/-- **The pieces of a text that is cut** are its characters that fit, and a broken one if the bytes
of these do not fill the size. -/
theorem pieces_take (n : Nat) (cs : List Char) :
    pieces ((cs.flatMap String.utf8EncodeChar).take n) = (fitting n cs).map some ++
      if ((fitting n cs).flatMap String.utf8EncodeChar).length =
        min n (cs.flatMap String.utf8EncodeChar).length then [] else [none] := by
  induction cs generalizing n with
  | nil => simp [fitting]
  | cons c cs ih =>
    have hlength := String.length_utf8EncodeChar c
    have hsize := c.utf8Size_pos
    rw [fitting]
    by_cases hfit : c.utf8Size ≤ n
    · rw [if_pos hfit, List.flatMap_cons, List.take_append,
        List.take_of_length_le (by omega), pieces_encodeChar_append, ih, hlength]
      simp only [List.map_cons, List.cons_append, List.flatMap_cons, List.length_append, hlength]
      congr 3
      simp only [eq_iff_iff]
      omega
    · rw [if_neg hfit, List.flatMap_cons, List.take_append_of_le_length (by omega)]
      cases n with
      | zero => simp
      | succ n =>
        rw [pieces_take_encodeChar (Nat.succ_pos n) (by omega), List.length_append, hlength,
          if_neg (by simp; omega)]
        rfl

/-- The characters that fit fill the size, or are all there are, if the size is a place between two
characters or behind the text. -/
theorem length_fitting_iff (n : Nat) (s : String) :
    ((fitting n s.toList).flatMap String.utf8EncodeChar).length = min n (encode s).length ↔
      (encode s).length ≤ n ∨ String.Pos.Raw.IsValid s ⟨n⟩ := by
  constructor
  · intro h
    by_cases hn : (encode s).length ≤ n
    · exact .inl hn
    refine .inr (String.Pos.Raw.isValid_iff_exists_append.2 ?_)
    obtain ⟨rest, hrest⟩ := fitting_prefix n s.toList
    refine ⟨String.ofList (fitting n s.toList), String.ofList rest, ?_, ?_⟩
    · rw [← String.ofList_append, hrest, String.ofList_toList]
    · refine String.Pos.Raw.ext ?_
      show n = (String.ofList _).utf8ByteSize
      rw [← length_encode, encode, String.toList_ofList, h]
      omega
  · rintro (hn | hvalid)
    · obtain ⟨k, hk⟩ := Nat.exists_eq_add_of_le hn
      have hall := fitting_append s.toList [] k
      rw [List.append_nil, fitting, List.append_nil] at hall
      rw [hk, encode, hall]
      omega
    · obtain ⟨front, rest, rfl, hn⟩ := String.Pos.Raw.isValid_iff_exists_append.1 hvalid
      have hn : n = (encode front).length := by
        rw [length_encode]
        exact congrArg String.Pos.Raw.byteIdx hn
      have hfront := fitting_append front.toList rest.toList 0
      rw [fitting_zero, List.append_nil, Nat.add_zero] at hfront
      rw [String.toList_append, hn, encode, hfront, encode, String.toList_append,
        List.flatMap_append, List.length_append]
      omega

/-- Bytes that are cut off a text are one exactly if no character is cut. -/
theorem isValid_take_iff {n : Nat} {s : String} :
    isValid ((encode s).take n) = true ↔
      s.utf8ByteSize ≤ n ∨ String.Pos.Raw.IsValid s ⟨n⟩ := by
  have hshown (cs : List Char) : (cs.map some).all Option.isSome = true := by simp
  rw [← length_encode, ← length_fitting_iff, isValid, encode, pieces_take, List.all_append,
    hshown, Bool.true_and]
  split
  · exact ⟨fun _ => ‹_›, fun _ => rfl⟩
  · exact ⟨fun h => absurd h (by decide), fun h => absurd h ‹_›⟩

theorem toList_decodeLossy_take (n : Nat) (s : String) :
    (decodeLossy ((encode s).take n)).toList =
      fitting n s.toList ++ if isValid ((encode s).take n) then [] else ['\uFFFD'] := by
  have hshown : (fun c : Option Char => c.getD '\uFFFD') ∘ some = id := rfl
  rw [decodeLossy, String.toList_ofList, isValid, encode, pieces_take, List.map_append,
    List.all_append, List.map_map, hshown, List.map_id]
  split <;> simp

/-! ## Zero bytes -/

/-- Zero bytes behind others are characters of their own. -/
theorem pieces_append_zeros (bs : Bytes) (k : Nat) :
    pieces (bs ++ List.replicate k 0) = pieces bs ++ List.replicate k (some '\x00') := by
  induction bs using pieces_induction with
  | nil =>
    induction k with
    | zero => simp
    | succ k ih =>
      rw [List.nil_append, pieces_nil, List.nil_append] at ih ⊢
      rw [List.replicate_succ, pieces_cons, List.replicate_succ]
      exact congrArg _ ih
  | cons b bs ih =>
    cases k with
    | zero => simp
    | succ k =>
      rw [List.replicate_succ] at ih ⊢
      rw [List.cons_append, pieces_cons, piece_append_zero,
        List.drop_append_of_le_length (piece_le b bs), ih, pieces_cons]
      rfl

theorem isValid_resize (n : Nat) (bs : Bytes) : isValid (bs.resize n) = isValid (bs.take n) := by
  have hzeros (k : Nat) : (List.replicate k (some '\x00')).all Option.isSome = true := by simp
  rw [Bytes.resize, isValid, pieces_append_zeros, List.all_append, hzeros, Bool.and_true, isValid]

theorem ne_zero_of_mem_encodeChar {c : Char} (hc : c ≠ '\x00') {b : UInt8}
    (hb : b ∈ String.utf8EncodeChar c) : b ≠ 0 := by
  rintro rfl
  have h := sequence_encodeChar c
  generalize hbytes : String.utf8EncodeChar c = bytes at h hb
  cases h with
  | one ha =>
    obtain rfl := List.mem_singleton.1 hb
    exact hc (encodeChar_injective hbytes)
  | several ha hf hrange ht =>
    rcases List.mem_cons.1 hb with rfl | hb
    · exact absurd ha (by decide)
    rcases List.mem_cons.1 hb with rfl | hb
    · have hzero : (0 : UInt8).toNat = 0 := rfl
      rcases following_eq_some hf with h | h | h <;> omega
    · exact absurd (ht 0 hb) (by decide)

end Utf8

/-! ## Text fields of a fixed size -/

section
variable {f : ByteField} {n : Nat} {s : String}

/-- A field of a fixed size takes as many bytes of a text, and zeros behind a shorter one. -/
theorem ByteField.withText_of_fixed (hsize : f.size = .fixed n) :
    f.withText s = ⟨.fixed n, Bytes.resize n (Utf8.encode s)⟩ := by
  obtain ⟨size, data⟩ := f
  obtain rfl : size = .fixed n := hsize
  rfl

/-- What a field of a fixed size shows of a text is what its bytes show that fit. -/
theorem ByteField.text_withText_fixed (hsize : f.size = .fixed n) (hs : '\x00' ∉ s.toList) :
    (f.withText s).text = Utf8.decodeLossy ((Utf8.encode s).take n) := by
  have hz : ∀ b ∈ (Utf8.encode s).take n, b ≠ 0 := by
    intro b hb
    obtain ⟨c, hc, hb⟩ := List.mem_flatMap.1 (List.mem_of_mem_take hb)
    exact Utf8.ne_zero_of_mem_encodeChar (fun h => hs (h ▸ hc)) hb
  have hresize : Bytes.resize n (Utf8.encode s) = Bytes.resize n ((Utf8.encode s).take n) := by
    rw [Bytes.resize, Bytes.resize, List.take_take, Nat.min_self, List.length_take]
    congr 2
    omega
  rw [withText_of_fixed hsize, text, hresize, takeWhile_resize hz (List.length_take_le _ _)]

/-- The bytes of a field of a fixed size are a text if those that fit are. -/
theorem ByteField.isValidText_withText_fixed (hsize : f.size = .fixed n) :
    (f.withText s).isValidText = Utf8.isValid ((Utf8.encode s).take n) := by
  rw [withText_of_fixed hsize, ← Utf8.isValid_resize]
  show ((Bytes.resize n (Utf8.encode s)).length == n && _) = _
  rw [Bytes.length_resize, beq_self_eq_true, Bool.true_and]

/-- **A text that is cut to a fixed size is a text, and a beginning of the whole, exactly if the
size falls between two of its characters or behind its end.** What is left of a character that is
cut is kept: it is shown as one U+FFFD behind the characters that fit, and the field is not
valid. -/
theorem ByteField.withText_fixed (hsize : f.size = .fixed n) (hs : '\x00' ∉ s.toList) :
    ((f.withText s).isValidText = true ∧ (f.withText s).text.toList <+: s.toList ↔
        s.utf8ByteSize ≤ n ∨ String.Pos.Raw.IsValid s ⟨n⟩) ∧
      ((f.withText s).isValidText = true ↔
        s.utf8ByteSize ≤ n ∨ String.Pos.Raw.IsValid s ⟨n⟩) ∧
      (f.withText s).text.toList =
        Utf8.fitting n s.toList ++ if (f.withText s).isValidText then [] else ['\uFFFD'] := by
  have hvalid : (f.withText s).isValidText = true ↔
      s.utf8ByteSize ≤ n ∨ String.Pos.Raw.IsValid s ⟨n⟩ := by
    rw [isValidText_withText_fixed hsize]
    exact Utf8.isValid_take_iff
  have htext : (f.withText s).text.toList =
      Utf8.fitting n s.toList ++ if (f.withText s).isValidText then [] else ['\uFFFD'] := by
    rw [text_withText_fixed hsize hs, isValidText_withText_fixed hsize]
    exact Utf8.toList_decodeLossy_take n s
  refine ⟨⟨fun h => hvalid.1 h.1, fun h => ⟨hvalid.2 h, ?_⟩⟩, hvalid, htext⟩
  rw [htext, if_pos (hvalid.2 h), List.append_nil]
  exact Utf8.fitting_prefix n s.toList

end

/-- The second letter is cut in a field of two bytes and kept in one of three. -/
theorem umlautWord_withText :
    let word := "aü"
    let cut := (⟨.fixed 2, []⟩ : ByteField).withText word
    let kept := (⟨.fixed 3, []⟩ : ByteField).withText word
    '\x00' ∉ word.toList ∧ cut.isValidText = false ∧ cut.text.toList = ['a', '\uFFFD'] ∧
      kept.isValidText = true ∧ kept.text.toList <+: word.toList := by
  intro word cut kept
  have hs : '\x00' ∉ word.toList := by decide
  have hcut := @ByteField.withText_fixed ⟨.fixed 2, []⟩ 2 word rfl hs
  have hkept := (@ByteField.withText_fixed ⟨.fixed 3, []⟩ 3 word rfl hs).1.2 (by decide)
  have hinvalid : cut.isValidText = false :=
    Bool.eq_false_iff.2 fun h => absurd (hcut.2.1.1 h) (by decide)
  refine ⟨hs, hinvalid, hcut.2.2.trans ?_, hkept⟩
  show _ ++ (if cut.isValidText then _ else _) = _
  rw [hinvalid]
  decide

/-- A letter of two bytes in a field of one byte is no text any more. -/
theorem accentedLetter_cut :
    let f := (⟨.fixed 1, [0]⟩ : ByteField).withText "é"
    '\x00' ∉ "é".toList ∧ f.isValidText = false ∧ f.text = "\uFFFD" ∧
      ¬ f.text.toList <+: "é".toList := by
  decide

end WireProtocol
