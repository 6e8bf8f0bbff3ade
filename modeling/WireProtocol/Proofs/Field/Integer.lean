import WireProtocol.Proofs.Field.Reencoding

/-!
# Integers are read as they were written

An integer that could be written is read back from its bytes, whatever follows them
(`IntField.read_write`), and from no others (`IntField.write_iff_read`). The two sides meet in the
low bits of the word: those that were sent stand for it again (`wordOfBits_low`), in a fixed count
of bytes as in groups of seven bits, where the chain of groups ends in front of the bytes that follow
(`Groups.scan_chain`).
-/

set_option autoImplicit false

namespace WireProtocol

/-! ## Words -/

theorem toNat_toUInt64 (w : Int64) : (w.toUInt64.toNat : Int) = w.toInt % (2 ^ 64 : Nat) := by
  have h := toNat_toUInt64_ofInt w.toInt
  rw [Int64.ofInt_toInt] at h
  have hn : 0 ≤ w.toInt % (2 ^ 64 : Nat) := Int.emod_nonneg _ (by decide)
  rw [h, Int.toNat_of_nonneg hn]

/-- The lowest bits of a word are its remainder. -/
theorem toNat_mod_two_pow (w : Int64) {bits : Nat} (h : bits ≤ 64) :
    ((w.toUInt64.toNat % 2 ^ bits : Nat) : Int) = w.toInt % (2 ^ bits : Nat) := by
  have hd : 2 ^ bits ∣ 2 ^ 64 := Nat.pow_dvd_pow 2 h
  rw [Int.natCast_emod, toNat_toUInt64, Int.emod_emod_of_dvd _ (Int.natCast_dvd_natCast.2 hd)]

/-- **The lowest bits of a word that fits in them** stand for it. -/
theorem wordOfBits_low {signed : Bool} {w : Int64} {bits : Nat} (h0 : 0 < bits) (h : bits ≤ 64)
    (hf : fitsBits signed w bits = true) :
    wordOfBits signed (w.toUInt64.toNat % 2 ^ bits) bits = w := by
  unfold wordOfBits
  have hlow := toNat_mod_two_pow w h
  have hlo := w.le_toInt
  have hhi := w.toInt_lt
  obtain ⟨k, rfl⟩ : ∃ k, bits = k + 1 := ⟨bits - 1, by omega⟩
  have hp : 2 ^ (k + 1) = 2 * 2 ^ k := Nat.pow_succ'
  simp only [fitsBits, Nat.pow_eq, Nat.add_sub_cancel] at hf
  cases signed with
  | false =>
    rw [if_neg Bool.false_ne_true]
    by_cases hb : 64 ≤ k + 1
    · obtain rfl : k = 63 := by omega
      rw [Nat.mod_eq_of_lt w.toUInt64.toNat_lt, ← UInt64.toInt64_ofNat', UInt64.ofNat_toNat,
        Int64.toInt64_toUInt64]
    · simp only [hb, if_false, Bool.false_eq_true, decide_eq_true_eq] at hf
      rw [Int.emod_eq_of_lt hf.1 (by omega)] at hlow
      rw [← Int64.ofInt_eq_ofNat, hlow, Int64.ofInt_toInt]
  | true =>
    have hrange : -(2 ^ k : Nat) ≤ w.toInt ∧ w.toInt < (2 ^ k : Nat) := by
      by_cases hb : 64 ≤ k + 1
      · obtain rfl : k = 63 := by omega
        exact ⟨hlo, hhi⟩
      · simpa only [hb, if_false, if_true, decide_eq_true_eq] using hf
    rw [if_pos rfl, Nat.pow_eq, hlow, Int.emod_bmod,
      Int.bmod_eq_of_le_mul_two (by omega) (by omega), Int64.ofInt_toInt]

/-- An unsigned word that fits in some bits has no other ones. -/
theorem toNat_lt_of_fitsBits {w : Int64} {bits : Nat} (hf : fitsBits false w bits = true) :
    w.toUInt64.toNat < 2 ^ bits := by
  have hlt := w.toUInt64.toNat_lt
  by_cases hb : 64 ≤ bits
  · exact Nat.lt_of_lt_of_le hlt (Nat.pow_le_pow_right (by decide) hb)
  · simp only [fitsBits, hb, if_false, Bool.false_eq_true, Nat.pow_eq, decide_eq_true_eq] at hf
    have hw := toNat_toUInt64 w
    rw [Int.emod_eq_of_lt hf.1 (Int.lt_of_lt_of_le w.toInt_lt (by decide))] at hw
    omega

/-- What fits in some bits fits in more. -/
theorem fitsBits_mono {signed : Bool} {w : Int64} {bits more : Nat} (h0 : 0 < bits)
    (h : bits ≤ more) (hf : fitsBits signed w bits = true) : fitsBits signed w more = true := by
  have hp : 2 ^ bits ≤ 2 ^ more := Nat.pow_le_pow_right (by decide) h
  have hp' : 2 ^ (bits - 1) ≤ 2 ^ (more - 1) := Nat.pow_le_pow_right (by decide) (by omega)
  unfold fitsBits at hf ⊢
  simp only [Nat.pow_eq] at hf ⊢
  by_cases hm : 64 ≤ more
  · rw [if_pos hm]
  · rw [if_neg (show ¬ 64 ≤ bits by omega)] at hf
    rw [if_neg hm]
    cases signed with
    | false =>
      simp only [Bool.false_eq_true, if_false, decide_eq_true_eq] at hf ⊢
      omega
    | true =>
      simp only [if_true, decide_eq_true_eq] at hf ⊢
      omega

/-! ## Groups of seven bits -/

namespace Groups

theorem toNatLow_ofNatLow (count n : Nat) : toNatLow (ofNatLow count n) = n % 128 ^ count := by
  induction count generalizing n with
  | zero => exact (Nat.mod_one n).symm
  | succ k ih =>
    have hg : (UInt8.ofNat (n % 128)).toNat = n % 128 := by
      rw [UInt8.toNat_ofNat']
      omega
    calc toNatLow (ofNatLow (k + 1) n)
        = n % 128 + 128 * (n / 128 % 128 ^ k) := by rw [ofNatLow, toNatLow, ih, hg]
      _ = n % (128 * 128 ^ k) := Nat.mod_mul.symm
      _ = n % 128 ^ (k + 1) := by rw [Nat.pow_succ']

theorem toNat_ofNat (order : ByteOrder) (count n : Nat) :
    toNat order (ofNat order count n) = n % 128 ^ count := by
  cases order <;> simp [toNat, ofNat, toNatLow_ofNatLow]

@[simp] theorem length_ofNatLow (count n : Nat) : (ofNatLow count n).length = count := by
  induction count generalizing n with
  | zero => rfl
  | succ k ih => simp [ofNatLow, ih]

@[simp] theorem length_ofNat (order : ByteOrder) (count n : Nat) :
    (ofNat order count n).length = count := by
  cases order <;> simp [ofNat]

theorem lt_of_mem_ofNat {order : ByteOrder} {count n : Nat} {g : UInt8}
    (h : g ∈ ofNat order count n) : g.toNat < 128 := by
  have hlow : g ∈ ofNatLow count n := by
    cases order with
    | big => exact List.mem_reverse.1 h
    | little => exact h
  clear h
  induction count generalizing n with
  | zero => cases hlow
  | succ k ih =>
    rcases List.mem_cons.1 hlow with rfl | hg
    · rw [UInt8.toNat_ofNat']
      omega
    · exact ih hg

@[simp] theorem length_chain (gs : List UInt8) : (chain gs).length = gs.length := by
  induction gs with
  | nil => rfl
  | cons g gs ih =>
    cases gs with
    | nil => rfl
    | cons g' gs => simp only [chain, List.length_cons, ih]

theorem toNat_add_128 {g : UInt8} (h : g.toNat < 128) : (g + 128).toNat = g.toNat + 128 := by
  have h128 : (128 : UInt8).toNat = 128 := rfl
  rw [UInt8.toNat_add, h128, Nat.mod_eq_of_lt (by omega)]

/-- The groups of a chain are its bytes without the high bit. -/
theorem map_mod_chain {gs : List UInt8} (h : ∀ g ∈ gs, g.toNat < 128) :
    (chain gs).map (· % 128) = gs := by
  have h128 : (128 : UInt8).toNat = 128 := rfl
  induction gs with
  | nil => rfl
  | cons g gs ih =>
    have hg := h g (.head _)
    cases gs with
    | nil =>
      refine congrArg ([·]) (UInt8.toNat_inj.1 ?_)
      rw [UInt8.toNat_mod, h128, Nat.mod_eq_of_lt hg]
    | cons g' gs =>
      have ih := ih fun x hx => h x (.tail _ hx)
      simp only [chain, List.map_cons, ih]
      refine congrArg (· :: _) (UInt8.toNat_inj.1 ?_)
      rw [UInt8.toNat_mod, toNat_add_128 hg, h128]
      omega

/-- **A chain ends with its last group**, whatever follows it. -/
theorem scan_chain {gs : List UInt8} (h : ∀ g ∈ gs, g.toNat < 128) (hne : gs ≠ []) {max : Nat}
    (hmax : gs.length ≤ max) (rest : Bytes) : scan max (chain gs ++ rest) = .ended (chain gs) rest := by
  have h128 : (128 : UInt8).toNat = 128 := rfl
  induction gs generalizing max with
  | nil => exact absurd rfl hne
  | cons g gs ih =>
    obtain ⟨max, rfl⟩ : ∃ k, max = k + 1 := ⟨max - 1, by simp at hmax; omega⟩
    have hg := h g (.head _)
    cases gs with
    | nil =>
      have hlt : g < 128 := UInt8.lt_iff_toNat_lt.2 hg
      simp only [chain, List.cons_append, List.nil_append, scan, hlt, if_true]
    | cons g' gs =>
      have hlt : ¬ g + 128 < 128 := by
        rw [UInt8.lt_iff_toNat_lt, toNat_add_128 hg, h128]
        omega
      have ih := ih (fun x hx => h x (.tail _ hx)) (List.cons_ne_nil _ _)
        (Nat.le_of_succ_le_succ hmax)
      simp only [chain, List.cons_append, scan, hlt, if_false, ih, Scan.cons]

theorem pow_128 (count : Nat) : 128 ^ count = 2 ^ (7 * count) := (Nat.pow_mul 2 7 count).symm

end Groups

namespace IntFormat

/-- A number fits in the groups that it needs. -/
theorem fitsBits_groupsNeeded (f : IntFormat) (w : Int64) :
    0 < f.groupsNeeded w ∧ fitsBits f.signed w (7 * f.groupsNeeded w) = true := by
  unfold groupsNeeded
  cases hg : ((List.range 10).map (· + 1)).find? fun n => fitsBits f.signed w (7 * n) with
  | none => exact ⟨by decide, rfl⟩
  | some n =>
    obtain ⟨k, -, rfl⟩ := List.mem_map.1 (List.mem_of_find?_eq_some hg)
    have hf := List.find?_some hg
    exact ⟨Nat.succ_pos k, hf⟩

/-- The bits sent in some groups are the lowest ones of the number. -/
theorem wireBits_mod (f : IntFormat) (w : Int64) (count : Nat) :
    f.wireBits w count % 128 ^ count % UInt64.size =
      w.toUInt64.toNat % 2 ^ min (7 * count) 64 := by
  have hsize : UInt64.size = 2 ^ 64 := rfl
  rw [Groups.pow_128, hsize]
  unfold wireBits
  by_cases hs : f.signed = true
  · -- a negative number has the bits of its remainder
    rw [if_pos hs, Nat.pow_eq]
    have hn : 0 ≤ w.toInt % (2 ^ (7 * count) : Nat) :=
      Int.emod_nonneg _ (Int.natCast_ne_zero.2 (Nat.ne_of_gt (Nat.two_pow_pos _)))
    refine Int.ofNat_inj.1 ?_
    rw [toNat_mod_two_pow w (Nat.min_le_right _ _), Int.natCast_emod, Int.natCast_emod,
      Int.toNat_of_nonneg hn, Int.emod_emod_of_dvd _ (Int.dvd_refl _)]
    rcases Nat.le_total (7 * count) 64 with hc | hc
    · rw [Nat.min_eq_left hc, Int.emod_eq_of_lt hn]
      refine Int.lt_of_lt_of_le (Int.emod_lt_of_pos _ (Int.natCast_pos.2 (Nat.two_pow_pos _))) ?_
      exact Int.ofNat_le.2 (Nat.pow_le_pow_right (by decide) hc)
    · rw [Nat.min_eq_right hc,
        Int.emod_emod_of_dvd _ (Int.natCast_dvd_natCast.2 (Nat.pow_dvd_pow 2 hc))]
  · simp only [hs, if_false, Bool.false_eq_true]
    have hlt : w.toUInt64.toNat < 2 ^ 64 := w.toUInt64.toNat_lt
    rcases Nat.le_total (7 * count) 64 with hc | hc
    · rw [Nat.min_eq_left hc, Nat.mod_eq_of_lt (b := 2 ^ 64)]
      exact Nat.lt_of_le_of_lt (Nat.mod_le _ _) hlt
    · have hp : 2 ^ 64 ≤ 2 ^ (7 * count) := Nat.pow_le_pow_right (by decide) hc
      rw [Nat.min_eq_right hc, Nat.mod_eq_of_lt (Nat.lt_of_lt_of_le hlt hp)]

/-- What encoding an integer in a fixed count of bytes gives. -/
theorem encode_fixed {f : IntFormat} {n : Nat} {bounds : 1 ≤ n ∧ n ≤ 8} {w : Int64} {b : Bytes}
    (hw : f.width = .fixed n bounds) (h : f.encode w = .ok b) :
    fitsBits f.signed w (8 * n) = true ∧ b = Bytes.ofNat f.order n w.toUInt64.toNat := by
  unfold encode at h
  simp only [hw] at h
  split at h
  · rename_i hf
    cases h
    exact ⟨hf, rfl⟩
  · cases h

/-- What encoding an integer in groups gives: a chain of enough of them. -/
theorem encode_var {f : IntFormat} {min max : Nat} {bounds : 1 ≤ min ∧ min ≤ max ∧ max ≤ 10}
    {w : Int64} {b : Bytes} (hw : f.width = .var min max bounds) (h : f.encode w = .ok b) :
    ∃ count, count = Nat.max (f.groupsNeeded w) min ∧ 0 < count ∧ count ≤ max ∧
      fitsBits f.signed w (7 * count) = true ∧
      b = Groups.chain (Groups.ofNat f.order count (f.wireBits w count)) := by
  unfold encode at h
  simp only [hw] at h
  split at h
  · rename_i hc
    cases h
    obtain ⟨h0, hf⟩ := f.fitsBits_groupsNeeded w
    have hle : f.groupsNeeded w ≤ Nat.max (f.groupsNeeded w) min := Nat.le_max_left _ _
    exact ⟨_, rfl, by omega, hc, fitsBits_mono (by omega) (by omega) hf, rfl⟩
  · cases h

/-- The number of the chain that a number is sent as. -/
theorem ofChain_chain {f : IntFormat} {w : Int64} {count : Nat} (h0 : 0 < count)
    (hf : fitsBits f.signed w (7 * count) = true) :
    f.ofChain (Groups.chain (Groups.ofNat f.order count (f.wireBits w count))) = w := by
  unfold ofChain
  dsimp only
  rw [Groups.map_mod_chain fun g hg => Groups.lt_of_mem_ofNat hg, Groups.length_chain,
    Groups.length_ofNat, Groups.toNat_ofNat, wireBits_mod]
  refine wordOfBits_low (Nat.lt_min.2 ⟨by omega, by decide⟩) (Nat.min_le_right _ _) ?_
  rcases Nat.le_total (7 * count) 64 with hc | hc
  · rw [Nat.min_eq_left hc]
    exact hf
  · rw [Nat.min_eq_right hc]
    rfl

/-- The predicted length is the count of bytes. -/
theorem length_encode {f : IntFormat} {w : Int64} {b : Bytes} (h : f.encode w = .ok b) :
    b.length = f.encodedLength w := by
  unfold encodedLength
  cases hw : f.width with
  | fixed n bounds =>
    obtain ⟨-, rfl⟩ := encode_fixed hw h
    exact Bytes.length_ofNat _ _ _
  | var min max bounds =>
    obtain ⟨count, hc, -, hmax, -, rfl⟩ := encode_var hw h
    rw [Groups.length_chain, Groups.length_ofNat]
    show count = Nat.max min (Nat.min (f.groupsNeeded w) max)
    rcases Nat.le_total (f.groupsNeeded w) min with hg | hg
    · have hle := Nat.le_trans (Nat.min_le_left (f.groupsNeeded w) max) hg
      rw [hc, show Nat.max (f.groupsNeeded w) min = min from Nat.max_eq_right hg]
      exact (Nat.max_eq_left hle).symm
    · rw [show Nat.max (f.groupsNeeded w) min = f.groupsNeeded w from Nat.max_eq_left hg] at hc
      rw [show Nat.min (f.groupsNeeded w) max = f.groupsNeeded w from
        Nat.min_eq_left (by omega), hc]
      exact (Nat.max_eq_right hg).symm

theorem minLength_le_encodedLength (f : IntFormat) (w : Int64) :
    f.width.minLength ≤ f.encodedLength w := by
  unfold encodedLength IntWidth.minLength
  cases f.width with
  | fixed n bounds => exact Nat.le_refl n
  | var min max bounds => exact Nat.le_max_left _ _

theorem encodedLength_le_maxLength (f : IntFormat) (w : Int64) :
    f.encodedLength w ≤ f.width.maxLength := by
  unfold encodedLength IntWidth.maxLength
  cases f.width with
  | fixed n bounds => exact Nat.le_refl n
  | var min max bounds => exact Nat.max_le.2 ⟨bounds.2.1, Nat.min_le_right _ _⟩

theorem minLength_pos (w : IntWidth) : 0 < w.minLength := by
  cases w with
  | fixed n bounds => exact bounds.1
  | var min max bounds => exact bounds.1

end IntFormat

/-! ## Fields -/

namespace IntField

theorem checked_done {f : IntField} (h : f.strict = true → f.isValid = true) (rest : Bytes) :
    f.checked rest = .done f rest := by
  unfold checked
  cases hs : f.strict with
  | false => rfl
  | true => rw [h hs]; rfl

theorem setWire_wire (f : IntField) (v : Int64) :
    f.setWire (f.withValue v).wire = f.withValue v := by
  unfold setWire wire withValue
  rw [Int64.add_sub_cancel]

/-- **An integer is read as it was written**, from its bytes and whatever follows them. A strict
field then checks the value. -/
theorem read_write {f : IntField} {v : Int64} {b : Bytes} (h : (f.withValue v).write = .ok b)
    (rest : Bytes) : f.read (b ++ rest) = (f.withValue v).checked rest := by
  have henc : f.format.encode (f.withValue v).wire = .ok b := h
  unfold read
  cases hw : f.format.width with
  | fixed n bounds =>
    obtain ⟨hf, rfl⟩ := IntFormat.encode_fixed hw henc
    dsimp only
    have hl := Bytes.length_ofNat f.format.order n (f.withValue v).wire.toUInt64.toNat
    have htake := withBytes_append
      (Bytes.ofNat f.format.order n (f.withValue v).wire.toUInt64.toNat) rest f fun taken rest =>
        (f.setWire (wordOfBits f.format.signed (taken.toNat f.format.order) (8 * n))).checked rest
    rw [hl] at htake
    rw [htake, Bytes.toNat_ofNat, Bytes.pow_256, wordOfBits_low (by omega) (by omega) hf,
      setWire_wire]
  | var min max bounds =>
    obtain ⟨count, -, h0, hmax, hf, rfl⟩ := IntFormat.encode_var hw henc
    dsimp only
    rw [Groups.scan_chain (fun g hg => Groups.lt_of_mem_ofNat hg)
      (List.ne_nil_of_length_pos (by rw [Groups.length_ofNat]; exact h0))
      (by rw [Groups.length_ofNat]; exact hmax) rest]
    dsimp only
    -- the value is the one that was written, so writing it again gives the same chain
    rw [IntFormat.ofChain_chain h0 hf, setWire_wire, h]
    exact if_pos rfl

theorem read_write_done {f : IntField} {v : Int64} {b : Bytes}
    (h : (f.withValue v).write = .ok b)
    (hv : f.strict = true → (f.withValue v).isValid = true) (rest : Bytes) :
    f.read (b ++ rest) = .done (f.withValue v) rest := by
  rw [read_write h]
  exact checked_done hv rest

/-- **Writing and reading are inverse**: an integer that accepts every value writes `v` as `b` if and
only if it reads `v` from `b` in front of anything, which it leaves. So a value has no other bytes
than those that it is written as, and other bytes are refused. -/
theorem write_iff_read {f : IntField} (hs : f.strict = false) (v : Int64) (b rest : Bytes) :
    (f.withValue v).write = .ok b ↔
      (f.read (b ++ rest)).error = none ∧ (f.read (b ++ rest)).rest = rest ∧
        (f.read (b ++ rest)).value.value = v := by
  constructor
  · intro hw
    have hlenient : f.strict = true → (f.withValue v).isValid = true := by
      rw [hs]
      exact nofun
    rw [read_write_done hw hlenient]
    exact ⟨rfl, rfl, rfl⟩
  · rintro ⟨he, hrest, hv⟩
    obtain ⟨w, c, hw, hsplit, hwrite⟩ := read_ok he
    -- what was read is what stands in front of the rest
    have hbc : b = c := by
      rw [hrest] at hsplit
      exact List.append_cancel_right hsplit
    have hvw : w = v := by
      rw [← hv, hw]
      rfl
    rw [hbc, ← hvw]
    exact hwrite

/-- A signed number of up to ten groups that is sent as its successor. -/
def successor : IntField := { format := ⟨.between 1 10, true, .little⟩, offset := 1 }

/-- The greatest value wraps to the least number, which takes the tenth group, and is read back. -/
theorem successor_write_iff_read :
    successor.strict = false ∧
      (successor.read (List.replicate 9 128 ++ [127] ++ [128])).error = none ∧
        (successor.read (List.replicate 9 128 ++ [127] ++ [128])).rest = [128] ∧
          (successor.read (List.replicate 9 128 ++ [127] ++ [128])).value.value = Int64.maxValue :=
  ⟨rfl, (write_iff_read rfl Int64.maxValue (List.replicate 9 128 ++ [127]) [128]).1 rfl⟩

theorem length_write {f : IntField} {b : Bytes} (h : f.write = .ok b) : b.length = f.length :=
  IntFormat.length_encode h

theorem minLength_le_length (f : IntField) : f.minLength ≤ f.length :=
  f.format.minLength_le_encodedLength f.wire

theorem length_le_maxLength (f : IntField) : f.length ≤ f.maxLength :=
  f.format.encodedLength_le_maxLength f.wire

theorem minLength_pos (f : IntField) : 0 < f.minLength := IntFormat.minLength_pos f.format.width

/-- A count below the bound of a word is read as it is. -/
theorem toInt_toNat_ofNat {n : Nat} (h : n < 2 ^ 63) :
    ¬ Int64.ofNat n < 0 ∧ (Int64.ofNat n).toInt.toNat = n := by
  have hi : (Int64.ofNat n).toInt = n := Int64.toInt_ofNat_of_lt h
  refine ⟨?_, by rw [hi, Int.toNat_natCast]⟩
  rw [Int64.lt_iff_toInt_lt, hi, Int64.toInt_zero]
  omega

end IntField

end WireProtocol
