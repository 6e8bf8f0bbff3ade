import Mathlib.Data.List.TakeWhile
import Mathlib.Data.Nat.Digits.Defs
import WireProtocol.Proofs.Description.Recognition

/-!
# The integers that are read

The integers of the description language are digits with a minus sign in front of them or not, in
decimal or, behind `0x`, in hexadecimal (`IntegerText`); these are the numbers of the grammar that
have no point (`Recognizer.number_whole_iff`). What `readInt` accepts is wider: a plus sign may
stand directly in front of the digits (`integer?_eq_some_iff`), and the number is held against
`2 ^ 64` before it gets its sign (`readInt_ok_iff`), so that one below `-2 ^ 63` wraps to a positive
word. All other texts are read if and only if they are integers from `-2 ^ 63` to below `2 ^ 64`
(`readInt_integers`).
-/

set_option autoImplicit false

namespace WireProtocol

/-! ## Integers as they are written -/

/-- Digits in a base, in either case, and the number that they denote. -/
def Numerals (base : Nat) (cs : List Char) (n : Nat) : Prop :=
  ∃ ds : List Nat, ds ≠ [] ∧ (∀ d ∈ ds, d < base) ∧ cs.map Char.toLower = ds.map Nat.digitChar ∧
    Nat.ofDigits base ds.reverse = n

/-- A number without its sign. In front of the digits stands `plus`. -/
inductive MagnitudeText (plus : List Char) : List Char → Nat → Prop
  | decimal {cs : List Char} {n : Nat} : Numerals 10 cs n → MagnitudeText plus (plus ++ cs) n
  | hexadecimal {cs : List Char} {n : Nat} :
      Numerals 16 cs n → MagnitudeText plus ('0' :: 'x' :: (plus ++ cs)) n

/-- An integer. In front of its digits stands `plus`, which is nothing in the description
language. -/
inductive IntegerText (plus : List Char) : List Char → Int → Prop
  | unsigned {cs : List Char} {n : Nat} : MagnitudeText plus cs n → IntegerText plus cs n
  | negative {cs : List Char} {n : Nat} :
      MagnitudeText plus cs n → IntegerText plus ('-' :: cs) (-n)

/-! ## Digits -/

theorem toNat_toLower (c : Char) :
    c.toLower.toNat = if 65 ≤ c.toNat ∧ c.toNat ≤ 90 then c.toNat + 32 else c.toNat := by
  have hupper : c.val ≥ 'A'.val ∧ c.val ≤ 'Z'.val ↔ 65 ≤ c.toNat ∧ c.toNat ≤ 90 := Iff.rfl
  unfold Char.toLower
  split
  · rename_i h
    rw [if_pos (hupper.1 h)]
    have hbounds := hupper.1 h
    have hshift : ('a'.val - 'A'.val).toNat = 32 := rfl
    show (c.val + ('a'.val - 'A'.val)).toNat = c.val.toNat + 32
    rw [UInt32.toNat_add, hshift, Nat.mod_eq_of_lt]
    exact Nat.lt_of_le_of_lt (Nat.add_le_add_right hbounds.2 32) (by decide)
  · rename_i h
    rw [if_neg (mt hupper.2 h)]

theorem toNat_digitChar :
    ∀ d < 16, (Nat.digitChar d).toNat = if d < 10 then 48 + d else 87 + d := by
  decide

namespace Text

section
variable {base : Nat} (hbase : base ≤ 16)
include hbase

theorem digit?_eq_some_iff {c : Char} {d : Nat} :
    digit? base c = some d ↔ d < base ∧ c.toLower = Nat.digitChar d := by
  have hle (a b : Char) : a ≤ b ↔ a.toNat ≤ b.toNat := Iff.rfl
  rw [digit?, Option.filter_eq_some_iff, decide_eq_true_eq, and_comm]
  refine and_congr_right fun hd => ?_
  rw [← Char.toNat_inj, toNat_toLower, toNat_digitChar d (by omega)]
  simp only [hle, Char.reduceToNat]
  repeat' split
  all_goals
    simp only [Option.some.injEq, reduceCtorEq, false_iff]
    omega

theorem digitsOnto?_eq_some_iff {cs : List Char} {n m : Nat} :
    digitsOnto? base n cs = some m ↔
      ∃ ds : List Nat, (∀ d ∈ ds, d < base) ∧ cs.map Char.toLower = ds.map Nat.digitChar ∧
        n * base ^ ds.length + Nat.ofDigits base ds.reverse = m := by
  induction cs generalizing n with
  | nil =>
    constructor
    · rintro ⟨⟩
      exact ⟨[], by simp, rfl, by simp⟩
    · rintro ⟨ds, -, hmap, hm⟩
      rw [List.map_nil, eq_comm, List.map_eq_nil_iff] at hmap
      subst hmap
      simpa [digitsOnto?] using hm
  | cons c cs ih =>
    rw [digitsOnto?, Option.bind_eq_some_iff]
    simp only [digit?_eq_some_iff hbase, ih]
    constructor
    · rintro ⟨d, ⟨hd, hc⟩, ds, hds, hmap, hm⟩
      refine ⟨d :: ds, List.forall_mem_cons.2 ⟨hd, hds⟩, by simp [hc, hmap], ?_⟩
      rw [← hm, Nat.ofDigits_reverse_cons, List.length_cons, Nat.pow_succ]
      ring
    · rintro ⟨ds, hds, hmap, hm⟩
      obtain ⟨d, ds, rfl⟩ : ∃ d ds', ds = d :: ds' := by
        cases ds with
        | nil => cases hmap
        | cons d ds => exact ⟨d, ds, rfl⟩
      obtain ⟨hd, hds⟩ := List.forall_mem_cons.1 hds
      obtain ⟨hc, hmap⟩ := List.cons.inj hmap
      refine ⟨d, ⟨hd, hc⟩, ds, hds, hmap, ?_⟩
      rw [← hm, Nat.ofDigits_reverse_cons, List.length_cons, Nat.pow_succ]
      ring

theorem digits?_eq_some_iff {cs : List Char} {n : Nat} :
    digits? base cs = some n ↔ Numerals base cs n := by
  have honto : digitsOnto? base 0 cs = some n ↔ _ := digitsOnto?_eq_some_iff hbase
  simp only [Nat.zero_mul, Nat.zero_add] at honto
  cases cs with
  | nil =>
    refine iff_of_false nofun ?_
    rintro ⟨ds, hne, -, hmap, -⟩
    exact hne (List.map_eq_nil_iff.1 hmap.symm)
  | cons c cs =>
    rw [digits?, honto, Numerals]
    · refine exists_congr fun ds => (and_iff_right_of_imp ?_).symm
      rintro ⟨-, hmap, -⟩ rfl
      cases hmap
    · nofun

end

/-- A character that goes on with a number. -/
theorem isSome_digitsOnto? {base n : Nat} {cs : List Char} :
    (digitsOnto? base n cs).isSome ↔ ∀ c ∈ cs, (digit? base c).isSome := by
  induction cs generalizing n with
  | nil => simp [digitsOnto?]
  | cons c cs ih =>
    rw [digitsOnto?, List.forall_mem_cons]
    cases digit? base c with
    | none => simp
    | some d => simpa using ih

end Text

/-! ## Numerals -/

section
variable {base : Nat} (hbase : base ≤ 16) {cs : List Char} {n : Nat}
include hbase

theorem exists_numerals_iff :
    (∃ n, Numerals base cs n) ↔ cs ≠ [] ∧ ∀ c ∈ cs, (Text.digit? base c).isSome := by
  simp only [← Text.digits?_eq_some_iff hbase, ← Option.isSome_iff_exists]
  cases cs with
  | nil => simp [Text.digits?]
  | cons c cs =>
    rw [Text.digits?, Text.isSome_digitsOnto?]
    · simp
    · nofun

theorem Numerals.isSome_digit? (h : Numerals base cs n) :
    ∀ c ∈ cs, (Text.digit? base c).isSome :=
  ((exists_numerals_iff hbase).1 ⟨n, h⟩).2

/-- One plus sign may stand in front of the digits. -/
theorem numeral?_eq_some_iff :
    Text.numeral? base cs = some n ↔
      Numerals base cs n ∨ ∃ ds, cs = '+' :: ds ∧ Numerals base ds n := by
  unfold Text.numeral?
  split
  · rename_i ds
    rw [Text.digits?_eq_some_iff hbase]
    refine ⟨fun h => .inr ⟨ds, rfl, h⟩, ?_⟩
    rintro (h | ⟨_, ⟨⟩, h⟩)
    · cases h.isSome_digit? hbase '+' (.head _)
    · exact h
  · rename_i hplus
    rw [Text.digits?_eq_some_iff hbase]
    exact (or_iff_left fun ⟨ds, heq, _⟩ => hplus ds heq).symm

end

/-! ## Integers -/

theorem magnitudeText_iff {plus cs : List Char} {n : Nat} :
    MagnitudeText plus cs n ↔
      (∃ ds, cs = plus ++ ds ∧ Numerals 10 ds n) ∨
        ∃ ds, cs = '0' :: 'x' :: (plus ++ ds) ∧ Numerals 16 ds n := by
  constructor
  · rintro (h | h)
    · exact .inl ⟨_, rfl, h⟩
    · exact .inr ⟨_, rfl, h⟩
  · rintro (⟨ds, rfl, h⟩ | ⟨ds, rfl, h⟩)
    · exact .decimal h
    · exact .hexadecimal h

/-- The number that a text without a minus sign stands for, with a plus sign in front of its digits
or not. -/
def magnitude? : List Char → Option Nat
  | '0' :: 'x' :: cs => Text.numeral? 16 cs
  | cs => Text.numeral? 10 cs

theorem readMagnitude?_eq (cs : List Char) :
    readMagnitude? cs = (magnitude? cs).filter (· < UInt64.size) := by
  fun_cases magnitude? cs with
  | case1 cs => rfl
  | case2 cs hhex => rw [readMagnitude?.eq_2 cs hhex, Text.numeralBelow?]

theorem magnitude?_eq_some_iff {cs : List Char} {n : Nat} :
    magnitude? cs = some n ↔ MagnitudeText [] cs n ∨ MagnitudeText ['+'] cs n := by
  simp only [magnitudeText_iff, List.nil_append, List.singleton_append]
  fun_cases magnitude? cs with
  | case1 cs =>
    have hmark : ¬ Numerals 10 ('0' :: 'x' :: cs) n := by
      intro h
      cases h.isSome_digit? (by decide) 'x' (.tail _ (.head _))
    rw [numeral?_eq_some_iff (by decide)]
    simp [hmark]
  | case2 cs hhex =>
    have hplain : ¬ ∃ ds, cs = '0' :: 'x' :: ds ∧ Numerals 16 ds n :=
      fun ⟨ds, heq, _⟩ => hhex ds heq
    have hplus : ¬ ∃ ds, cs = '0' :: 'x' :: '+' :: ds ∧ Numerals 16 ds n :=
      fun ⟨ds, heq, _⟩ => hhex ('+' :: ds) heq
    rw [numeral?_eq_some_iff (by decide), or_iff_left hplain, or_iff_left hplus]
    simp only [exists_eq_left']

/-- The integer that a text stands for, with a plus sign in front of its digits or not. -/
def integer? : List Char → Option Int
  | '-' :: cs => (magnitude? cs).map fun n => -Int.ofNat n
  | cs => (magnitude? cs).map Int.ofNat

theorem integerText_iff {plus cs : List Char} {z : Int} :
    IntegerText plus cs z ↔
      (∃ n : Nat, MagnitudeText plus cs n ∧ (n : Int) = z) ∨
        ∃ ds, cs = '-' :: ds ∧ ∃ n : Nat, MagnitudeText plus ds n ∧ -(n : Int) = z := by
  constructor
  · rintro (h | h)
    · exact .inl ⟨_, h, rfl⟩
    · exact .inr ⟨_, rfl, _, h, rfl⟩
  · rintro (⟨n, h, rfl⟩ | ⟨ds, rfl, n, h, rfl⟩)
    · exact .unsigned h
    · exact .negative h

theorem integer?_eq_some_iff {cs : List Char} {z : Int} :
    integer? cs = some z ↔ IntegerText [] cs z ∨ IntegerText ['+'] cs z := by
  simp only [integerText_iff]
  fun_cases integer? cs with
  | case1 ds =>
    -- a minus sign is no digit, so it is in front of the number
    have hminus (n : Nat) :
        ¬ (MagnitudeText [] ('-' :: ds) n ∨ MagnitudeText ['+'] ('-' :: ds) n) :=
      fun h => nomatch magnitude?_eq_some_iff.2 h
    simp only [not_or] at hminus
    rw [Option.map_eq_some_iff]
    simp only [magnitude?_eq_some_iff, hminus]
    simp [or_and_right, exists_or]
  | case2 cs hminus =>
    have hnone (plus : List Char) :
        ¬ ∃ ds, cs = '-' :: ds ∧ ∃ n : Nat, MagnitudeText plus ds n ∧ -(n : Int) = z :=
      fun ⟨ds, heq, _⟩ => hminus ds heq
    rw [Option.map_eq_some_iff, or_iff_left (hnone _), or_iff_left (hnone _)]
    simp only [magnitude?_eq_some_iff, or_and_right, exists_or]
    rfl

theorem ofInt_natCast (n : Nat) : Int64.ofInt n = .ofNat n :=
  congrArg (fun w => Int64.ofUInt64 ⟨w⟩) (BitVec.ofInt_natCast 64 n)

/-- A number is held against `2 ^ 64` before it gets its sign. -/
theorem map_filter_magnitude (o : Option Nat) {word : Nat → Int64} {sign : Nat → Int}
    (hword : ∀ n, word n = .ofInt (sign n)) (habs : ∀ n, (sign n).natAbs = n) :
    (o.filter (· < UInt64.size)).map word =
      ((o.map sign).filter (·.natAbs < UInt64.size)).map .ofInt := by
  cases o with
  | none => rfl
  | some n =>
    rw [Option.map_some, Option.filter_some, Option.filter_some, habs]
    split
    · exact congrArg some (hword n)
    · rfl

theorem readInt_eq (s : String) :
    readInt s = (((integer? s.toList).filter (·.natAbs < UInt64.size)).map .ofInt).elim
      (.error (.badInteger s)) .ok := by
  unfold readInt
  generalize s.toList = cs
  fun_cases integer? cs with
  | case1 ds =>
    have hword (n : Nat) : -Int64.ofNat n = .ofInt (-Int.ofNat n) := by
      rw [Int64.ofInt_neg]
      exact congrArg _ (ofInt_natCast n).symm
    have hread := map_filter_magnitude (magnitude? ds) hword fun n => Int.natAbs_neg n
    simp only [readMagnitude?_eq, hread]
    split <;> rename_i h <;> rw [h] <;> rfl
  | case2 cs hminus =>
    have hword (n : Nat) : Int64.ofNat n = .ofInt (Int.ofNat n) := (ofInt_natCast n).symm
    have hread := map_filter_magnitude (magnitude? cs) hword fun n => Int.natAbs_natCast n
    simp only [readMagnitude?_eq, hread]
    split <;> rename_i h <;> rw [h] <;> rfl

theorem readInt_ok_iff {s : String} {v : Int64} :
    readInt s = .ok v ↔
      ∃ z, integer? s.toList = some z ∧ z.natAbs < UInt64.size ∧ v = .ofInt z := by
  rw [readInt_eq]
  constructor
  · intro h
    cases hread : ((integer? s.toList).filter (·.natAbs < UInt64.size)).map Int64.ofInt with
    | none =>
      rw [hread] at h
      cases h
    | some w =>
      rw [hread] at h
      cases h
      obtain ⟨z, hz, rfl⟩ := Option.map_eq_some_iff.1 hread
      obtain ⟨hz, hlt⟩ := Option.filter_eq_some_iff.1 hz
      exact ⟨z, hz, of_decide_eq_true hlt, rfl⟩
  · rintro ⟨z, hz, hlt, rfl⟩
    rw [hz, Option.filter_some, if_pos (decide_eq_true hlt)]
    rfl

/-! ## The numbers of the grammar -/

theorem isSome_digit?_iff {base : Nat} (c : Char) :
    (Text.digit? base c).isSome ↔
      (48 ≤ c.toNat ∧ c.toNat ≤ 57 ∧ c.toNat - 48 < base) ∨
      (97 ≤ c.toNat ∧ c.toNat ≤ 122 ∧ c.toNat - 97 + 10 < base) ∨
      (65 ≤ c.toNat ∧ c.toNat ≤ 90 ∧ c.toNat - 65 + 10 < base) := by
  have hle (a b : Char) : a ≤ b ↔ a.toNat ≤ b.toNat := Iff.rfl
  simp only [Option.isSome_iff_exists, Text.digit?, Option.filter_eq_some_iff, decide_eq_true_eq,
    hle, Char.reduceToNat]
  repeat' split
  all_goals
    simp only [Option.some.injEq, exists_eq_left', reduceCtorEq, false_and, exists_false, false_iff]
    omega

theorem isSome_digit?_ten (c : Char) : (Text.digit? 10 c).isSome ↔ c.isDigit = true := by
  simp only [isSome_digit?_iff, Char.isDigit_iff_toNat, Char.reduceToNat]
  omega

theorem isSome_digit?_sixteen (c : Char) :
    (Text.digit? 16 c).isSome ↔ Recognizer.isHexDigit c = true := by
  have hle (a b : Char) : a ≤ b ↔ a.toNat ≤ b.toNat := Iff.rfl
  simp only [isSome_digit?_iff, Recognizer.isHexDigit, Bool.or_eq_true, Bool.and_eq_true,
    decide_eq_true_eq, Char.isDigit_iff_toNat, hle, Char.reduceToNat]
  omega

/-- Signs and points stand in no number without them. -/
theorem MagnitudeText.not_mem {cs : List Char} {n : Nat} (h : MagnitudeText [] cs n) {c : Char}
    (hc : c = '+' ∨ c = '.') : c ∉ cs := by
  rcases magnitudeText_iff.1 h with ⟨ds, rfl, hds⟩ | ⟨ds, rfl, hds⟩
  · intro hmem
    have hdigit := hds.isSome_digit? (by decide) c hmem
    rcases hc with rfl | rfl <;> cases hdigit
  · intro hmem
    have hmem : c ∈ ds := by rcases hc with rfl | rfl <;> simpa using hmem
    have hdigit := hds.isSome_digit? (by decide) c hmem
    rcases hc with rfl | rfl <;> cases hdigit

theorem IntegerText.not_mem {cs : List Char} {z : Int} (h : IntegerText [] cs z) {c : Char}
    (hc : c = '+' ∨ c = '.') : c ∉ cs := by
  rcases integerText_iff.1 h with ⟨n, hn, -⟩ | ⟨ds, rfl, n, hn, -⟩
  · exact hn.not_mem hc
  · rw [List.mem_cons, not_or]
    refine ⟨?_, hn.not_mem hc⟩
    rcases hc with rfl | rfl <;> decide

theorem IntegerText.plus_mem {cs : List Char} {z : Int} (h : IntegerText ['+'] cs z) :
    '+' ∈ cs := by
  have hmagnitude {ds : List Char} {n : Nat} (h : MagnitudeText ['+'] ds n) : '+' ∈ ds := by
    rcases magnitudeText_iff.1 h with ⟨es, rfl, -⟩ | ⟨es, rfl, -⟩ <;> simp
  rcases integerText_iff.1 h with ⟨n, hn, -⟩ | ⟨ds, rfl, n, hn, -⟩
  · exact hmagnitude hn
  · exact .tail _ (hmagnitude hn)

namespace Recognizer

theorem run_some {q : Char → Bool} {s cs rest : List Char} (h : run q s = some (cs, rest)) :
    s = cs ++ rest ∧ cs ≠ [] ∧ ∀ c ∈ cs, q c = true := by
  unfold run at h
  split at h
  · cases h
  · rename_i hne
    cases h
    exact ⟨List.takeWhile_append_dropWhile.symm, fun hnil => hne hnil,
      fun c hc => List.mem_takeWhile_imp hc⟩

theorem run_all {q : Char → Bool} {cs : List Char} (hne : cs ≠ []) (h : ∀ c ∈ cs, q c = true) :
    run q cs = some (cs, []) := by
  have hend : ([] : List Char).head?.any q = false := rfl
  obtain ⟨htake, hdrop⟩ := span_append h hend
  rw [List.append_nil] at htake hdrop
  rw [run, htake, hdrop]
  split
  · exact absurd rfl hne
  · rfl

theorem exists_decimal {cs : List Char} (hne : cs ≠ []) (h : ∀ c ∈ cs, c.isDigit = true) :
    ∃ n, MagnitudeText [] cs n := by
  simp only [← isSome_digit?_ten] at h
  obtain ⟨n, hn⟩ := (exists_numerals_iff (by decide)).2 ⟨hne, h⟩
  exact ⟨n, .decimal hn⟩

theorem exists_hexadecimal {cs : List Char} (hne : cs ≠ []) (h : ∀ c ∈ cs, isHexDigit c = true) :
    ∃ n, MagnitudeText [] ('0' :: 'x' :: cs) n := by
  simp only [← isSome_digit?_sixteen] at h
  obtain ⟨n, hn⟩ := (exists_numerals_iff (by decide)).2 ⟨hne, h⟩
  exact ⟨n, .hexadecimal hn⟩

/-- What is recognized as a number without its sign is one, or has a point. -/
theorem unsigned_some {s cs rest : List Char} (h : unsigned s = some (cs, rest)) :
    (∃ n, MagnitudeText [] cs n) ∨ '.' ∈ cs := by
  unfold unsigned at h
  split at h
  · rename_i hhex
    cases h
    obtain ⟨_, -, hrun⟩ := Option.bind_eq_some_iff.1 hhex
    obtain ⟨-, hne, hall⟩ := run_some hrun
    exact .inl (exists_hexadecimal hne hall)
  · split at h
    · cases h
    · rename_i digits rest' hdigits
      obtain ⟨-, hne, hall⟩ := run_some hdigits
      split at h
      · cases h
        exact .inr (List.mem_append_right _ (.head _))
      · cases h
        exact .inl (exists_decimal hne hall)
    · rename_i hdigits
      cases h
      obtain ⟨-, hne, hall⟩ := run_some hdigits
      exact .inl (exists_decimal hne hall)

/-- A number without its sign is recognized as a whole. -/
theorem unsigned_magnitude {cs : List Char} {n : Nat} (h : MagnitudeText [] cs n) :
    unsigned cs = some (cs, []) := by
  rcases magnitudeText_iff.1 h with ⟨ds, rfl, hds⟩ | ⟨ds, rfl, hds⟩
  · obtain ⟨hne, hall⟩ := (exists_numerals_iff (by decide)).1 ⟨n, hds⟩
    simp only [isSome_digit?_ten] at hall
    have hhex : afterWord ['0', 'x'] cs = none := by
      rw [Option.eq_none_iff_forall_ne_some]
      intro rest hrest
      rw [afterWord_eq_some] at hrest
      cases hall 'x' (hrest ▸ .tail _ (.head _))
    rw [unsigned, hhex, Option.bind_none, run_all hne hall]
  · obtain ⟨hne, hall⟩ := (exists_numerals_iff (by decide)).1 ⟨n, hds⟩
    simp only [isSome_digit?_sixteen] at hall
    have hhex : afterWord ['0', 'x'] ('0' :: 'x' :: ds) = some ds := rfl
    rw [List.nil_append, unsigned, hhex, Option.bind_some, run_all hne hall]

theorem exists_digit_of_magnitude {cs : List Char} {n : Nat} (h : MagnitudeText [] cs n) :
    ∃ c ds, cs = c :: ds ∧ c.isDigit = true := by
  rcases magnitudeText_iff.1 h with ⟨ds, rfl, hds⟩ | ⟨ds, rfl, -⟩
  · obtain ⟨hne, hall⟩ := (exists_numerals_iff (by decide)).1 ⟨n, hds⟩
    obtain ⟨c, ds, rfl⟩ := List.exists_cons_of_ne_nil hne
    exact ⟨c, ds, rfl, (isSome_digit?_ten c).1 (hall c (.head _))⟩
  · exact ⟨'0', _, rfl, rfl⟩

theorem number_negative (cs : List Char) :
    number ('-' :: cs) = (unsigned cs).map fun r => (String.ofList ('-' :: r.1), r.2) := by
  rw [number, skip_cons rfl (by decide)]
  rfl

theorem number_unsigned {c : Char} (hc : c.isDigit = true) (cs : List Char) :
    number (c :: cs) = (unsigned (c :: cs)).map fun r => (String.ofList r.1, r.2) := by
  have hsign : c ≠ '-' := by
    rintro rfl
    cases hc
  rw [number, skip_nameChar (isNameChar_of_isDigit hc)]
  split
  · rename_i heq
    exact absurd (List.cons.inj heq).1 hsign
  · rfl

/-- **The integers are the numbers of the grammar** that have no point. -/
theorem number_whole_iff (cs : List Char) :
    (∃ z, IntegerText [] cs z) ↔ number cs = some (String.ofList cs, []) ∧ '.' ∉ cs := by
  constructor
  · rintro ⟨z, hz⟩
    refine ⟨?_, hz.not_mem (.inr rfl)⟩
    rcases integerText_iff.1 hz with ⟨n, hn, -⟩ | ⟨ds, rfl, n, hn, -⟩
    · have hunsigned := unsigned_magnitude hn
      obtain ⟨c, ds, rfl, hc⟩ := exists_digit_of_magnitude hn
      rw [number_unsigned hc, hunsigned, Option.map_some]
    · rw [number_negative, unsigned_magnitude hn, Option.map_some]
  · rintro ⟨hnumber, hpoint⟩
    unfold number at hnumber
    split at hnumber
    all_goals
      obtain ⟨⟨ds, rest⟩, hunsigned, heq⟩ := Option.map_eq_some_iff.1 hnumber
      obtain rfl := String.ofList_injective (Prod.mk.inj heq).1
    · obtain ⟨n, hn⟩ := (unsigned_some hunsigned).resolve_right (mt (.tail _) hpoint)
      exact ⟨_, .negative hn⟩
    · obtain ⟨n, hn⟩ := (unsigned_some hunsigned).resolve_right hpoint
      exact ⟨_, .unsigned hn⟩

end Recognizer

/-! ## What is read -/

/-- A text that is read and is no integer from `-2 ^ 63` on: one with a plus sign in front of its
digits, or one whose integer is below `-2 ^ 63`. -/
def Overread (s : String) : Prop :=
  ∃ z : Int, z.natAbs < UInt64.size ∧
    (IntegerText ['+'] s.toList z ∨ IntegerText [] s.toList z ∧ z < -2 ^ 63)

/-- An integer from `-2 ^ 63` on wraps from `2 ^ 63` on. -/
theorem toInt_ofInt_wrapped {z : Int} (hlow : -2 ^ 63 ≤ z) (hhigh : z < 2 ^ 64) :
    (Int64.ofInt z).toInt = if z < 2 ^ 63 then z else z - 2 ^ 64 := by
  rw [Int64.toInt_ofInt, Int.bmod_def]
  have hsize : ((Int64.size : Nat) : Int) = 2 ^ 64 := rfl
  rw [hsize]
  split <;> split <;> omega

/-- **What is read as an integer.** The integers are the numbers of the grammar without a point.
Read are the integers that have less than 65 bits without their sign, also with a plus sign in front
of their digits, each as the word that it is up to a multiple of `2 ^ 64`. So the integers from
`-2 ^ 63` to below `2 ^ 64` are all that is read, and only those from `2 ^ 63` on change their
value, exactly for the texts that are not overread. -/
theorem readInt_integers (s : String) :
    ((∃ z, IntegerText [] s.toList z) ↔
      Recognizer.number s.toList = some (s, []) ∧ '.' ∉ s.toList) ∧
    (∀ v, readInt s = .ok v ↔
      ∃ z : Int, (IntegerText [] s.toList z ∨ IntegerText ['+'] s.toList z) ∧
        z.natAbs < UInt64.size ∧ v = .ofInt z) ∧
    ((∀ v, readInt s = .ok v ↔
      ∃ z : Int, IntegerText [] s.toList z ∧ (-2 ^ 63 ≤ z ∧ z < 2 ^ 64) ∧
        v.toInt = if z < 2 ^ 63 then z else z - 2 ^ 64) ↔ ¬ Overread s) := by
  have hread (v : Int64) : readInt s = .ok v ↔
      ∃ z : Int, (IntegerText [] s.toList z ∨ IntegerText ['+'] s.toList z) ∧
        z.natAbs < UInt64.size ∧ v = .ofInt z := by
    simp only [readInt_ok_iff, integer?_eq_some_iff]
  have hsize : UInt64.size = 2 ^ 64 := rfl
  have hgrammar := Recognizer.number_whole_iff s.toList
  rw [String.ofList_toList] at hgrammar
  refine ⟨hgrammar, hread, fun h => ?_, fun h v => ?_⟩
  · rintro ⟨z, hlt, hz⟩
    have htext : IntegerText [] s.toList z ∨ IntegerText ['+'] s.toList z :=
      hz.symm.imp_left And.left
    obtain ⟨z', hz', ⟨hlow, -⟩, -⟩ := (h (.ofInt z)).1 ((hread _).2 ⟨z, htext, hlt, rfl⟩)
    rcases hz with hplus | ⟨hz, hbelow⟩
    · exact hz'.not_mem (.inl rfl) hplus.plus_mem
    · have hvalue := integer?_eq_some_iff.2 (.inl hz)
      have hsame := hvalue.symm.trans (integer?_eq_some_iff.2 (.inl hz'))
      cases hsame
      omega
  · rw [hread]
    constructor
    · rintro ⟨z, hz, hlt, rfl⟩
      have hplain : IntegerText [] s.toList z :=
        hz.resolve_right fun hplus => h ⟨z, hlt, .inl hplus⟩
      have hlow : -2 ^ 63 ≤ z := by
        by_contra hbelow
        exact h ⟨z, hlt, .inr ⟨hplain, Int.lt_of_not_ge hbelow⟩⟩
      have hhigh : z < 2 ^ 64 := by omega
      exact ⟨z, hplain, ⟨hlow, hhigh⟩, toInt_ofInt_wrapped hlow hhigh⟩
    · rintro ⟨z, hz, ⟨hlow, hhigh⟩, hv⟩
      refine ⟨z, .inl hz, by omega, Int64.toInt_inj.1 ?_⟩
      rw [hv, toInt_ofInt_wrapped hlow hhigh]

/-- An integer below `-2 ^ 63` is read as a positive word, and a text that is no integer as one. -/
theorem readInt_overread :
    IntegerText [] "-0xffffffffffffffff".toList (-0xffffffffffffffff) ∧
      readInt "-0xffffffffffffffff" = .ok 1 ∧
      (∀ z, ¬ IntegerText [] "+5".toList z) ∧ readInt "+5" = .ok 5 := by
  refine ⟨.negative (.hexadecimal ⟨List.replicate 16 15, ?_, ?_, ?_, ?_⟩), ?_, ?_, ?_⟩
  · decide
  · decide
  · decide
  · decide
  · rfl
  · intro z h
    exact h.not_mem (.inl rfl) (.head _)
  · rfl

end WireProtocol
