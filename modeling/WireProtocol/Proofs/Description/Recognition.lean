import Mathlib.Algebra.Group.Nat.Defs
import WireProtocol.Description.Reading
import WireProtocol.Description.Rendering

/-!
# Recognizing tokens

A token is recognized whatever blanks are in front of it, and as far as it goes: a name or number
ends where a delimiter follows (`Delimited`). A word that only begins a name is not followed by what
the grammar asks for after it (`NameBefore.word_bind`), and a keyword is not the beginning of a
longer name (`keyword_eq_none`). Numbers read back as they are written (`readInt_renderNat`).
-/

set_option autoImplicit false

namespace WireProtocol

namespace Recognizer

variable {α β : Type} {p : Recognizer α}

/-! ## Steps -/

section
variable {f : α → Recognizer β} {s s' : List Char} {a : α}

theorem bind_some (h : p s = some (a, s')) : (p >>= f) s = f a s' := by
  simp only [bind, StateT.bind, h, Option.bind_some]

theorem bind_none (h : p s = none) : (p >>= f) s = none := by
  simp only [bind, StateT.bind, h, Option.bind_none]

theorem first_some {ps : List (Recognizer α)} (h : p s = some (a, s')) :
    first (p :: ps) s = some (a, s') := by
  change (p s <|> first ps s) = _
  rw [h]
  rfl

theorem first_none {ps : List (Recognizer α)} (h : p s = none) :
    first (p :: ps) s = first ps s := by
  change (p s <|> first ps s) = _
  rw [h]
  rfl

theorem first_eq_none {ps : List (Recognizer α)} (h : ∀ p ∈ ps, p s = none) :
    first ps s = none := by
  induction ps with
  | nil => rfl
  | cons p ps ih =>
    obtain ⟨hp, hps⟩ := List.forall_mem_cons.1 h
    exact (first_none hp).trans (ih hps)

theorem optionally_some (h : p s = some (a, s')) : optionally p s = some (some a, s') := by
  simp only [optionally, h]

end

/-- A single thing is found once. -/
theorem many_one {s s' : List Char} {a : α} (h : p s = some (a, s')) (hend : p s' = none)
    (hs : s ≠ []) : many p s = some ([a], s') := by
  have hrest (n : Nat) : upTo p n s' = some ([], s') := by
    cases n with
    | zero => rfl
    | succ n => simp only [upTo, hend]
  obtain ⟨n, hn⟩ := Nat.exists_eq_succ_of_ne_zero (mt List.length_eq_zero_iff.1 hs)
  simp only [many, hn, upTo, h, hrest, Option.map_some]

/-! ## Blanks -/

/-- A blank in front of the thing does not matter. -/
def Skips (p : Recognizer α) : Prop := ∀ s, p (' ' :: s) = p s

theorem skips_word (w : String) : (word w).Skips := fun _ => rfl

theorem skips_keyword (w : String) : (keyword w).Skips := fun _ => rfl

theorem skips_identifier : identifier.Skips := fun _ => rfl

theorem skips_number : number.Skips := fun _ => rfl

theorem Skips.bind (h : p.Skips) (f : α → Recognizer β) : (p >>= f).Skips := by
  intro s
  simp only [Bind.bind, StateT.bind, h s]

theorem skips_first {ps : List (Recognizer α)} (h : ∀ p ∈ ps, p.Skips) : (first ps).Skips := by
  intro s
  induction ps with
  | nil => rfl
  | cons p ps ih =>
    obtain ⟨hp, hps⟩ := List.forall_mem_cons.1 h
    change (p (' ' :: s) <|> first ps (' ' :: s)) = (p s <|> first ps s)
    rw [hp, ih hps]

theorem skip_cons {c : Char} (hspace : isSpace c = false) (hslash : c ≠ '/') (s : List Char) :
    skip (c :: s) = c :: s := by
  unfold skip
  rw [skipFrom, if_neg (Bool.eq_false_iff.1 hspace)]
  · rintro _ rfl
    exact absurd rfl hslash
  · rintro _ rfl
    exact absurd rfl hslash

/-! ## Delimiters -/

/-- A delimiter comes next. -/
def Delimited (s : List Char) : Prop := ∃ c rest, s = c :: rest ∧ c ∈ [',', ';', '>', ')']

/-- The thing is recognized in front of a delimiter. -/
def Reads (p : Recognizer α) (text : String) (a : α) : Prop :=
  ∀ rest, Delimited rest → p (text.toList ++ rest) = some (a, rest)

theorem delimited_cons {c : Char} (h : c ∈ [',', ';', '>', ')']) (s : List Char) :
    Delimited (c :: s) := ⟨c, s, rfl, h⟩

theorem isNameChar_of_delimiter {c : Char} (h : c ∈ [',', ';', '>', ')']) :
    isNameChar c = false := by
  have hall : [',', ';', '>', ')'].all (!isNameChar ·) = true := rfl
  simpa using List.all_eq_true.1 hall c h

theorem Delimited.not_nameChar {s : List Char} (h : Delimited s) :
    s.head?.any isNameChar = false := by
  obtain ⟨c, rest, rfl, hc⟩ := h
  exact isNameChar_of_delimiter hc

/-! ## Names -/

theorem afterWord_eq_some {w s rest : List Char} : afterWord w s = some rest ↔ s = w ++ rest := by
  induction w generalizing s with
  | nil => exact Option.some_inj
  | cons c w ih =>
    cases s with
    | nil => exact ⟨nofun, nofun⟩
    | cons c' s =>
      rw [afterWord]
      split
      · rename_i hc
        rw [ih, hc, List.cons_append, List.cons.injEq, and_iff_right rfl]
      · rename_i hc
        rw [List.cons_append, List.cons.injEq]
        exact ⟨nofun, fun h => absurd h.1.symm hc⟩

/-- Characters of a class end where the text goes on with another one. -/
theorem span_append {q : Char → Bool} {cs rest : List Char} (hcs : ∀ c ∈ cs, q c = true)
    (hrest : rest.head?.any q = false) :
    (cs ++ rest).takeWhile q = cs ∧ (cs ++ rest).dropWhile q = rest := by
  rw [List.takeWhile_append_of_pos hcs, List.dropWhile_append_of_pos hcs]
  cases rest with
  | nil => exact ⟨List.append_nil _, rfl⟩
  | cons c rest =>
    have hc : q c = false := hrest
    rw [List.takeWhile_cons_of_neg (Bool.eq_false_iff.1 hc),
      List.dropWhile_cons_of_neg (Bool.eq_false_iff.1 hc), List.append_nil]
    exact ⟨rfl, rfl⟩

/-- A name of a declared type, a field or a value. -/
def isIdentifier (name : String) : Bool :=
  match name.toList with
  | c :: cs => (c.isAlpha || c == '_') && cs.all isNameChar
  | [] => false

theorem nameChars_of_isIdentifier {name : String} (h : isIdentifier name = true) :
    ∀ c ∈ name.toList, isNameChar c = true := by
  unfold isIdentifier at h
  split at h
  · rename_i c cs hname
    simp only [Bool.and_eq_true, Bool.or_eq_true, List.all_eq_true] at h
    obtain ⟨hc, hcs⟩ := h
    rw [hname]
    refine List.forall_mem_cons.2 ⟨?_, hcs⟩
    simp only [isNameChar, Char.isAlphanum, Bool.or_eq_true]
    exact hc.imp_left .inl
  · cases h

theorem skip_nameChar {c : Char} (h : isNameChar c = true) (s : List Char) :
    skip (c :: s) = c :: s := by
  refine skip_cons (Bool.eq_false_iff.2 fun hspace => ?_) ?_ s
  · simp only [isSpace, Bool.or_eq_true, beq_iff_eq] at hspace
    rcases hspace with ((rfl | rfl) | rfl) | rfl <;> exact absurd h (by decide)
  · rintro rfl
    exact absurd h (by decide)

theorem Delimited.skip {s : List Char} (h : Delimited s) : skip s = s := by
  obtain ⟨c, rest, rfl, hc⟩ := h
  have hall : [',', ';', '>', ')'].all (fun c => !isSpace c && c != '/') = true := rfl
  obtain ⟨hspace, hslash⟩ := Bool.and_eq_true_iff.1 (List.all_eq_true.1 hall c hc)
  exact skip_cons (by simpa using hspace) (by simpa using hslash) rest

/-- **A name is recognized as a whole.** -/
theorem identifier_reads {name : String} (h : isIdentifier name = true) :
    identifier.Reads name name := by
  intro rest hrest
  have hchars := nameChars_of_isIdentifier h
  unfold isIdentifier at h
  split at h
  · rename_i c cs hname
    rw [Bool.and_eq_true] at h
    rw [hname] at hchars ⊢
    obtain ⟨hc, hcs⟩ := List.forall_mem_cons.1 hchars
    obtain ⟨htake, hdrop⟩ := span_append hcs hrest.not_nameChar
    unfold identifier
    rw [List.cons_append, skip_nameChar hc]
    dsimp only
    rw [if_pos h.1, htake, hdrop, ← hname, String.ofList_toList]
  · cases h

/-! ## Words that only begin a name -/

/-- Name characters stand in front of the rest of a text. -/
def NameBefore (rest s : List Char) : Prop :=
  ∃ name, s = name ++ rest ∧ ∀ c ∈ name, isNameChar c = true

theorem NameBefore.skip {s rest : List Char} (h : NameBefore rest s) (hrest : Delimited rest) :
    Recognizer.skip s = s := by
  obtain ⟨name, rfl, hname⟩ := h
  cases name with
  | nil => exact hrest.skip
  | cons c cs => exact skip_nameChar (hname c (.head _)) _

/-- A word of name characters leaves the other characters of the name. -/
theorem NameBefore.word {w : String} {s s' rest : List Char} (h : NameBefore rest s)
    (hrest : Delimited rest) (hw : w.toList.all isNameChar = true)
    (hs : word w s = some ((), s')) : NameBefore rest s' := by
  rw [Recognizer.word, h.skip hrest] at hs
  obtain ⟨s', hs', heq⟩ := Option.map_eq_some_iff.1 hs
  cases heq
  obtain ⟨name, rfl, hname⟩ := h
  rw [afterWord_eq_some] at hs'
  obtain ⟨more, hmore, rfl⟩ | ⟨more, rfl, rfl⟩ := List.append_eq_append_iff.1 hs'
  · -- the word does not go beyond the name
    cases more with
    | nil => exact ⟨[], rfl, List.forall_mem_nil _⟩
    | cons c more =>
      have hc : isNameChar c = true := List.all_eq_true.1 hw c (by simp [hmore])
      exact absurd (hrest.not_nameChar.symm.trans hc) Bool.false_ne_true
  · exact ⟨more, rfl, fun c hc => hname c (List.mem_append_right _ hc)⟩

theorem not_name_of_bracket {c : Char} (h : c ∈ ['<', '(']) :
    isNameChar c = false ∧ c ∉ [',', ';', '>', ')'] := by
  have hall : ['<', '('].all (fun c => !(isNameChar c || [',', ';', '>', ')'].contains c)) = true :=
    rfl
  simpa using List.all_eq_true.1 hall c h

/-- No bracket comes next. -/
theorem NameBefore.bracket_eq_none {w : String} {c : Char} {s rest : List Char}
    (h : NameBefore rest s) (hrest : Delimited rest) (hw : w.toList = [c])
    (hc : c ∈ ['<', '(']) : Recognizer.word w s = none := by
  rw [Recognizer.word, h.skip hrest, hw, Option.map_eq_none_iff]
  obtain ⟨hchar, hdelimiter⟩ := not_name_of_bracket hc
  have hne (c' : Char) (s : List Char) (h : c ≠ c') : afterWord [c] (c' :: s) = none := if_neg h
  obtain ⟨name, rfl, hname⟩ := h
  cases name with
  | nil =>
    obtain ⟨c', rest, rfl, hc'⟩ := hrest
    exact hne c' rest fun h => hdelimiter (h ▸ hc')
  | cons c' name =>
    refine hne c' _ fun h => ?_
    exact Bool.false_ne_true (hchar.symm.trans (h ▸ hname c' (.head _)))

theorem NameBefore.bracket_bind {w : String} {c : Char} {f : Unit → Recognizer β}
    {s rest : List Char} (h : NameBefore rest s) (hrest : Delimited rest) (hw : w.toList = [c])
    (hc : c ∈ ['<', '(']) : (Recognizer.word w >>= f) s = none :=
  bind_none (h.bracket_eq_none hrest hw hc)

/-- After a word that begins a name nothing is found that has to begin with a bracket. -/
theorem NameBefore.word_bind {w : String} {f : Unit → Recognizer β} {s rest : List Char}
    (h : NameBefore rest s) (hrest : Delimited rest) (hw : w.toList.all isNameChar = true)
    (hf : ∀ s', NameBefore rest s' → f () s' = none) : (Recognizer.word w >>= f) s = none := by
  cases hs : Recognizer.word w s with
  | none => exact bind_none hs
  | some r =>
    obtain ⟨⟨⟩, s'⟩ := r
    exact (bind_some hs).trans (hf s' (h.word hrest hw hs))

/-- Nor is it after one of two words. -/
theorem NameBefore.words_bind {w w' : String} {f : Bool → Recognizer β} {s rest : List Char}
    (h : NameBefore rest s) (hrest : Delimited rest) (hw : w.toList.all isNameChar = true)
    (hw' : w'.toList.all isNameChar = true)
    (hf : ∀ b s', NameBefore rest s' → f b s' = none) :
    (first [do Recognizer.word w; return false, do Recognizer.word w'; return true] >>= f) s =
      none := by
  cases hs : Recognizer.word w s with
  | some r =>
    obtain ⟨⟨⟩, s'⟩ := r
    refine (bind_some (first_some (bind_some hs))).trans ?_
    exact hf false s' (h.word hrest hw hs)
  | none =>
    cases hs' : Recognizer.word w' s with
    | some r =>
      obtain ⟨⟨⟩, s'⟩ := r
      refine (bind_some ((first_none (bind_none hs)).trans (first_some (bind_some hs')))).trans ?_
      exact hf true s' (h.word hrest hw' hs')
    | none => exact bind_none ((first_none (bind_none hs)).trans (first_none (bind_none hs')))

/-- A keyword is not the beginning of a longer name. -/
theorem keyword_eq_none {w name : String} {rest : List Char} (hrest : Delimited rest)
    (hw : w.toList.all isNameChar = true) (hname : ∀ c ∈ name.toList, isNameChar c = true)
    (hne : name ≠ w) : keyword w (name.toList ++ rest) = none := by
  have hbefore : NameBefore rest (name.toList ++ rest) := ⟨_, rfl, hname⟩
  rw [keyword, hbefore.skip hrest, Option.map_eq_none_iff, afterWholeWord,
    Option.filter_eq_none_iff]
  intro s' hs' hend
  rw [afterWord_eq_some] at hs'
  have hend : s'.head?.any isNameChar = false := by simpa using hend
  have hspan := (span_append hname hrest.not_nameChar).1
  rw [hs', (span_append (List.all_eq_true.1 hw) hend).1] at hspan
  exact hne (String.toList_inj.1 hspan.symm)

/-! ## Numbers -/

theorem renderNat_toList (n : Nat) : (renderNat n).toList = Nat.toDigits 10 n :=
  String.toList_ofList

theorem isDigit_toDigits {n : Nat} {c : Char} (h : c ∈ Nat.toDigits 10 n) : c.isDigit = true :=
  Nat.isDigit_of_mem_toDigits (by decide) (by decide) h

theorem digit?_of_isDigit {c : Char} (h : c.isDigit = true) :
    Text.digit? 10 c = some (c.toNat - '0'.toNat) := by
  have hbounds := Char.isDigit_iff_toNat.1 h
  have hrange : '0' ≤ c ∧ c ≤ '9' := by
    simp only [Char.isDigit, Bool.and_eq_true, decide_eq_true_eq] at h
    exact h
  rw [Text.digit?, if_pos hrange, Option.filter_some, if_pos]
  have h9 : '9'.toNat = '0'.toNat + 9 := rfl
  rw [decide_eq_true_eq]
  omega

theorem digitsOnto?_of_isDigit {cs : List Char} (h : ∀ c ∈ cs, c.isDigit = true) (n : Nat) :
    Text.digitsOnto? 10 n cs = some (Nat.ofDigitChars 10 cs n) := by
  induction cs generalizing n with
  | nil => rfl
  | cons c cs ih =>
    obtain ⟨hc, hcs⟩ := List.forall_mem_cons.1 h
    rw [Text.digitsOnto?, digit?_of_isDigit hc, Option.bind_some, ih hcs, Nat.ofDigitChars_cons,
      Nat.mul_comm]

/-- A number in decimal is a digit and digits after it. -/
theorem toDigits_shape (n : Nat) : ∃ c cs, Nat.toDigits 10 n = c :: cs ∧ c.isDigit = true ∧
    ∀ x ∈ cs, x.isDigit = true := by
  obtain ⟨c, cs, heq⟩ := List.exists_cons_of_ne_nil (Nat.toDigits_ne_nil (n := n) (b := 10))
  have hall : ∀ x ∈ c :: cs, x.isDigit = true := fun x hx => isDigit_toDigits (heq ▸ hx)
  exact ⟨c, cs, heq, (List.forall_mem_cons.1 hall).1, (List.forall_mem_cons.1 hall).2⟩

theorem readMagnitude?_toDigits {n : Nat} (h : n < 2 ^ 63) :
    readMagnitude? (Nat.toDigits 10 n) = some n := by
  have hnot {c : Char} (hc : c.isDigit = false) : c ∉ Nat.toDigits 10 n :=
    fun hmem => Bool.false_ne_true (hc.symm.trans (isDigit_toDigits hmem))
  have hdigits : Text.digits? 10 (Nat.toDigits 10 n) = some n := by
    unfold Text.digits?
    split
    · exact absurd ‹_› Nat.toDigits_ne_nil
    · rw [digitsOnto?_of_isDigit (fun c => isDigit_toDigits),
        Nat.ofDigitChars_toDigits (by decide) (by decide)]
  have hnumeral : Text.numeral? 10 (Nat.toDigits 10 n) = some n := by
    unfold Text.numeral?
    split
    · rename_i heq
      exact absurd (heq ▸ .head _) (hnot (c := '+') rfl)
    · exact hdigits
  unfold readMagnitude?
  split
  · rename_i heq
    exact absurd (heq ▸ .tail _ (.head _)) (hnot (c := 'x') rfl)
  · rw [Text.numeralBelow?, hnumeral, Option.filter_some, if_pos]
    rw [decide_eq_true_eq]
    exact Nat.lt_trans h (by decide)

/-- **A number in decimal reads back.** -/
theorem readInt_renderNat {n : Nat} (h : n < 2 ^ 63) :
    readInt (renderNat n) = .ok (Int64.ofNat n) := by
  obtain ⟨c, cs, heq, hc, -⟩ := toDigits_shape n
  have hsign : c ≠ '-' := by
    rintro rfl
    cases hc
  have hmagnitude := readMagnitude?_toDigits h
  rw [heq] at hmagnitude
  simp [readInt, renderNat_toList, heq, hsign, hmagnitude]

theorem isNameChar_of_isDigit {c : Char} (h : c.isDigit = true) : isNameChar c = true := by
  rw [isNameChar, Char.isAlphanum, h, Bool.or_true, Bool.true_or]

theorem not_number_of_delimiter {c : Char} (h : c ∈ [',', ';', '>', ')']) :
    c.isDigit = false ∧ c ≠ 'x' ∧ c ≠ '.' := by
  have hall : [',', ';', '>', ')'].all (fun c => !c.isDigit && (c != 'x' && c != '.')) = true := rfl
  simpa using List.all_eq_true.1 hall c h

theorem unsigned_toDigits (n : Nat) {rest : List Char} (hrest : Delimited rest) :
    unsigned (Nat.toDigits 10 n ++ rest) = some (Nat.toDigits 10 n, rest) := by
  obtain ⟨d, rest, rfl, hd⟩ := hrest
  obtain ⟨hdigit, hx, hpoint⟩ := not_number_of_delimiter hd
  obtain ⟨c, cs, heq, hc, hcs⟩ := toDigits_shape n
  have hhex : afterWord ['0', 'x'] (c :: cs ++ d :: rest) = none := by
    cases cs with
    | nil => simp [afterWord, Ne.symm hx]
    | cons c' cs =>
      have hc' : 'x' ≠ c' := by
        rintro rfl
        cases hcs 'x' (.head _)
      simp [afterWord, hc']
  have hrun : run Char.isDigit (c :: cs ++ d :: rest) = some (c :: cs, d :: rest) := by
    have hrest : (d :: rest).head?.any Char.isDigit = false := hdigit
    obtain ⟨htake, hdrop⟩ := span_append (List.forall_mem_cons.2 ⟨hc, hcs⟩) hrest
    rw [run, htake, hdrop]
  rw [heq, unsigned, hhex, Option.bind_none, hrun]
  simp [hpoint]

/-- **A number is recognized as it is written.** -/
theorem number_reads (n : Nat) : number.Reads (renderNat n) (renderNat n) := by
  intro rest hrest
  obtain ⟨c, cs, heq, hc, -⟩ := toDigits_shape n
  have hsign : c ≠ '-' := by
    rintro rfl
    cases hc
  have hunsigned := unsigned_toDigits n hrest
  rw [renderNat_toList]
  rw [heq] at hunsigned ⊢
  rw [number, List.cons_append, skip_nameChar (isNameChar_of_isDigit hc)]
  rw [List.cons_append] at hunsigned
  simp [hsign, hunsigned, renderNat, decimalDigits, heq]

end Recognizer

end WireProtocol
