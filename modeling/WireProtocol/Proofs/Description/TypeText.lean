import WireProtocol.Proofs.Description.Recognition

/-!
# Types read back as they are written

The canonical text of a type is recognized as that type (`Grammar.typeSpecWithin_reads`), whatever
other rules begin like it: a name that begins with the word of another type is not followed by what
that type asks for. So a field of the type is read from a description with its text
(`Description.read_render`).
-/

set_option autoImplicit false

namespace WireProtocol

open Recognizer

/-! ## Types that can be written -/

/-- The names that stand for other types than declared ones. -/
def builtInNames : List String :=
  ["float", "double", "u64", "u32", "u16", "u8", "i64", "i32", "i16", "i8"]

/-- A fixed size fits a 64-bit word with its sign. -/
def SizeSpec.isWritable : SizeSpec → Bool
  | .fixed n => n < 2 ^ 63
  | _ => true

/-- Fixed sizes fit, and names are names of declared types. -/
def TypeSpec.isWritable : TypeSpec → Bool
  | .text size => size.isWritable
  | .bytes size => size.isWritable
  | .list elem size _ => elem.isWritable && size.isWritable
  | .optional inner _ => inner.isWritable
  | .named name => isIdentifier name && !builtInNames.contains name
  | _ => true

/-- How deep lists and optionals are nested. -/
def TypeSpec.nesting : TypeSpec → Nat
  | .list elem _ _ => elem.nesting + 1
  | .optional inner _ => inner.nesting + 1
  | _ => 0

namespace Grammar

/-! ## Integers -/

theorem int64_ofNat_le {m n : Nat} (hm : m < 2 ^ 63) (hn : n < 2 ^ 63) :
    Int64.ofNat m ≤ Int64.ofNat n ↔ m ≤ n := by
  rw [Int64.le_iff_toInt_le, Int64.toInt_ofNat_of_lt hm, Int64.toInt_ofNat_of_lt hn, Int.ofNat_le]

theorem int64_ofNat_toNat {n : Nat} (h : n < 2 ^ 63) : (Int64.ofNat n).toInt.toNat = n := by
  rw [Int64.toInt_ofNat_of_lt h, Int.toNat_natCast]

theorem ofBytes_eq {n : Nat} (h : 1 ≤ n ∧ n ≤ 8) : IntWidth.ofBytes n = .fixed n h := by
  simp only [IntWidth.ofBytes, IntWidth.fixed.injEq]
  omega

theorem between_eq {min max : Nat} (h : 1 ≤ min ∧ min ≤ max ∧ max ≤ 10) :
    IntWidth.between min max = .var min max h := by
  simp only [IntWidth.between, IntWidth.var.injEq]
  omega

theorem render_machineInt {n : Nat} {signed : Bool} {bounds : 1 ≤ n ∧ n ≤ 8}
    (h : n = 1 ∨ n = 2 ∨ n = 4 ∨ n = 8) : (IntSpec.render ⟨.fixed n bounds, signed⟩).toList =
      (if signed then 'i' else 'u') :: Nat.toDigits 10 (8 * n) := by
  simp only [IntSpec.render, if_pos h, String.toList_append, renderNat_toList]
  cases signed <;> simp

/-- The name of a machine word is followed by a delimiter. -/
theorem machineInt_reads {n : Nat} {signed : Bool} {bounds : 1 ≤ n ∧ n ≤ 8}
    (h : n = 1 ∨ n = 2 ∨ n = 4 ∨ n = 8) :
    machineInt.Reads (IntSpec.render ⟨.fixed n bounds, signed⟩) (.ok ⟨.fixed n bounds, signed⟩) := by
  rintro _ ⟨c, rest, rfl, hc⟩
  rw [render_machineInt h]
  simp only [List.mem_cons, List.not_mem_nil, or_false] at hc
  rcases h with rfl | rfl | rfl | rfl <;> cases signed <;>
    rcases hc with rfl | rfl | rfl | rfl <;> rfl

theorem wideInt_of_word {n : Nat} {signed : Bool} {s rest : List Char} (bounds : 1 ≤ n ∧ n ≤ 8)
    (h : first [do word "uint"; return false, do word "int"; return true] s =
      some (signed, '(' :: ((renderNat n).toList ++ ')' :: rest))) :
    wideInt s = some (.ok ⟨.fixed n bounds, signed⟩, rest) := by
  have hlow : (1 : Int64) ≤ Int64.ofNat n := (int64_ofNat_le (by decide) (by omega)).2 bounds.1
  have hhigh : Int64.ofNat n ≤ 8 := (int64_ofNat_le (by omega) (by decide)).2 bounds.2
  refine (bind_some h).trans ((bind_some rfl).trans ?_)
  refine (bind_some (number_reads n _ (delimited_cons (by decide) rest))).trans ?_
  refine (bind_some rfl).trans (congrArg (fun t => some (t, rest)) ?_)
  rw [readInt_renderNat (by omega)]
  change (if _ then _ else _) = _
  rw [if_pos ⟨hlow, hhigh⟩, int64_ofNat_toNat (by omega), ofBytes_eq bounds]
  rfl

theorem varInt_of_word {min max : Nat} {signed : Bool} {s rest : List Char}
    (bounds : 1 ≤ min ∧ min ≤ max ∧ max ≤ 10)
    (h : first [do word "varuint"; return false, do word "varint"; return true] s =
      some (signed, '(' :: ((renderNat min).toList ++
        ',' :: ' ' :: ((renderNat max).toList ++ ')' :: rest)))) :
    varInt s = some (.ok ⟨.var min max bounds, signed⟩, rest) := by
  have hlow : (1 : Int64) ≤ Int64.ofNat min := (int64_ofNat_le (by decide) (by omega)).2 bounds.1
  have hmid : Int64.ofNat min ≤ Int64.ofNat max :=
    (int64_ofNat_le (by omega) (by omega)).2 bounds.2.1
  have hhigh : Int64.ofNat max ≤ 10 := (int64_ofNat_le (by omega) (by decide)).2 bounds.2.2
  refine (bind_some h).trans ((bind_some rfl).trans ?_)
  refine (bind_some (number_reads min _ (delimited_cons (by decide) _))).trans ?_
  refine (bind_some rfl).trans ?_
  refine (bind_some ((skips_number _).trans
    (number_reads max _ (delimited_cons (by decide) rest)))).trans ?_
  refine (bind_some rfl).trans (congrArg (fun t => some (t, rest)) ?_)
  rw [readInt_renderNat (by omega), readInt_renderNat (by omega)]
  change (if _ then _ else _) = _
  rw [if_pos ⟨hlow, hmid, hhigh⟩, int64_ofNat_toNat (by omega), int64_ofNat_toNat (by omega),
    between_eq bounds]
  rfl

/-- **An integer type reads back.** -/
theorem intSpec_reads (t : IntSpec) : intSpec.Reads t.render (.ok t) := by
  intro rest hrest
  obtain ⟨width, signed⟩ := t
  cases width with
  | fixed n bounds =>
    by_cases hn : n = 1 ∨ n = 2 ∨ n = 4 ∨ n = 8
    · exact first_some (machineInt_reads hn rest hrest)
    · have htext : (IntSpec.render ⟨.fixed n bounds, signed⟩).toList ++ rest =
          (if signed then "int" else "uint").toList ++
            '(' :: ((renderNat n).toList ++ ')' :: rest) := by
        simp [IntSpec.render, hn]
      rw [htext]
      cases signed with
      | false =>
        refine (first_none rfl).trans ((first_none rfl).trans (first_some ?_))
        exact wideInt_of_word bounds rfl
      | true =>
        refine (first_none rfl).trans ((first_none rfl).trans (first_some ?_))
        exact wideInt_of_word bounds rfl
  | var min max bounds =>
    have htext : (IntSpec.render ⟨.var min max bounds, signed⟩).toList ++ rest =
        (if signed then "varint" else "varuint").toList ++ '(' :: ((renderNat min).toList ++
          ',' :: ' ' :: ((renderNat max).toList ++ ')' :: rest)) := by
      simp [IntSpec.render]
    rw [htext]
    cases signed with
    | false => exact (first_none rfl).trans (first_some (varInt_of_word bounds rfl))
    | true => exact (first_none rfl).trans (first_some (varInt_of_word bounds rfl))

theorem render_intSpec_head (t : IntSpec) :
    ∃ c cs, t.render.toList = c :: cs ∧ c ∈ ['u', 'i', 'v'] := by
  obtain ⟨width, signed⟩ := t
  cases width with
  | fixed n bounds =>
    by_cases hn : n = 1 ∨ n = 2 ∨ n = 4 ∨ n = 8 <;> cases signed <;> simp [IntSpec.render, hn]
  | var min max bounds => cases signed <;> simp [IntSpec.render]

theorem intArgument_ok (t : IntSpec) (rest : List Char) :
    intArgument ('(' :: (t.render.toList ++ ')' :: rest)) = some (.ok t, rest) := by
  refine (bind_some rfl).trans ?_
  exact (bind_some (intSpec_reads t _ (delimited_cons (by decide) rest))).trans (bind_some rfl)

/-! ## Sizes -/

theorem skips_sizeSpec : sizeSpec.Skips := by
  refine skips_first (List.forall_mem_cons.2 ⟨?_, List.forall_mem_cons.2 ⟨?_,
    List.forall_mem_cons.2 ⟨?_, List.forall_mem_singleton.2 ?_⟩⟩⟩)
  · exact (skips_word "fixed").bind _
  · exact (skips_word "count").bind _
  · exact (skips_word "length").bind _
  · exact (skips_keyword "rest").bind _

/-- **A size reads back.** -/
theorem sizeSpec_reads {size : SizeSpec} (h : size.isWritable = true) :
    sizeSpec.Reads size.render (.ok size) := by
  intro rest hrest
  cases size with
  | fixed n =>
    have hn : n < 2 ^ 63 := of_decide_eq_true h
    have htext : (SizeSpec.fixed n).render.toList ++ rest =
        "fixed(".toList ++ ((renderNat n).toList ++ ')' :: rest) := by
      simp [SizeSpec.render]
    rw [htext]
    refine first_some ((bind_some rfl).trans ((bind_some rfl).trans ?_))
    refine (bind_some (number_reads n _ (delimited_cons (by decide) rest))).trans ?_
    refine (bind_some rfl).trans (congrArg (fun size => some (size, rest)) ?_)
    have hpos : (0 : Int64) ≤ Int64.ofNat n := (int64_ofNat_le (by decide) hn).2 (Nat.zero_le n)
    have hsize : (Int64.ofNat n).toInt.toNat < Nat.pow 2 63 := by rwa [int64_ofNat_toNat hn]
    rw [readNatBelow, readInt_renderNat hn]
    change (if _ then _ else _) >>= _ = _
    rw [if_pos ⟨hpos, hsize⟩, int64_ofNat_toNat hn]
    rfl
  | count t =>
    have htext : (SizeSpec.count t).render.toList ++ rest =
        "count".toList ++ '(' :: (t.render.toList ++ ')' :: rest) := by
      simp [SizeSpec.render]
    rw [htext]
    refine (first_none rfl).trans (first_some ((bind_some rfl).trans ?_))
    exact bind_some (intArgument_ok t rest)
  | length t =>
    have htext : (SizeSpec.length t).render.toList ++ rest =
        "length".toList ++ '(' :: (t.render.toList ++ ')' :: rest) := by
      simp [SizeSpec.render]
    rw [htext]
    refine (first_none rfl).trans ((first_none rfl).trans (first_some ((bind_some rfl).trans ?_)))
    exact bind_some (intArgument_ok t rest)
  | rest =>
    obtain ⟨c, rest, rfl, hc⟩ := hrest
    simp only [List.mem_cons, List.not_mem_nil, or_false] at hc
    rcases hc with rfl | rfl | rfl | rfl <;> rfl

theorem sizeArgument_ok {size : SizeSpec} (h : size.isWritable = true) (rest : List Char) :
    sizeArgument ('<' :: (size.render.toList ++ '>' :: rest)) = some (.ok size, rest) := by
  refine (bind_some rfl).trans ?_
  exact (bind_some (sizeSpec_reads h _ (delimited_cons (by decide) rest))).trans (bind_some rfl)

/-! ## Lists and optionals -/

section
variable {inner : Recognizer (Checked TypeSpec)}

theorem listSpec_reads {elem : TypeSpec} {size : SizeSpec} (elemLength : Option IntSpec)
    (h : inner.Reads elem.render (.ok elem)) (hsize : size.isWritable = true) :
    (listSpec inner).Reads (TypeSpec.list elem size elemLength).render
      (.ok (.list elem size elemLength)) := by
  intro rest hrest
  have htext : (TypeSpec.list elem size elemLength).render.toList ++ rest =
      "list<".toList ++ (elem.render.toList ++ ',' :: ' ' :: (size.render.toList ++
        elemLength.elim ('>' :: rest) fun t =>
          ", elem_length".toList ++ '(' :: (t.render.toList ++ ')' :: '>' :: rest))) := by
    cases elemLength <;> simp [TypeSpec.render]
  rw [htext]
  refine (bind_some rfl).trans ((bind_some rfl).trans ?_)
  refine (bind_some (h _ (delimited_cons (by decide) _))).trans ((bind_some rfl).trans ?_)
  cases elemLength with
  | none =>
    refine (bind_some ((skips_sizeSpec _).trans
      (sizeSpec_reads hsize _ (delimited_cons (by decide) rest)))).trans ?_
    exact (bind_some rfl).trans (bind_some rfl)
  | some t =>
    refine (bind_some ((skips_sizeSpec _).trans
      (sizeSpec_reads hsize _ (delimited_cons (by decide) _)))).trans ?_
    have hlength : optionally (do word ","; word "elem_length"; intArgument)
        (", elem_length".toList ++ '(' :: (t.render.toList ++ ')' :: '>' :: rest)) =
          some (some (.ok t), '>' :: rest) :=
      optionally_some ((bind_some rfl).trans ((bind_some rfl).trans (intArgument_ok t _)))
    exact (bind_some hlength).trans (bind_some rfl)

theorem render_optional (type : TypeSpec) (mode : OptionalMode) (rest : List Char) :
    (TypeSpec.optional type mode).render.toList ++ rest =
      "optional<".toList ++ (type.render.toList ++ ',' :: ' ' ::
        (mode.render.toList ++ '>' :: rest)) := by
  simp [TypeSpec.render]

theorem optionalSpec_reads {type : TypeSpec} (mode : OptionalMode)
    (h : inner.Reads type.render (.ok type)) :
    (optionalSpec inner).Reads (TypeSpec.optional type mode).render
      (.ok (.optional type mode)) := by
  intro rest hrest
  rw [render_optional]
  refine (bind_some rfl).trans ((bind_some rfl).trans ?_)
  refine (bind_some (h _ (delimited_cons (by decide) _))).trans ?_
  cases mode <;> exact (bind_some rfl).trans (bind_some rfl)

end

/-! ## Names -/

section
variable {name : String} {rest : List Char}

theorem builtInName_nameChars {w : String} (h : w ∈ builtInNames) :
    w.toList.all isNameChar = true := by
  have hall : builtInNames.all (·.toList.all isNameChar) = true := by decide
  exact List.all_eq_true.1 hall w h

theorem keyword_builtIn_eq_none (hname : isIdentifier name = true) (hnot : name ∉ builtInNames)
    (hrest : Delimited rest) {w : String} (hw : w ∈ builtInNames) :
    keyword w (name.toList ++ rest) = none :=
  keyword_eq_none hrest (builtInName_nameChars hw) (nameChars_of_isIdentifier hname)
    fun h => hnot (h ▸ hw)

/-- A name that stands for no other type is none of the integer types. -/
theorem intSpec_name_eq_none (hname : isIdentifier name = true) (hnot : name ∉ builtInNames)
    (hrest : Delimited rest) : intSpec (name.toList ++ rest) = none := by
  have hbefore : NameBefore rest (name.toList ++ rest) :=
    ⟨_, rfl, nameChars_of_isIdentifier hname⟩
  have hmachine : machineInt (name.toList ++ rest) = none := by
    refine first_eq_none fun p hp => ?_
    simp only [List.mem_cons, List.not_mem_nil, or_false] at hp
    rcases hp with rfl | rfl | rfl | rfl | rfl | rfl | rfl | rfl <;>
      exact bind_none (keyword_builtIn_eq_none hname hnot hrest (by decide))
  have hvar : varInt (name.toList ++ rest) = none :=
    hbefore.words_bind hrest (by decide) (by decide)
      fun _ _ h => h.bracket_bind hrest rfl (by decide)
  have hwide : wideInt (name.toList ++ rest) = none :=
    hbefore.words_bind hrest (by decide) (by decide)
      fun _ _ h => h.bracket_bind hrest rfl (by decide)
  exact (first_none hmachine).trans ((first_none hvar).trans (first_none hwide))

/-- **A name is read as a name**, whatever words it begins with. -/
theorem named_reads (depth : Nat) (hname : isIdentifier name = true) (hnot : name ∉ builtInNames) :
    (typeSpecWithin (depth + 1)).Reads name (.ok (.named name)) := by
  intro rest hrest
  have hbefore : NameBefore rest (name.toList ++ rest) :=
    ⟨_, rfl, nameChars_of_isIdentifier hname⟩
  have hbracket {f : Unit → Recognizer (Checked TypeSpec)} :
      ∀ s, NameBefore rest s → (word "<" >>= f) s = none :=
    fun _ h => h.bracket_bind hrest rfl (by decide)
  have hsize : ∀ s, NameBefore rest s → sizeArgument s = none :=
    fun _ h => h.bracket_bind hrest rfl (by decide)
  refine (first_none (hbefore.word_bind hrest (by decide) hbracket)).trans ?_
  refine (first_none (hbefore.word_bind hrest (by decide) hbracket)).trans ?_
  refine (first_none (hbefore.word_bind hrest (by decide) fun _ h => bind_none (hsize _ h))).trans ?_
  refine (first_none (hbefore.word_bind hrest (by decide) fun _ h => bind_none (hsize _ h))).trans ?_
  have hkeyword {w : String} (hw : w ∈ builtInNames) := keyword_builtIn_eq_none hname hnot hrest hw
  refine (first_none (bind_none (hkeyword (w := "float") (by decide)))).trans ?_
  refine (first_none (bind_none (hkeyword (w := "double") (by decide)))).trans ?_
  refine (first_none (bind_none (intSpec_name_eq_none hname hnot hrest))).trans ?_
  exact first_some (bind_some (identifier_reads hname rest hrest))

end

/-! ## Types -/

theorem skips_intSpec : intSpec.Skips := by
  have hword {w w' : String} :
      (first [do word w; return false, do word w'; return true]).Skips := by
    refine skips_first (List.forall_mem_cons.2 ⟨?_, List.forall_mem_singleton.2 ?_⟩)
    · exact (skips_word w).bind _
    · exact (skips_word w').bind _
  refine skips_first (List.forall_mem_cons.2 ⟨skips_first fun p hp => ?_,
    List.forall_mem_cons.2 ⟨hword.bind _, List.forall_mem_singleton.2 (hword.bind _)⟩⟩)
  simp only [List.mem_cons, List.not_mem_nil, or_false] at hp
  rcases hp with rfl | rfl | rfl | rfl | rfl | rfl | rfl | rfl <;> exact (skips_keyword _).bind _

theorem skips_typeSpecWithin (depth : Nat) : (typeSpecWithin depth).Skips := by
  cases depth with
  | zero => exact fun _ => rfl
  | succ depth =>
    refine skips_first fun p hp => ?_
    simp only [List.mem_cons, List.not_mem_nil, or_false] at hp
    rcases hp with rfl | rfl | rfl | rfl | rfl | rfl | rfl | rfl
    · exact (skips_word "list").bind _
    · exact (skips_word "optional").bind _
    · exact (skips_word "string").bind _
    · exact (skips_word "bytes").bind _
    · exact (skips_keyword "float").bind _
    · exact (skips_keyword "double").bind _
    · exact skips_intSpec.bind _
    · exact skips_identifier.bind _

/-- **A type reads back** if it is nested less deep than the bound. -/
theorem typeSpecWithin_reads {t : TypeSpec} (h : t.isWritable = true) {depth : Nat}
    (hdepth : t.nesting < depth) : (typeSpecWithin depth).Reads t.render (.ok t) := by
  induction t generalizing depth with
  | int t =>
    obtain ⟨depth, rfl⟩ := Nat.exists_eq_succ_of_ne_zero (Nat.ne_zero_of_lt hdepth)
    intro rest hrest
    have hint := intSpec_reads t rest hrest
    obtain ⟨c, cs, heq, hc⟩ := render_intSpec_head t
    change typeSpecWithin (depth + 1) (t.render.toList ++ rest) = _
    rw [heq] at hint ⊢
    simp only [List.mem_cons, List.not_mem_nil, or_false] at hc
    -- the other types begin with other letters
    rcases hc with rfl | rfl | rfl <;>
      exact (first_none rfl).trans ((first_none rfl).trans ((first_none rfl).trans
        ((first_none rfl).trans ((first_none rfl).trans ((first_none rfl).trans
          (first_some (bind_some hint)))))))
  | float precision =>
    obtain ⟨depth, rfl⟩ := Nat.exists_eq_succ_of_ne_zero (Nat.ne_zero_of_lt hdepth)
    rintro _ ⟨c, rest, rfl, hc⟩
    simp only [List.mem_cons, List.not_mem_nil, or_false] at hc
    cases precision <;> rcases hc with rfl | rfl | rfl | rfl <;> rfl
  | text size =>
    obtain ⟨depth, rfl⟩ := Nat.exists_eq_succ_of_ne_zero (Nat.ne_zero_of_lt hdepth)
    intro rest hrest
    have htext : (TypeSpec.text size).render.toList ++ rest =
        "string".toList ++ '<' :: (size.render.toList ++ '>' :: rest) := by
      simp [TypeSpec.render]
    rw [htext]
    refine (first_none rfl).trans ((first_none rfl).trans (first_some ?_))
    exact (bind_some rfl).trans (bind_some (sizeArgument_ok h rest))
  | bytes size =>
    obtain ⟨depth, rfl⟩ := Nat.exists_eq_succ_of_ne_zero (Nat.ne_zero_of_lt hdepth)
    intro rest hrest
    have htext : (TypeSpec.bytes size).render.toList ++ rest =
        "bytes".toList ++ '<' :: (size.render.toList ++ '>' :: rest) := by
      simp [TypeSpec.render]
    rw [htext]
    refine (first_none rfl).trans ((first_none rfl).trans ((first_none rfl).trans (first_some ?_)))
    exact (bind_some rfl).trans (bind_some (sizeArgument_ok h rest))
  | list elem size elemLength ih =>
    obtain ⟨depth, rfl⟩ := Nat.exists_eq_succ_of_ne_zero (Nat.ne_zero_of_lt hdepth)
    obtain ⟨helem, hsize⟩ := Bool.and_eq_true_iff.1 h
    intro rest hrest
    exact first_some (listSpec_reads elemLength
      (ih helem (Nat.lt_of_succ_lt_succ hdepth)) hsize rest hrest)
  | optional inner mode ih =>
    obtain ⟨depth, rfl⟩ := Nat.exists_eq_succ_of_ne_zero (Nat.ne_zero_of_lt hdepth)
    intro rest hrest
    have hinner := ih h (Nat.lt_of_succ_lt_succ hdepth)
    refine (first_none ?_).trans (first_some (optionalSpec_reads mode hinner rest hrest))
    rw [render_optional]
    rfl
  | named name =>
    obtain ⟨depth, rfl⟩ := Nat.exists_eq_succ_of_ne_zero (Nat.ne_zero_of_lt hdepth)
    obtain ⟨hname, hnot⟩ := Bool.and_eq_true_iff.1 h
    have hnot : name ∉ builtInNames := by simpa using hnot
    exact named_reads depth hname hnot

/-- The text of a type has a character or more for every level of nesting. -/
theorem nesting_le_length (t : TypeSpec) : t.nesting ≤ t.render.toList.length := by
  induction t with
  | list elem size elemLength ih =>
    simp only [TypeSpec.nesting, TypeSpec.render, String.toList_append, List.length_append]
    have : 1 ≤ "list<".toList.length := by decide
    omega
  | optional inner mode ih =>
    simp only [TypeSpec.nesting, TypeSpec.render, String.toList_append, List.length_append]
    have : 1 ≤ "optional<".toList.length := by decide
    omega
  | _ => exact Nat.zero_le _

theorem typeSpec_ok {t : TypeSpec} (h : t.isWritable = true) {rest : List Char}
    (hrest : Delimited rest) :
    typeSpec (' ' :: (t.render.toList ++ rest)) = some (.ok t, rest) := by
  have hnesting := nesting_le_length t
  refine (skips_typeSpecWithin _ _).trans (typeSpecWithin_reads h ?_ rest hrest)
  rw [List.length_cons, List.length_append]
  omega

theorem fieldDecl_ok {t : TypeSpec} (h : t.isWritable = true) :
    fieldDecl (" a:".toList ++ ' ' :: (t.render.toList ++ "; \x7d".toList)) =
      some (.ok ⟨"a", t, {}⟩, " \x7d".toList) := by
  refine (bind_some rfl).trans ((bind_some rfl).trans ?_)
  refine (bind_some (typeSpec_ok h (delimited_cons (by decide) _))).trans ?_
  exact (bind_some rfl).trans (bind_some rfl)

theorem messageDecl_ok {t : TypeSpec} (h : t.isWritable = true) :
    messageDecl ("message M = 1 \x7b a:".toList ++ ' ' :: (t.render.toList ++ "; \x7d".toList)) =
      some (.ok ⟨"M", .number 1, none, false, [⟨"a", t, {}⟩]⟩, []) := by
  generalize hs : ' ' :: (t.render.toList ++ "; \x7d".toList) = s
  have hfield : fieldDecl (" a:".toList ++ s) = some (.ok ⟨"a", t, {}⟩, " \x7d".toList) :=
    hs ▸ fieldDecl_ok h
  have hbraced : braced (many fieldDecl) (" \x7b a:".toList ++ s) =
      some ([.ok ⟨"a", t, {}⟩], []) := by
    refine (bind_some rfl).trans ?_
    exact (bind_some (many_one hfield rfl (by simp))).trans (bind_some rfl)
  have hfields : fieldDecls (" \x7b a:".toList ++ s) = some (.ok [⟨"a", t, {}⟩], []) :=
    bind_some hbraced
  have hname : identifier (" M = 1 \x7b a:".toList ++ s) = some ("M", " = 1 \x7b a:".toList ++ s) :=
    rfl
  have hid : idSpec (" 1 \x7b a:".toList ++ s) = some (fun message =>
      return .number (UInt64.ofNat (← readNatBelow (Nat.pow 2 63) (.negativeId message) "1")),
      " \x7b a:".toList ++ s) := rfl
  have hdisplay : optionally quotedText (" \x7b a:".toList ++ s) =
      some (none, " \x7b a:".toList ++ s) := rfl
  have hversioned : isKeyword "versioned" (" \x7b a:".toList ++ s) =
      some (false, " \x7b a:".toList ++ s) := rfl
  have hnumber : readNatBelow (Nat.pow 2 63) (.negativeId "M") "1" = .ok 1 := rfl
  refine (bind_some rfl).trans ((bind_some hname).trans ((bind_some rfl).trans ?_))
  refine (bind_some hid).trans ((bind_some hdisplay).trans ((bind_some hversioned).trans ?_))
  refine (bind_some hfields).trans (congrArg (fun d => some (d, [])) ?_)
  dsimp only
  rw [hnumber]
  rfl

end Grammar

open Grammar in
/-- **A field of a type is read as that type.** -/
theorem Description.read_render (t : TypeSpec) (h : t.isWritable = true) :
    Description.read ("message M = 1 \x7b a: " ++ t.render ++ "; \x7d") =
      .ok { messages := [⟨"M", .number 1, none, false, [⟨"a", t, {}⟩]⟩] } := by
  have htext : ("message M = 1 \x7b a: " ++ t.render ++ "; \x7d").toList =
      "message M = 1 \x7b a:".toList ++ ' ' :: (t.render.toList ++ "; \x7d".toList) := by
    simp
  let m : MessageDecl := ⟨"M", .number 1, none, false, [⟨"a", t, {}⟩]⟩
  let declare : Declaration := fun d =>
    return { d with messages := d.messages ++ [← (.ok m : Checked MessageDecl)] }
  generalize hs : ' ' :: (t.render.toList ++ "; \x7d".toList) = s at htext
  have hmessage : messageDecl ("message M = 1 \x7b a:".toList ++ s) = some (.ok m, []) :=
    hs ▸ messageDecl_ok h
  have hdeclaration : declaration ("message M = 1 \x7b a:".toList ++ s) = some (declare, []) := by
    -- no other declaration begins with this word
    refine (first_none rfl).trans ((first_none rfl).trans ((first_none rfl).trans
      ((first_none rfl).trans ((first_none rfl).trans ((first_none rfl).trans
        ((first_none rfl).trans ((first_none rfl).trans (first_some ?_))))))))
    exact bind_some hmessage
  have hdeclarations : declarations ("message M = 1 \x7b a:".toList ++ s) =
      some ([declare], []) := by
    exact (bind_some (many_one hdeclaration rfl (by simp))).trans (bind_some rfl)
  rw [Description.read, htext, hdeclarations]
  rfl

/-- A list of optional fields of a declared type whose name begins like that of a list. -/
def listingType : TypeSpec :=
  .list (.optional (.named "listing") .tentative) (.count ⟨.ofBytes 2, false⟩)
    (some ⟨.between 1 4, true⟩)

theorem listingType_read :
    listingType.render =
        "list<optional<listing, tentative>, count(u16), elem_length(varint(1, 4))>" ∧
      listingType.isWritable = true ∧
      Description.read ("message M = 1 \x7b a: " ++ listingType.render ++ "; \x7d") =
        .ok { messages := [⟨"M", .number 1, none, false, [⟨"a", listingType, {}⟩]⟩] } :=
  ⟨by decide, by decide, Description.read_render listingType (by decide)⟩

end WireProtocol
