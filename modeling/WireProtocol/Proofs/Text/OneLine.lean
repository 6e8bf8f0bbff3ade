import WireProtocol.Bytes
import WireProtocol.Decimal
import WireProtocol.Text.Quoted

/-!
# Texts on one line

A text is on one line if it has no line break (`Text.OneLine`). All that is made of digits is
(`Text.oneLine_repr`, `Binary64.oneLine_shortestText`), and so is a text in quotes whatever
stands inside of them (`Text.oneLine_quoted`).
-/

set_option autoImplicit false

namespace WireProtocol

namespace Text

/-- Whether a text has no line break. -/
def OneLine (s : String) : Prop := '\n' ∉ s.toList

instance (s : String) : Decidable (OneLine s) := inferInstanceAs (Decidable ('\n' ∉ s.toList))

@[simp] theorem oneLine_append {s t : String} : OneLine (s ++ t) ↔ OneLine s ∧ OneLine t := by
  simp [OneLine, not_or]

@[simp] theorem oneLine_ofList {cs : List Char} : OneLine (String.ofList cs) ↔ '\n' ∉ cs := by
  rw [OneLine, String.toList_ofList]

theorem oneLine_intercalate {sep : String} {ts : List String} (hsep : OneLine sep)
    (hts : ∀ t ∈ ts, OneLine t) : OneLine (String.intercalate sep ts) := by
  rw [OneLine, String.toList_intercalate]
  induction ts with
  | nil => simp
  | cons t ts ih =>
    cases ts with
    | nil =>
      rw [List.map_cons, List.map_nil, List.intercalate_singleton]
      exact hts t (.head _)
    | cons u ts =>
      simp only [List.map_cons, List.intercalate_cons_cons, List.mem_append, not_or] at ih ⊢
      exact ⟨⟨hts t (.head _), hsep⟩, ih fun t h => hts t (.tail _ h)⟩

/-! ## Digits -/

theorem newline_not_mem_toDigits {b : Nat} (hb : 1 < b) (n : Nat) :
    '\n' ∉ Nat.toDigits b n := by
  induction n using Nat.strongRecOn with
  | ind n ih =>
    rw [Nat.toDigits_eq_if hb]
    split
    · simp
    · have hlt : n / b < n := Nat.div_lt_self (by omega) hb
      simp [ih _ hlt]

@[simp] theorem oneLine_repr (n : Nat) : OneLine n.repr := by
  rw [OneLine, Nat.toList_repr]
  exact newline_not_mem_toDigits (by decide) n

@[simp] theorem oneLine_toString_int (v : Int) : OneLine (toString v) := by
  show OneLine v.repr
  cases v with
  | ofNat n => exact oneLine_repr n
  | negSucc n => exact oneLine_append.2 ⟨by decide, oneLine_repr n.succ⟩

@[simp] theorem oneLine_toString_int64 (v : Int64) : OneLine (toString v) :=
  oneLine_toString_int v.toInt

@[simp] theorem oneLine_toString_uint64 (v : UInt64) : OneLine (toString v) :=
  oneLine_repr v.toNat

theorem oneLine_hexNat (n : Nat) : OneLine (hexNat n) :=
  oneLine_ofList.2 (newline_not_mem_toDigits (by decide) n)

theorem oneLine_hexByte (b : UInt8) : OneLine (hexByte b) := by
  rw [hexByte, oneLine_ofList]
  simp [hexDigit]

theorem oneLine_padLeft {fill : Char} (hfill : fill ≠ '\n') (width : Nat) {s : String}
    (hs : OneLine s) : OneLine (padLeft width fill s) := by
  rw [padLeft, oneLine_append, oneLine_ofList, List.mem_replicate]
  exact ⟨fun h => hfill h.2.symm, hs⟩

/-! ## Quotes -/

theorem newline_not_mem_codePoint (c : Char) : '\n' ∉ codePoint c := by
  have hdigits := newline_not_mem_toDigits (b := 16) (by decide) c.toNat
  simp [codePoint, hdigits]

theorem newline_not_mem_quotedChar (c : Char) : '\n' ∉ quotedChar c := by
  unfold quotedChar
  split
  case h_7 hnewline _ _ =>
    split
    · simpa using fun h => hnewline h.symm
    · exact newline_not_mem_codePoint _
  all_goals decide

/-- **A text in quotes is on one line**, whatever it is. -/
theorem oneLine_quoted (s : String) : OneLine (quoted s) := by
  rw [quoted, oneLine_ofList]
  simpa using fun c _ => newline_not_mem_quotedChar c

end Text

/-! ## Floating point numbers -/

namespace Binary64

open Text

theorem oneLine_specialText {x : Binary64} {s : String} (h : x.specialText = some s) :
    OneLine s := by
  unfold specialText at h
  split at h
  · cases h
    decide
  split at h
  · cases h
    split <;> decide
  · cases h

theorem newline_not_mem_decimalDigits (n : Nat) : '\n' ∉ decimalDigits n :=
  newline_not_mem_toDigits (by decide) n

theorem oneLine_sign (negative : Bool) : OneLine (if negative then "-" else "") := by
  cases negative <;> decide

theorem oneLine_pointBefore (places : Nat) {digits : List Char} (h : '\n' ∉ digits) :
    OneLine (pointBefore places digits) := by
  unfold pointBefore
  split
  · exact oneLine_ofList.2 h
  · have hpadded : '\n' ∉ List.replicate (places + 1 - digits.length) '0' ++ digits := by
      simp [h]
    rw [oneLine_ofList, List.mem_append, List.mem_cons]
    rintro (hmem | hpoint | hmem)
    · exact hpadded (List.mem_of_mem_take hmem)
    · exact absurd hpoint (by decide)
    · exact hpadded (List.mem_of_mem_drop hmem)

theorem oneLine_positional {digits : List Char} (h : '\n' ∉ digits) (e : Int) :
    OneLine (positional digits e) := by
  cases e with
  | ofNat k => simp [positional, h]
  | negSucc k => exact oneLine_pointBefore (k + 1) h

theorem oneLine_fixedText (places : Nat) (x : Binary64) : OneLine (x.fixedText places) := by
  unfold fixedText
  split
  · exact oneLine_specialText ‹_›
  · exact oneLine_append.2
      ⟨oneLine_sign _, oneLine_pointBefore places (newline_not_mem_decimalDigits _)⟩

theorem oneLine_shortestText (x : Binary64) : OneLine x.shortestText := by
  unfold shortestText
  split
  · exact oneLine_specialText ‹_›
  · dsimp only
    split
    · exact oneLine_append.2 ⟨oneLine_sign _, by decide⟩
    · exact oneLine_append.2
        ⟨oneLine_sign _, oneLine_positional (newline_not_mem_decimalDigits _) _⟩

end Binary64

end WireProtocol
