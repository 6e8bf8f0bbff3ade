import WireProtocol.Proofs.Message.Reencoding

/-!
# What a field that was written consists of

Writing a composed field succeeds only if writing its parts does, and gives their bytes in order:
`Field.write_list_ok`, `writeMembers_cons_inv`, `writeBundle_measured_inv`. A list sends the
elements `ListOf.sent`: those it holds, cut or filled up with copies of its prototype if its size is
fixed.
-/

set_option autoImplicit false

namespace WireProtocol

theorem bind_eq_ok {ε α β : Type} {x : Except ε α} {f : α → Except ε β} {b : β} :
    (x >>= f) = .ok b ↔ ∃ a, x = .ok a ∧ f a = .ok b := by
  cases x <;> simp [bind, Except.bind]

theorem pure_eq_ok {ε α : Type} {a b : α} : (pure a : Except ε α) = .ok b ↔ a = b := by
  simp [pure, Except.pure]

/-! ## Byte strings -/

/-- The data of a fixed size is sent alone, any other behind what announces its size. -/
theorem ByteField.write_sized_ok {f : ByteField} {p : IntField} {b : Bytes}
    (hp : f.size.sizeField? = some p) (h : f.write = .ok b) :
    ∃ c, (p.withCount f.data.length).write = .ok c ∧ b = c ++ f.data := by
  obtain ⟨size, data⟩ := f
  cases size with
  | remainder => cases hp
  | fixed n => cases hp
  | count q | length q =>
    cases hp
    simp only [write, SizePolicy.writeSize, SizePolicy.sizeField?, bind_eq_ok, pure_eq_ok] at h
    obtain ⟨c, hc, rfl⟩ := h
    exact ⟨c, hc, rfl⟩

/-! ## Lists -/

/-- The elements that a list sends. -/
def ListOf.sent (l : ListOf Field) : List (Field × Bytes) :=
  match l.size with
  | .fixed n => l.elements.take n ++ List.replicate (n - l.elements.length) (l.prototype, [])
  | _ => l.elements

/-- A list that holds as many elements as it sends sends those that it holds. -/
theorem ListOf.sent_eq {l : ListOf Field} (h : ∀ n, l.size = .fixed n → l.elements.length = n) :
    l.sent = l.elements := by
  unfold sent
  split
  · rename_i n hs
    rw [h n hs, List.take_of_length_le (Nat.le_of_eq (h n hs)), Nat.sub_self,
      List.replicate_zero, List.append_nil]
  · rfl

theorem writeElement_inv {elemLength : Option IntField} {e : Field × Bytes} {c : Bytes}
    (h : writeElement elemLength e = .ok c) :
    ∃ content, e.1.write = .ok content ∧ frameElement elemLength (content ++ e.2) = .ok c :=
  bind_eq_ok.1 h

/-- An element with a length of its own stands behind it. -/
theorem frameElement_some {p : IntField} {content c : Bytes}
    (h : frameElement (some p) content = .ok c) :
    ∃ n, (p.withCount content.length).write = .ok n ∧ c = n ++ content := by
  simp only [frameElement, bind_eq_ok, pure_eq_ok] at h
  obtain ⟨n, hn, rfl⟩ := h
  exact ⟨n, hn, rfl⟩

namespace Written

variable {elemLength : Option IntField}

theorem append {es es' : List (Field × Bytes)} {b b' : Bytes} (h : Written elemLength es b)
    (h' : Written elemLength es' b') : Written elemLength (es ++ es') (b ++ b') := by
  induction h with
  | nil => exact h'
  | cons he _ ih =>
    rw [List.cons_append, List.append_assoc]
    exact .cons he ih

theorem replicate {e : Field × Bytes} {c : Bytes} (h : writeElement elemLength e = .ok c)
    (n : Nat) : Written elemLength (List.replicate n e) (List.replicate n c).flatten := by
  induction n with
  | zero => exact .nil
  | succ n ih =>
    rw [List.replicate_succ, List.replicate_succ, List.flatten_cons]
    exact .cons h ih

end Written

theorem writeElements_ok {elemLength : Option IntField} {n : Nat} {before : List Bytes}
    {es : List (Field × Bytes)} {b : Bytes} (h : writeElements elemLength n before es = .ok b) :
    ∃ bytes, Written elemLength (es.take n) bytes ∧ b = before.reverse.flatten ++ bytes := by
  induction es generalizing n before with
  | nil =>
    have hb : b = before.reverse.flatten := by
      cases n <;> simp only [writeElements] at h
      · exact (Except.ok.inj h).symm
      · exact (Except.ok.inj h).symm
    exact ⟨[], by rw [List.take_nil]; exact .nil, by rw [hb, List.append_nil]⟩
  | cons e es ih =>
    obtain ⟨field, rest⟩ := e
    cases n with
    | zero =>
      rw [writeElements] at h
      cases h
      exact ⟨[], .nil, (List.append_nil _).symm⟩
    | succ n =>
      simp only [writeElements, bind_eq_ok] at h
      obtain ⟨content, hw, framed, hf, h⟩ := h
      obtain ⟨bytes, hbytes, rfl⟩ := ih h
      refine ⟨framed ++ bytes, .cons (writeElement_ok hw hf) hbytes, ?_⟩
      rw [List.reverse_cons, List.flatten_append, List.flatten_singleton, List.append_assoc]

theorem writeElements_nil_ok {elemLength : Option IntField} {n : Nat} {es : List (Field × Bytes)}
    {b : Bytes} (h : writeElements elemLength n [] es = .ok b) :
    Written elemLength (es.take n) b := by
  obtain ⟨_, hes, rfl⟩ := writeElements_ok h
  exact hes

/-- **A list is written** as its elements behind what announces them. -/
theorem Field.write_list_ok {l : ListOf Field} {b : Bytes} (h : (Field.list l).write = .ok b) :
    ∃ c body, Written l.elemLength l.sent body ∧
      writePrefix l.size l.elements.length body.length = .ok c ∧ b = c ++ body := by
  obtain ⟨prototype, size, elemLength, elements⟩ := l
  cases size with
  | fixed n =>
    simp only [Field.write, bind_eq_ok] at h
    obtain ⟨present, hp, h⟩ := h
    have hpresent := writeElements_nil_ok hp
    by_cases hl : elements.length < n
    · -- the missing elements are copies of the prototype
      rw [if_pos hl] at h
      simp only [bind_eq_ok, pure_eq_ok] at h
      obtain ⟨content, hw, filler, hf, written, rfl, rfl⟩ := h
      refine ⟨[], _, hpresent.append (Written.replicate (writeElement_ok hw ?_) _), rfl, rfl⟩
      rw [List.append_nil]
      exact hf
    · rw [if_neg hl] at h
      cases h
      refine ⟨[], b, ?_, rfl, rfl⟩
      show Written elemLength (elements.take n ++ List.replicate (n - elements.length) _) _
      rw [Nat.sub_eq_zero_of_le (Nat.le_of_not_lt hl), List.replicate_zero, List.append_nil]
      exact hpresent
  | remainder =>
    simp only [Field.write, bind_eq_ok, pure_eq_ok] at h
    obtain ⟨written, hw, rfl⟩ := h
    have hwritten := writeElements_nil_ok hw
    rw [List.take_length] at hwritten
    exact ⟨[], written, hwritten, rfl, rfl⟩
  | count p | length p =>
    simp only [Field.write, bind_eq_ok, pure_eq_ok] at h
    obtain ⟨written, hw, c, hc, rfl⟩ := h
    have hwritten := writeElements_nil_ok hw
    rw [List.take_length] at hwritten
    exact ⟨c, written, hwritten, hc, rfl⟩

/-! ## Members -/

theorem writeMembers_cons_inv {m : Member Field} {ms : List (Member Field)} {b : Bytes}
    (h : writeMembers (m :: ms) = .ok b) :
    ∃ c d, m.field.write = .ok c ∧ writeMembers ms = .ok d ∧ b = c ++ d := by
  obtain ⟨name, field⟩ := m
  simp only [writeMembers, bind_eq_ok, pure_eq_ok] at h
  obtain ⟨c, hc, d, hd, rfl⟩ := h
  exact ⟨c, d, hc, hd, rfl⟩

theorem writeBundle_measured_inv {head tail : List (Member Field)} {name : String}
    {length : IntField} {trailing b : Bytes}
    (h : writeBundle (.measured head name length tail trailing) = .ok b) :
    ∃ c n d, writeMembers head = .ok c ∧
      (length.withCount (d ++ trailing).length).write = .ok n ∧ writeMembers tail = .ok d ∧
      b = c ++ n ++ (d ++ trailing) := by
  simp only [writeBundle, bind_eq_ok, pure_eq_ok] at h
  obtain ⟨d, hd, c, hc, n, hn, rfl⟩ := h
  exact ⟨c, n, d, hc, hn, hd, rfl⟩

/-! ## Alternatives -/

theorem writeChoice_eq (cs : List (Choice Field)) (i : Nat) :
    writeChoice cs i = (cs[i]?).elim (.ok []) fun c => writeBundle c.bundle := by
  induction cs generalizing i with
  | nil => rw [writeChoice]; rfl
  | cons c cs ih =>
    cases i with
    | zero => rw [writeChoice]; rfl
    | succ i => rw [writeChoice, ih, List.getElem?_cons_succ]

end WireProtocol
