import WireProtocol.Proofs.Field.Length
import WireProtocol.Proofs.Field.Refresh

/-!
# Refreshing keeps the encoding

The value of a length member is for whoever looks at the field: writing and measuring a bundle count
what follows that member themselves. So a field and `Field.forgetLengths` of it, where all length
members are zero, have the same bytes and the same length; and as these values are all that
refreshing changes, it keeps the encoding (`Field.refresh_encoding`).
-/

set_option autoImplicit false

namespace WireProtocol

/-! ## Fields without the values of their length members -/

mutual

/-- The field with zero in the length member of each bundle and all else as it is. -/
def Field.forgetLengths : Field → Field
  | .bundle b => .bundle (forgetBundle b)
  | .optional ⟨inner, default, mode⟩ => .optional ⟨inner.forgetLengths, default, mode⟩
  | .variant ⟨alternatives, current⟩ => .variant ⟨forgetChoices alternatives, current⟩
  | .list ⟨prototype, size, elemLength, elements⟩ =>
    .list ⟨prototype, size, elemLength, forgetElements elements⟩
  | f => f

def forgetBundle : Bundle Field → Bundle Field
  | .plain ms => .plain (forgetMembers ms)
  | .measured head name length tail trailing =>
    .measured (forgetMembers head) name (length.withValue 0) (forgetMembers tail) trailing

def forgetMembers : List (Member Field) → List (Member Field)
  | [] => []
  | ⟨name, field⟩ :: ms => ⟨name, field.forgetLengths⟩ :: forgetMembers ms

def forgetElements : List (Field × Bytes) → List (Field × Bytes)
  | [] => []
  | (field, rest) :: es => (field.forgetLengths, rest) :: forgetElements es

def forgetChoices : List (Choice Field) → List (Choice Field)
  | [] => []
  | ⟨name, tag, bundle⟩ :: cs => ⟨name, tag, forgetBundle bundle⟩ :: forgetChoices cs

end

theorem forgetMembers_eq (ms : List (Member Field)) :
    forgetMembers ms = ms.map fun m => { m with field := m.field.forgetLengths } := by
  induction ms with
  | nil => rfl
  | cons m ms ih => rw [forgetMembers, ih, List.map_cons]

theorem forgetElements_eq (es : List (Field × Bytes)) :
    forgetElements es = es.map fun e => (e.1.forgetLengths, e.2) := by
  induction es with
  | nil => rfl
  | cons e es ih => rw [forgetElements, ih, List.map_cons]

theorem forgetChoices_eq (cs : List (Choice Field)) :
    forgetChoices cs = cs.map fun c => { c with bundle := forgetBundle c.bundle } := by
  induction cs with
  | nil => rfl
  | cons c cs ih => rw [forgetChoices, ih, List.map_cons]

/-! ## What refreshing changes -/

theorem forgetMembers_refresh {ms : List (Member Field)}
    (h : ∀ m ∈ ms, m.field.refresh.1.forgetLengths = m.field.forgetLengths) :
    forgetMembers (refreshMembers ms).1 = forgetMembers ms := by
  rw [refreshMembers_eq, forgetMembers_eq, forgetMembers_eq, List.map_map]
  exact List.map_congr_left fun m hm => congrArg (Member.mk m.name) (h m hm)

theorem forgetBundle_refresh {b : Bundle Field}
    (h : ∀ m ∈ b.members, m.field.refresh.1.forgetLengths = m.field.forgetLengths) :
    forgetBundle (refreshBundle b).1 = forgetBundle b := by
  cases b with
  | plain ms =>
    have hms : forgetMembers (refreshMembers ms).1 = forgetMembers ms := forgetMembers_refresh h
    rw [refreshBundle, onFirst, forgetBundle, hms, forgetBundle]
  | measured head name length tail trailing =>
    have hhead := forgetMembers_refresh fun m hm => h m (List.mem_append_left _ hm)
    have htail := forgetMembers_refresh fun m hm => h m (List.mem_append_right _ (.tail _ hm))
    simp only [refreshBundle, forgetBundle, hhead, htail, IntField.refreshed_eq]
    rfl

theorem forgetChoices_refresh {cs : List (Choice Field)} (i : Nat)
    (h : ∀ c ∈ cs, ∀ m ∈ c.bundle.members,
      m.field.refresh.1.forgetLengths = m.field.forgetLengths) :
    forgetChoices (refreshChoice cs i).1 = forgetChoices cs := by
  induction cs generalizing i with
  | nil => rfl
  | cons c cs ih =>
    cases i with
    | zero =>
      rw [refreshChoice, onFirst, forgetChoices, forgetChoices,
        forgetBundle_refresh (h c (.head _))]
    | succ i =>
      rw [refreshChoice, onFirst, forgetChoices, forgetChoices, ih i fun c hc => h c (.tail _ hc)]

/-- **Refreshing changes the values of length members alone.** -/
theorem Field.forgetLengths_refresh (f : Field) :
    f.refresh.1.forgetLengths = f.forgetLengths := by
  induction f with
  | list l _ ih =>
    obtain ⟨prototype, size, elemLength, elements⟩ := l
    simp only [refresh, refreshElements_eq, onFirst, List.reverse_nil, List.nil_append,
      forgetLengths, forgetElements_eq, List.map_map]
    congr 2
    exact List.map_congr_left fun e he => congrArg (·, e.2) (ih e he)
  | bundle b ih => rw [refresh, onFirst, forgetLengths, forgetBundle_refresh ih, forgetLengths]
  | optional o ih _ =>
    obtain ⟨inner, default, mode⟩ := o
    cases mode with
    | present =>
      show (Field.optional ⟨inner.refresh.1, default, .present⟩).forgetLengths = _
      rw [forgetLengths, forgetLengths, ih]
    | missing => rfl
    | tentative => rfl
  | variant v ih =>
    obtain ⟨alternatives, current⟩ := v
    rw [refresh, onFirst, forgetLengths, forgetLengths, forgetChoices_refresh current ih]
  | _ => rfl

/-! ## What is written -/

theorem writeMembers_forget {ms : List (Member Field)}
    (h : ∀ m ∈ ms, m.field.forgetLengths.write = m.field.write) :
    writeMembers (forgetMembers ms) = writeMembers ms := by
  induction ms with
  | nil => rfl
  | cons m ms ih =>
    rw [forgetMembers, writeMembers, writeMembers, h m (.head _),
      ih fun m hm => h m (.tail _ hm)]

/-- The length member is written with the count of the bytes behind it, whatever its value. -/
theorem writeBundle_forget {b : Bundle Field}
    (h : ∀ m ∈ b.members, m.field.forgetLengths.write = m.field.write) :
    writeBundle (forgetBundle b) = writeBundle b := by
  cases b with
  | plain ms =>
    rw [forgetBundle, writeBundle, writeBundle]
    exact writeMembers_forget h
  | measured head name length tail trailing =>
    have hhead := writeMembers_forget fun m hm => h m (List.mem_append_left _ hm)
    have htail := writeMembers_forget fun m hm => h m (List.mem_append_right _ (.tail _ hm))
    rw [forgetBundle, writeBundle, writeBundle, hhead, htail]
    rfl

theorem writeElements_forget (elemLength : Option IntField) {es : List (Field × Bytes)}
    (h : ∀ e ∈ es, e.1.forgetLengths.write = e.1.write) (n : Nat) (before : List Bytes) :
    writeElements elemLength n before (forgetElements es) =
      writeElements elemLength n before es := by
  induction es generalizing n before with
  | nil => rfl
  | cons e es ih =>
    cases n with
    | zero => rw [forgetElements, writeElements, writeElements]
    | succ n =>
      have ih := ih fun e he => h e (.tail _ he)
      rw [forgetElements, writeElements, writeElements, h e (.head _)]
      simp only [ih]

/-- **The values of length members are not written.** -/
theorem Field.write_forgetLengths (f : Field) : f.forgetLengths.write = f.write := by
  induction f with
  | list l _ ih =>
    obtain ⟨prototype, size, elemLength, elements⟩ := l
    have hl : (forgetElements elements).length = elements.length := by
      rw [forgetElements_eq, List.length_map]
    simp only [forgetLengths, write, hl, writeElements_forget elemLength ih]
  | bundle b ih => rw [forgetLengths, write, write, writeBundle_forget ih]
  | optional o ih _ => rw [forgetLengths, write, write, ih]
  | variant v ih =>
    obtain ⟨alternatives, current⟩ := v
    rw [forgetLengths, write, write, writeChoice_eq, writeChoice_eq, forgetChoices_eq,
      List.getElem?_map]
    cases hc : alternatives[current]? with
    | none => rfl
    | some c => exact writeBundle_forget (ih c (List.mem_of_getElem? hc))
  | _ => rfl

/-! ## What is measured -/

theorem membersLength_forget {ms : List (Member Field)}
    (h : ∀ m ∈ ms, m.field.forgetLengths.length = m.field.length) :
    membersLength (forgetMembers ms) = membersLength ms := by
  induction ms with
  | nil => rfl
  | cons m ms ih =>
    rw [forgetMembers, membersLength, membersLength, h m (.head _),
      ih fun m hm => h m (.tail _ hm)]

theorem bundleLength_forget {b : Bundle Field}
    (h : ∀ m ∈ b.members, m.field.forgetLengths.length = m.field.length) :
    bundleLength (forgetBundle b) = bundleLength b := by
  cases b with
  | plain ms =>
    rw [forgetBundle, bundleLength, bundleLength]
    exact membersLength_forget h
  | measured head name length tail trailing =>
    have hhead := membersLength_forget fun m hm => h m (List.mem_append_left _ hm)
    have htail := membersLength_forget fun m hm => h m (List.mem_append_right _ (.tail _ hm))
    rw [forgetBundle, bundleLength, bundleLength, hhead, htail]
    rfl

theorem elementsLength_forget (framed : Nat → Nat) {es : List (Field × Bytes)}
    (h : ∀ e ∈ es, e.1.forgetLengths.length = e.1.length) (n sum : Nat) :
    elementsLength framed n sum (forgetElements es) = elementsLength framed n sum es := by
  induction es generalizing n sum with
  | nil => rfl
  | cons e es ih =>
    cases n with
    | zero => rw [forgetElements, elementsLength, elementsLength]
    | succ n =>
      rw [forgetElements, elementsLength, elementsLength, h e (.head _),
        ih fun e he => h e (.tail _ he)]

/-- **The values of length members are not measured.** -/
theorem Field.length_forgetLengths (f : Field) : f.forgetLengths.length = f.length := by
  induction f with
  | list l _ ih =>
    obtain ⟨prototype, size, elemLength, elements⟩ := l
    have hl : (forgetElements elements).length = elements.length := by
      rw [forgetElements_eq, List.length_map]
    simp only [forgetLengths, length, hl, elementsLength_forget _ ih]
  | bundle b ih => rw [forgetLengths, length, length, bundleLength_forget ih]
  | optional o ih _ => rw [forgetLengths, length, length, ih]
  | variant v ih =>
    obtain ⟨alternatives, current⟩ := v
    rw [forgetLengths, length, length, choiceLength_eq, choiceLength_eq, forgetChoices_eq,
      List.getElem?_map]
    cases hc : alternatives[current]? with
    | none => rfl
    | some c => exact bundleLength_forget (ih c (List.mem_of_getElem? hc))
  | _ => rfl

/-! ## The encoding -/

/-- **Refreshing a field keeps its encoding.** The field may be of any kind, in any state and have
bundles with lengths at any depth. It has the same bytes afterwards or fails to be written for the
same reason, its length is the same, and so is all that it holds but for the values of length
members: the other values, the modes, the chosen alternatives, and the bytes that elements and
bundles left unread. -/
theorem Field.refresh_encoding (f : Field) :
    f.refresh.1.write = f.write ∧ f.refresh.1.length = f.length ∧
      f.refresh.1.forgetLengths = f.forgetLengths := by
  have h := f.forgetLengths_refresh
  refine ⟨?_, ?_, h⟩
  · rw [← write_forgetLengths f.refresh.1, h, write_forgetLengths]
  · rw [← length_forgetLengths f.refresh.1, h, length_forgetLengths]

/-- The length in front of an opaque byte is stale in the field but not in what is written. -/
example :
    let stale := (IntField.ofFormat ⟨.ofBytes 1, false, .big⟩).withValue 9
    let f : Field := .bundle (.measured [] "length" stale [] [7])
    f.refresh.2 = true ∧ f.write = .ok [1, 7] ∧ f.refresh.1.write = .ok [1, 7] :=
  ⟨rfl, rfl, rfl⟩

end WireProtocol
