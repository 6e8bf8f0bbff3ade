import Mathlib.Algebra.GroupWithZero.Nat
import WireProtocol.Proofs.Description.Permitted

/-!
# The budget of fixed sizes

A fixed number of elements is refused if it is too great for their weight. The weight of a field
bounds what it holds (`Field.content_le_weight`), unless a variant is inside whose other alternatives
hold more than the first one: all of them weigh as much as that. So the elements of a list of fixed
size hold no more than the limit if each variant in them weighs what its alternatives do
(`Description.resolve_budget`); otherwise they may hold more (`twoAlternatives_unbounded`).
-/

set_option autoImplicit false

namespace WireProtocol

/-! ## Content -/

mutual

/-- How many scalars and bytes of data a field holds, those of all alternatives of a variant and of
the inner field of an optional one included. -/
def Field.content : Field → Nat
  | .text f => 1 + f.data.length
  | .bytes f => 1 + f.data.length
  | .list ⟨prototype, _, _, elements⟩ => prototype.content + elementsContent elements
  | .bundle b => bundleContent b
  | .bitfield b => b.members.length
  | .optional ⟨inner, _, _⟩ => inner.content
  | .variant ⟨alternatives, _⟩ => choicesContent alternatives
  | .unknown data => data.length
  | _ => 1

def bundleContent : Bundle Field → Nat
  | .plain ms => membersContent ms
  | .measured head _ _ tail _ => membersContent head + 1 + membersContent tail

def membersContent : List (Member Field) → Nat
  | [] => 0
  | ⟨_, field⟩ :: ms => field.content + membersContent ms

def elementsContent : List (Field × Bytes) → Nat
  | [] => 0
  | (field, _) :: es => field.content + elementsContent es

def choicesContent : List (Choice Field) → Nat
  | [] => 0
  | ⟨_, _, bundle⟩ :: cs => bundleContent bundle + choicesContent cs

end

/-- A variant weighs at least what all its alternatives weigh together. -/
def Field.WeighsAll : Field → Prop
  | .variant v => (v.alternatives.map (bundleWeight ·.bundle)).sum ≤ (Field.variant v).weight
  | _ => True

theorem membersContent_le {ms : List (Member Field)}
    (h : ∀ m ∈ ms, m.field.content ≤ m.field.weight) : membersContent ms ≤ membersWeight ms := by
  induction ms with
  | nil => exact Nat.le_refl 0
  | cons m ms ih =>
    obtain ⟨hm, hms⟩ := List.forall_mem_cons.1 h
    exact Nat.add_le_add hm (ih hms)

theorem bundleContent_le {b : Bundle Field} (h : ∀ m ∈ b.members, m.field.content ≤ m.field.weight) :
    bundleContent b ≤ bundleWeight b := by
  cases b with
  | plain ms => exact Nat.le_add_left_of_le (membersContent_le h)
  | measured head name length tail trailing =>
    obtain ⟨hhead, htail⟩ := List.forall_mem_append.1 h
    have := membersContent_le hhead
    have := membersContent_le (List.forall_mem_cons.1 htail).2
    rw [bundleContent, bundleWeight]
    omega

theorem elementsContent_le {es : List (Field × Bytes)} (sum : Nat)
    (h : ∀ e ∈ es, e.1.content ≤ e.1.weight) : sum + elementsContent es ≤ elementsWeight sum es := by
  induction es generalizing sum with
  | nil => exact Nat.le_refl sum
  | cons e es ih =>
    obtain ⟨he, hes⟩ := List.forall_mem_cons.1 h
    have := ih (sum + e.1.weight) hes
    rw [elementsContent, elementsWeight]
    omega

theorem choicesContent_le {cs : List (Choice Field)}
    (h : ∀ c ∈ cs, ∀ m ∈ c.bundle.members, m.field.content ≤ m.field.weight) :
    choicesContent cs ≤ (cs.map (bundleWeight ·.bundle)).sum := by
  induction cs with
  | nil => exact Nat.le_refl 0
  | cons c cs ih =>
    obtain ⟨hc, hcs⟩ := List.forall_mem_cons.1 h
    rw [List.map_cons, List.sum_cons]
    exact Nat.add_le_add (bundleContent_le hc) (ih hcs)

/-- **A field weighs at least what it holds**, if each variant in it weighs what its alternatives
do. -/
theorem Field.content_le_weight {f : Field} (hp : f.Everywhere Permitted)
    (hw : f.Everywhere WeighsAll) : f.content ≤ f.weight := by
  induction f using Field.inductionOnChildren with
  | step f ih =>
  obtain ⟨hnode, hp⟩ := everywhere_iff.1 hp
  obtain ⟨hweighs, hw⟩ := everywhere_iff.1 hw
  have ih : ∀ c ∈ f.children, c.content ≤ c.weight := fun c hc => ih c hc (hp c hc) (hw c hc)
  cases f with
  | list l =>
    obtain ⟨prototype, size, elemLength, elements⟩ := l
    obtain ⟨hprototype, helements⟩ := List.forall_mem_cons.1 ih
    have := elementsContent_le (1 + prototype.weight) (List.forall_mem_map.1 helements)
    rw [content, weight]
    dsimp only at this hprototype
    omega
  | bundle b => exact bundleContent_le (List.forall_mem_map.1 ih)
  | optional o =>
    obtain ⟨inner, default, mode⟩ := o
    exact Nat.le_succ_of_le (ih inner (.head _))
  | variant v =>
    refine Nat.le_trans (choicesContent_le fun c hc m hm => ?_) hweighs
    exact ih m.field (List.mem_flatMap.2 ⟨c, hc, List.mem_map_of_mem hm⟩)
  | bitfield b => exact Nat.le_add_left _ _
  | unknown data => exact False.elim hnode
  | _ => exact Nat.le_refl _

/-! ## Descriptions -/

/-- **Lists of fixed size keep to the budget**: their elements weigh no more than the limit, and they
hold no more if each variant in an element weighs what its alternatives do. -/
theorem Description.resolve_budget (d : Description) (p : Protocol) (h : d.resolve = .ok p) :
    ∀ m ∈ p.frame.registry.prototypes, ∀ x ∈ m.fields, ∀ l n,
      Field.Within (.list l) x.field → l.size = .fixed n →
        n * l.prototype.weight ≤ fixedSizeLimit ∧
          (l.prototype.Everywhere Field.WeighsAll → n * l.prototype.content ≤ fixedSizeLimit) := by
  intro m hm x hx l n hl hn
  have hp := Description.fields_permitted h m hm x hx
  have hbound : n * l.prototype.weight ≤ fixedSizeLimit := hp _ hl n hn
  refine ⟨hbound, fun hw => ?_⟩
  have hprototype : l.prototype.Everywhere Field.Permitted :=
    fun g hg => hp g ((Field.Within.child (.head _) hg).trans hl)
  exact Nat.le_trans (Nat.mul_le_mul_left n (Field.content_le_weight hprototype hw)) hbound

/-- A message with a list of two variants of those alternatives: `Z` holds `n` bytes of data, `A`
none. -/
def twoAlternatives (n : Nat) (alternatives : List String) : Description where
  structs := [⟨"A", [⟨"tag", .int ⟨.ofBytes 1, false⟩, { default := some (.int 1) }⟩]⟩,
    ⟨"Z", [⟨"tag", .int ⟨.ofBytes 1, false⟩, { default := some (.int 2) }⟩,
      ⟨"data", .bytes (.fixed n), {}⟩]⟩]
  variants := [⟨"V", alternatives⟩]
  frames := [⟨"F", [⟨"size", .size ⟨.ofBytes 4, false⟩ 0 none⟩,
    ⟨"id", .id (.int ⟨.ofBytes 1, false⟩)⟩, ⟨"payload", .payload⟩]⟩]
  messages := [⟨"M", .number 1, none, false, [⟨"l", .list (.named "V") (.fixed 2) none, {}⟩]⟩]

/-- The alternative that holds no data. -/
def emptyChoice : Choice Field :=
  ⟨"A", 1, .plain [⟨"tag", .int ((IntField.ofFormat ⟨.ofBytes 1, false, .big⟩).withDefault 1)⟩]⟩

/-- The alternative that holds data. -/
def dataChoice (n : Nat) : Choice Field :=
  ⟨"Z", 2, .plain [⟨"tag", .int ((IntField.ofFormat ⟨.ofBytes 1, false, .big⟩).withDefault 2)⟩,
    ⟨"data", .bytes (.ofSize (.fixed n))⟩]⟩

/-- If the alternative with the data comes first, the list keeps to the budget. -/
theorem twoAlternatives_bounded : ∃ p, (twoAlternatives 3 ["Z", "A"]).resolve = .ok p ∧
    ∃ m ∈ p.frame.registry.prototypes, ∃ x ∈ m.fields, ∃ l, Field.Within (.list l) x.field ∧
      l.size = .fixed 2 ∧ l.prototype.Everywhere Field.WeighsAll ∧
      2 * l.prototype.content ≤ fixedSizeLimit := by
  let v : Field := .variant ⟨[dataChoice 3, emptyChoice], 0⟩
  have hv : v.Everywhere Field.WeighsAll := by
    refine Field.everywhere_iff.2 ⟨?_, fun c hc => Field.everywhere_iff.2 ?_⟩
    · change (_ : Nat) ≤ _
      decide
    simp only [v, Field.children, dataChoice, emptyChoice, Bundle.members, List.flatMap_cons,
      List.flatMap_nil, List.map_cons, List.map_nil, List.cons_append, List.nil_append,
      List.mem_cons, List.not_mem_nil, or_false] at hc
    rcases hc with rfl | rfl | rfl <;> exact ⟨trivial, List.forall_mem_nil _⟩
  have h := Description.resolve_budget (twoAlternatives 3 ["Z", "A"]) _ rfl _ (.head _) _ (.head _)
    (.ofPrototype v (.fixed 2) none) 2 .self rfl
  exact ⟨_, rfl, _, .head _, _, .head _, .ofPrototype v (.fixed 2) none, .self, rfl, hv, h.2 hv⟩

/-- If it comes second, two elements of 40000 bytes each are accepted. -/
theorem twoAlternatives_unbounded : ∃ p, (twoAlternatives 40000 ["A", "Z"]).resolve = .ok p ∧
    ∃ m ∈ p.frame.registry.prototypes, ∃ x ∈ m.fields, ∃ l, Field.Within (.list l) x.field ∧
      l.size = .fixed 2 ∧ fixedSizeLimit < 2 * l.prototype.content := by
  let v (n : Nat) : Field := .variant ⟨[emptyChoice, dataChoice n], 0⟩
  have hcontent (n : Nat) : (v n).content = n + 3 := by
    simp [v, emptyChoice, dataChoice, Field.content, choicesContent, bundleContent,
      membersContent, ByteField.ofSize]
    omega
  refine ⟨_, rfl, _, .head _, _, .head _, .ofPrototype (v 40000) (.fixed 2) none, .self, rfl, ?_⟩
  rw [ListOf.ofPrototype_prototype, hcontent]
  decide

end WireProtocol
