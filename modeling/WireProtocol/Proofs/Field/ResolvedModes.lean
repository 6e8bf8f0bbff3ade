import WireProtocol.Proofs.Field.Remnants

/-!
# Resolved presence

A tentative field that has been read is present or missing from then on. `p.resolvedBy g` is `p` with
its tentative fields in the modes that they have in `g`. If `g` is what reading has made of `p`, this
is a twin of `g` in the same modes (`Field.Twin.resolvedBy`), and so it reads every input as `g`
does. Where reading meets no tentative field it is `p` itself (`Field.Decided.resolvedBy_eq`).
-/

set_option autoImplicit false

namespace WireProtocol

/-! ## Resolved modes -/

mutual

/-- The field with its tentative optional fields in the modes that they have in a twin. Elements of
lists are left out. -/
def Field.resolvedBy : Field → Field → Field
  | .bundle b, .bundle b' => .bundle (bundleResolvedBy b b')
  | .optional ⟨inner, default, mode⟩, .optional o =>
    .optional ⟨inner.resolvedBy o.inner, default, if mode = .tentative then o.mode else mode⟩
  | .variant ⟨alternatives, current⟩, .variant v =>
    .variant ⟨choicesResolvedBy alternatives v.alternatives, current⟩
  | f, _ => f
termination_by structural f => f

def bundleResolvedBy : Bundle Field → Bundle Field → Bundle Field
  | .plain ms, .plain ms' => .plain (membersResolvedBy ms ms')
  | .measured head name length tail trailing, .measured head' _ _ tail' _ =>
    .measured (membersResolvedBy head head') name length (membersResolvedBy tail tail') trailing
  | b, _ => b
termination_by structural b => b

def membersResolvedBy : List (Member Field) → List (Member Field) → List (Member Field)
  | ⟨name, field⟩ :: ms, m :: ms' => ⟨name, field.resolvedBy m.field⟩ :: membersResolvedBy ms ms'
  | ms, _ => ms
termination_by structural ms => ms

def choicesResolvedBy : List (Choice Field) → List (Choice Field) → List (Choice Field)
  | ⟨name, tag, bundle⟩ :: cs, c :: cs' =>
    ⟨name, tag, bundleResolvedBy bundle c.bundle⟩ :: choicesResolvedBy cs cs'
  | cs, _ => cs
termination_by structural cs => cs

end

section
variable {R : Field → Field → Prop}

theorem membersAlike_resolvedBy {ms ms' : List (Member Field)}
    (h : List.Forall₂ (Member.Alike fun f g => R (f.resolvedBy g) g) ms ms') :
    List.Forall₂ (Member.Alike R) (membersResolvedBy ms ms') ms' := by
  induction h with
  | nil => exact .nil
  | cons hm _ ih =>
    cases hm with
    | mk name hr => exact .cons (.mk name hr) ih

theorem Bundle.Alike.resolvedBy {b b' : Bundle Field}
    (h : b.Alike (fun f g => R (f.resolvedBy g) g) b') : (bundleResolvedBy b b').Alike R b' := by
  cases h with
  | plain h => exact .plain (membersAlike_resolvedBy h)
  | measured name length v trailing trailing' hh ht =>
    exact .measured name length v trailing trailing' (membersAlike_resolvedBy hh)
      (membersAlike_resolvedBy ht)

theorem choicesAlike_resolvedBy {cs cs' : List (Choice Field)}
    (h : List.Forall₂ (Choice.Alike fun f g => R (f.resolvedBy g) g) cs cs') :
    List.Forall₂ (Choice.Alike R) (choicesResolvedBy cs cs') cs' := by
  induction h with
  | nil => exact .nil
  | cons hc _ ih =>
    cases hc with
    | mk name tag hb => exact .cons (.mk name tag hb.resolvedBy) ih

end

/-- **Resolving as a twin did makes a twin in the same modes.** -/
theorem Field.Twin.resolvedBy {p g : Field} (h : p.Twin Resolves g) :
    (p.resolvedBy g).Twin (· = ·) g := by
  induction p generalizing g with
  | bundle b ih =>
    cases h with
    | bundle hb => exact .bundle (hb.imp fun m hm _ _ hr => ih m hm hr).resolvedBy
  | optional o ih _ =>
    cases h with
    | @optional _ inner mode hm hi =>
      obtain ⟨first, default, old⟩ := o
      refine .optional ⟨first.resolvedBy inner, default, _⟩ ?_ fun hne => ih (hi hne)
      dsimp only
      split
      · rfl
      · rename_i hold
        exact hm.resolve_right hold
  | variant v ih =>
    cases h with
    | @variant _ alternatives current hcs =>
      obtain ⟨as, i⟩ := v
      refine .variant ⟨choicesResolvedBy as alternatives, i⟩ current (choicesAlike_resolvedBy ?_)
      exact choicesAlike_imp hcs fun c hc _ _ m hm _ _ hr => ih c hc m hm hr
  | _ =>
    cases h
    constructor <;> assumption

/-! ## Decided fields -/

/-- The fields directly inside a field that reading may read in place. Elements of a list are made
anew. -/
def Field.readParts : Field → List Field
  | .bundle b => b.members.map (·.field)
  | .optional o => [o.inner]
  | .variant v => v.alternatives.flatMap fun c => c.bundle.members.map (·.field)
  | _ => []

/-- Reading the second field may read the first one in place. -/
inductive Field.Meets (g : Field) : Field → Prop
  | self : Meets g g
  | part {f c : Field} : c ∈ f.readParts → Meets g c → Meets g f

/-- Reading the field meets no tentative one, so that no presence is left to the input. -/
def Field.Decided (f : Field) : Prop := ∀ o, Field.Meets (.optional o) f → o.mode ≠ .tentative

theorem Field.Decided.part {f c : Field} (h : f.Decided) (hc : c ∈ f.readParts) : c.Decided :=
  fun o ho => h o (.part hc ho)

/-- A field is decided if it is not tentative and the fields that it reads in place are decided. -/
theorem Field.decided_of_parts {f : Field} (hf : ∀ o, f = .optional o → o.mode ≠ .tentative)
    (hc : ∀ c ∈ f.readParts, c.Decided) : f.Decided := by
  intro o h
  cases h with
  | self => exact hf o rfl
  | part hm h => exact hc _ hm o h

theorem membersResolvedBy_eq {ms : List (Member Field)}
    (h : ∀ m ∈ ms, ∀ g, m.field.resolvedBy g = m.field) (ms' : List (Member Field)) :
    membersResolvedBy ms ms' = ms := by
  induction ms generalizing ms' with
  | nil => rfl
  | cons m ms ih =>
    cases ms' with
    | nil => rfl
    | cons m' ms' =>
      obtain ⟨name, field⟩ := m
      rw [membersResolvedBy, h _ (.head _), ih fun m hm => h m (.tail _ hm)]

theorem bundleResolvedBy_eq {b : Bundle Field}
    (h : ∀ m ∈ b.members, ∀ g, m.field.resolvedBy g = m.field) (b' : Bundle Field) :
    bundleResolvedBy b b' = b := by
  cases b with
  | plain ms =>
    cases b' with
    | plain ms' => exact congrArg Bundle.plain (membersResolvedBy_eq h ms')
    | measured => rfl
  | measured head name length tail trailing =>
    cases b' with
    | plain ms' => rfl
    | measured head' name' length' tail' trailing' =>
      rw [bundleResolvedBy, membersResolvedBy_eq fun m hm => h m (List.mem_append_left _ hm),
        membersResolvedBy_eq fun m hm => h m (List.mem_append_right _ (.tail _ hm))]

theorem choicesResolvedBy_eq {cs : List (Choice Field)}
    (h : ∀ c ∈ cs, ∀ m ∈ c.bundle.members, ∀ g, m.field.resolvedBy g = m.field)
    (cs' : List (Choice Field)) : choicesResolvedBy cs cs' = cs := by
  induction cs generalizing cs' with
  | nil => rfl
  | cons c cs ih =>
    cases cs' with
    | nil => rfl
    | cons c' cs' =>
      have hc := bundleResolvedBy_eq (h c (.head _))
      obtain ⟨name, tag, bundle⟩ := c
      rw [choicesResolvedBy, hc, ih fun c hc => h c (.tail _ hc)]

/-- **Nothing is to be resolved in a decided field.** -/
theorem Field.Decided.resolvedBy_eq {p : Field} (h : p.Decided) (g : Field) :
    p.resolvedBy g = p := by
  induction p generalizing g with
  | bundle b ih =>
    cases g with
    | bundle b' =>
      exact congrArg Field.bundle <| bundleResolvedBy_eq
        (fun m hm g => ih m hm (h.part (List.mem_map_of_mem hm)) g) b'
    | _ => rfl
  | optional o ih _ =>
    cases g with
    | optional o' =>
      have hinner := ih (h.part (.head _)) o'.inner
      have hmode := h o .self
      obtain ⟨inner, default, mode⟩ := o
      rw [resolvedBy, hinner, if_neg hmode]
    | _ => rfl
  | variant v ih =>
    cases g with
    | variant v' =>
      have hparts : ∀ c ∈ v.alternatives, ∀ m ∈ c.bundle.members, ∀ g,
          m.field.resolvedBy g = m.field := fun c hc m hm g =>
        ih c hc m hm (h.part (List.mem_flatMap.2 ⟨c, hc, List.mem_map_of_mem hm⟩)) g
      obtain ⟨as, i⟩ := v
      rw [resolvedBy, choicesResolvedBy_eq hparts]
    | _ => rfl
  | _ => cases g <;> rfl

end WireProtocol
