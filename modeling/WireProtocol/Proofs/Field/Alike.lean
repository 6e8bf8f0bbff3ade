import Mathlib.Data.List.Forall2
import WireProtocol.Bytes.Range
import WireProtocol.Field.Bounds
import WireProtocol.Proofs.Field.Refresh

/-!
# Fields that differ in their state

`p.Alike modes g` says that `g` is `p` in another state: it has the kinds, names, sizes and formats
of `p`, with other values, modes, alternatives and elements, where the elements of a list are its
prototype in other states. Refreshing keeps a field alike (`Field.Alike.refresh`), and as far as the
modes agree it needs as many bytes at least (`Field.Alike.minLength`).
-/

set_option autoImplicit false

namespace WireProtocol

/-! ## Parts -/

section
variable (R : Field → Field → Prop)

/-- Members of one name whose fields are related. -/
inductive Member.Alike : Member Field → Member Field → Prop
  | mk (name : String) {f g : Field} : R f g → Alike ⟨name, f⟩ ⟨name, g⟩

/-- Bundles whose members are related one by one. The value of the length member and the trailing
bytes may be any. -/
inductive Bundle.Alike : Bundle Field → Bundle Field → Prop
  | plain {ms ms' : List (Member Field)} : List.Forall₂ (Member.Alike R) ms ms' →
    Alike (.plain ms) (.plain ms')
  | measured {head head' tail tail' : List (Member Field)} (name : String) (length : IntField)
      (v : Int64) (trailing trailing' : Bytes) : List.Forall₂ (Member.Alike R) head head' →
    List.Forall₂ (Member.Alike R) tail tail' →
    Alike (.measured head name length tail trailing)
      (.measured head' name (length.withValue v) tail' trailing')

/-- Alternatives of one name and tag whose bundles are related. -/
inductive Choice.Alike : Choice Field → Choice Field → Prop
  | mk (name : String) (tag : Int64) {b b' : Bundle Field} : b.Alike R b' →
    Alike ⟨name, tag, b⟩ ⟨name, tag, b'⟩

end

section
variable {R S : Field → Field → Prop}

theorem membersAlike_imp {ms ms' : List (Member Field)} (h : List.Forall₂ (Member.Alike R) ms ms')
    (hi : ∀ m ∈ ms, ∀ m' ∈ ms', R m.field m'.field → S m.field m'.field) :
    List.Forall₂ (Member.Alike S) ms ms' := by
  induction h with
  | nil => exact .nil
  | cons hm _ ih =>
    have ih := ih fun m hm m' hm' => hi m (.tail _ hm) m' (.tail _ hm')
    cases hm with
    | mk name hr => exact .cons (.mk name (hi _ (.head _) _ (.head _) hr)) ih

theorem Bundle.Alike.imp {b b' : Bundle Field} (h : b.Alike R b')
    (hi : ∀ m ∈ b.members, ∀ m' ∈ b'.members, R m.field m'.field → S m.field m'.field) :
    b.Alike S b' := by
  cases h with
  | plain h => exact .plain (membersAlike_imp h hi)
  | measured name length v trailing trailing' hh ht =>
    refine .measured name length v trailing trailing' ?_ ?_
    · exact membersAlike_imp hh fun m hm m' hm' =>
        hi m (List.mem_append_left _ hm) m' (List.mem_append_left _ hm')
    · exact membersAlike_imp ht fun m hm m' hm' =>
        hi m (List.mem_append_right _ (.tail _ hm)) m' (List.mem_append_right _ (.tail _ hm'))

theorem choicesAlike_imp {cs cs' : List (Choice Field)}
    (h : List.Forall₂ (Choice.Alike R) cs cs')
    (hi : ∀ c ∈ cs, ∀ c' ∈ cs', ∀ m ∈ c.bundle.members, ∀ m' ∈ c'.bundle.members,
      R m.field m'.field → S m.field m'.field) : List.Forall₂ (Choice.Alike S) cs cs' := by
  induction h with
  | nil => exact .nil
  | cons hc _ ih =>
    have ih := ih fun c hc c' hc' => hi c (.tail _ hc) c' (.tail _ hc')
    cases hc with
    | mk name tag hb =>
      have hb := hb.imp (hi _ (.head _) _ (.head _))
      exact .cons (.mk name tag hb) ih

/-- Two lists related one by one are related at each index. -/
theorem forall₂_getElem? {α β : Type} {T : α → β → Prop} {as : List α} {bs : List β}
    (h : List.Forall₂ T as bs) {i : Nat} {b : β} (hb : bs[i]? = some b) :
    ∃ a, as[i]? = some a ∧ T a b := by
  induction h generalizing i with
  | nil => cases hb
  | @cons a b' as bs hab _ ih =>
    cases i with
    | zero =>
      cases hb
      exact ⟨a, rfl, hab⟩
    | succ i => exact ih hb

end

/-! ## Fields -/

/-- The second field is the first one in another state. Modes of optional fields are related by
`modes`, so that `Alike (· = ·)` keeps them. Fields that hold bits or opaque bytes have no other
states here. -/
inductive Field.Alike (modes : OptionalMode → OptionalMode → Prop) : Field → Field → Prop
  | int (f : IntField) (v : Int64) : Alike modes (.int f) (.int (f.withValue v))
  | enumeration (f : EnumField) (v : Int64) :
    Alike modes (.enumeration f) (.enumeration (f.withValue v))
  | bitmask (f : BitmaskField) (v : UInt64) :
    Alike modes (.bitmask f) (.bitmask { f with value := v })
  /-- A pattern has the size of the precision. -/
  | float (f : FloatField) {bits : UInt64} : bits.toNat < 256 ^ f.precision.bytes →
    Alike modes (.float f) (.float { f with bits })
  /-- A fixed size is kept. -/
  | text (f : ByteField) {data : Bytes} : ({ f with data } : ByteField).isValid = true →
    Alike modes (.text f) (.text { f with data })
  | bytes (f : ByteField) {data : Bytes} : ({ f with data } : ByteField).isValid = true →
    Alike modes (.bytes f) (.bytes { f with data })
  /-- Only elements with a length of their own have bytes that they did not read. -/
  | list (l : ListOf Field) {es : List (Field × Bytes)} :
    (∀ e ∈ es, Alike modes l.prototype e.1) → (l.elemLength = none → ∀ e ∈ es, e.2 = []) →
    Alike modes (.list l) (.list { l with elements := es })
  | bundle {b b' : Bundle Field} : b.Alike (Alike modes) b' → Alike modes (.bundle b) (.bundle b')
  | optional (o : Optional Field) {inner : Field} {mode : OptionalMode} :
    Alike modes o.inner inner → modes o.mode mode →
    Alike modes (.optional o) (.optional { o with inner, mode })
  /-- Some alternative is chosen. -/
  | variant (v : Variant Field) {alternatives : List (Choice Field)} {current : Nat} :
    List.Forall₂ (Choice.Alike (Alike modes)) v.alternatives alternatives →
    current < alternatives.length → Alike modes (.variant v) (.variant ⟨alternatives, current⟩)

/-! ## Refreshing -/

section
variable {R : Field → Field → Prop}

theorem membersAlike_refresh {ms ms' : List (Member Field)}
    (h : List.Forall₂ (Member.Alike fun f g => R f g.refresh.1) ms ms') :
    List.Forall₂ (Member.Alike R) ms (refreshMembers ms').1 := by
  rw [refreshMembers_eq]
  induction h with
  | nil => exact .nil
  | cons hm _ ih =>
    cases hm with
    | mk name hr => exact .cons (.mk name hr) ih

theorem Bundle.Alike.refresh {b b' : Bundle Field} (h : b.Alike (fun f g => R f g.refresh.1) b') :
    b.Alike R (refreshBundle b').1 := by
  cases h with
  | plain h => exact .plain (membersAlike_refresh h)
  | measured name length v trailing trailing' hh ht =>
    simp only [refreshBundle, IntField.refreshed_eq]
    exact .measured name length _ trailing trailing' (membersAlike_refresh hh)
      (membersAlike_refresh ht)

theorem choicesAlike_refresh {cs cs' : List (Choice Field)} {i : Nat}
    (h : List.Forall₂ (Choice.Alike R) cs cs')
    (hr : List.Forall₂ (Choice.Alike fun f g => R f g.refresh.1) cs cs') :
    List.Forall₂ (Choice.Alike R) cs (refreshChoice cs' i).1 := by
  rw [refreshChoice_eq]
  induction h generalizing i with
  | nil => cases i <;> exact .nil
  | cons hc hcs ih =>
    cases hr with
    | cons hrc hrcs =>
      cases i with
      | zero =>
        cases hrc with
        | mk name tag hb => exact .cons (.mk name tag hb.refresh) hcs
      | succ i => exact .cons hc (ih hrcs)

end

section
variable {modes : OptionalMode → OptionalMode → Prop}

theorem length_refreshChoice (cs : List (Choice Field)) (i : Nat) :
    (refreshChoice cs i).1.length = cs.length := by
  rw [refreshChoice_eq]
  exact List.length_modify _ _ _

/-- **Refreshing changes the state alone.** -/
theorem Field.Alike.refresh {p g : Field} (h : p.Alike modes g) : p.Alike modes g.refresh.1 := by
  induction p generalizing g with
  | list l ih _ =>
    cases h with
    | @list _ es hes ht =>
      obtain ⟨prototype, size, elemLength, elements⟩ := l
      simp only [Field.refresh, refreshElements_eq, onFirst, List.reverse_nil, List.nil_append]
      refine .list ⟨prototype, size, elemLength, elements⟩ (fun e he => ?_) fun hn e he => ?_
      · obtain ⟨e, hmem, rfl⟩ := List.mem_map.1 he
        exact ih (hes e hmem)
      · obtain ⟨e, hmem, rfl⟩ := List.mem_map.1 he
        exact ht hn e hmem
  | bundle b ih =>
    cases h with
    | bundle hb => exact .bundle (hb.imp fun m hm _ _ hr => ih m hm hr).refresh
  | optional o ih _ =>
    cases h with
    | @optional _ inner mode hi hm =>
      cases mode with
      | present => exact .optional o (ih hi) hm
      | missing => exact .optional o hi hm
      | tentative => exact .optional o hi hm
  | variant v ih =>
    cases h with
    | @variant _ alternatives current hcs hc =>
      refine .variant v (choicesAlike_refresh hcs ?_) ?_
      · exact choicesAlike_imp hcs fun c hc _ _ m hm _ _ hr => ih c hc m hm hr
      · rw [length_refreshChoice]
        exact hc
  | bitfield b => cases h
  | unknown data => cases h
  | _ =>
    cases h
    constructor <;> assumption

end

/-! ## The least length -/

theorem membersMinLength_congr {ms ms' : List (Member Field)}
    (h : List.Forall₂ (Member.Alike fun f g => g.minLength = f.minLength) ms ms') :
    membersMinLength ms' = membersMinLength ms := by
  induction h with
  | nil => rfl
  | cons hm _ ih =>
    cases hm with
    | mk name hf => simp only [membersMinLength, hf, ih]

theorem bundleMinLength_congr {b b' : Bundle Field}
    (h : b.Alike (fun f g => g.minLength = f.minLength) b') :
    bundleMinLength b' = bundleMinLength b := by
  cases h with
  | plain h => exact membersMinLength_congr h
  | measured name length v trailing trailing' hh ht =>
    simp only [bundleMinLength, membersMinLength_congr hh, membersMinLength_congr ht]
    rfl

theorem choicesMinLength_congr {cs cs' : List (Choice Field)}
    (h : List.Forall₂ (Choice.Alike fun f g => g.minLength = f.minLength) cs cs') :
    choicesMinLength cs' = choicesMinLength cs := by
  induction h with
  | nil => rfl
  | cons hc _ ih =>
    cases hc with
    | mk name tag hb => simp only [choicesMinLength, bundleMinLength_congr hb, ih]

/-- The least length does not depend on the state but for the modes. -/
theorem Field.Alike.minLength {p g : Field} (h : p.Alike (· = ·) g) :
    g.minLength = p.minLength := by
  induction p generalizing g with
  | list l _ _ =>
    cases h
    obtain ⟨prototype, size, elemLength, elements⟩ := l
    cases size <;> simp only [Field.minLength]
  | bundle b ih =>
    cases h with
    | bundle hb =>
      simp only [Field.minLength]
      exact bundleMinLength_congr (hb.imp fun m hm _ _ hr => ih m hm hr)
  | optional o ih _ =>
    cases h with
    | optional _ hi hm =>
      subst hm
      simp only [Field.minLength, ih hi]
  | variant v ih =>
    cases h with
    | variant _ hcs _ =>
      have hmin := choicesMinLength_congr <|
        choicesAlike_imp hcs fun c hc _ _ m hm _ _ hr => ih c hc m hm hr
      simp only [Field.minLength, hmin]
  | bitfield b => cases h
  | unknown data => cases h
  | _ =>
    cases h
    rfl

end WireProtocol
