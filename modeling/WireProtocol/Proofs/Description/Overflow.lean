import WireProtocol.Proofs.Description.Declared
import WireProtocol.Proofs.Field.BitWidths

/-!
# Widths that overflow

Resolving a description adds up the widths of the members of each bitfield that it comes to, and
nothing else on the way can stop the program. If the widths of each declared bitfield add up to less
than `2 ^ 32`, whatever goes wrong is reported (`Description.resolve_reports`).
-/

set_option autoImplicit false

namespace WireProtocol

/-! ## Results -/

/-- Whatever went wrong is reported. -/
def Reports {α : Type} (result : Resolved α) : Prop := result ≠ .error .overflow

namespace Reports

variable {α β : Type}

theorem ok (a : α) : Reports (.ok a) := fun h => by cases h

theorem reported (e : DefinitionError) : Reports (.error (.reported e) : Resolved α) :=
  fun h => by cases h

theorem reporting (result : Except DefinitionError α) :
    Reports (WireProtocol.reporting result) := by
  cases result with
  | error e => exact reported e
  | ok a => exact ok a

theorem bind_ok {r : Resolved α} {k : α → Resolved β} (h : Reports r)
    (hk : ∀ a, r = .ok a → Reports (k a)) : Reports (r >>= k) := by
  cases r with
  | error e => exact fun he => h (congrArg Except.error (Except.error.inj he))
  | ok a => exact hk a rfl

theorem bind {r : Resolved α} {k : α → Resolved β} (h : Reports r) (hk : ∀ a, Reports (k a)) :
    Reports (r >>= k) := h.bind_ok fun a _ => hk a

theorem of_map {r : Resolved α} {f : α → β} (h : Reports (r.map f)) : Reports r := by
  rintro rfl
  exact h rfl

theorem mapM {as : List α} {f : α → Resolved β} (h : ∀ a ∈ as, Reports (f a)) :
    Reports (as.mapM f) := by
  induction as with
  | nil => exact ok []
  | cons a as ih =>
    obtain ⟨ha, has⟩ := List.forall_mem_cons.1 h
    rw [List.mapM_cons]
    exact ha.bind fun _ => (ih has).bind fun _ => ok _

theorem foldlM {as : List α} {f : β → α → Resolved β} (h : ∀ b a, Reports (f b a)) (b : β) :
    Reports (as.foldlM f b) := by
  induction as generalizing b with
  | nil => exact ok b
  | cons a as ih =>
    rw [List.foldlM_cons]
    exact (h b a).bind ih

theorem check {c : Prop} [Decidable c] {e : DefinitionError} {k : Resolved α} (hk : Reports k) :
    Reports (if c then (.error (.reported e) : Resolved PUnit) >>= fun _ => k else k) := by
  split
  · exact reported e
  · exact hk

theorem inside {around : List String} {name : String} {go : List String → Resolved α}
    (h : Reports (go (name :: around))) : Reports (TypeTable.inside around name go) := by
  unfold TypeTable.inside
  split
  · exact reported _
  · exact h

end Reports

/-! ## Scalars -/

theorem Literal.toInt_reports (path : String) (l : Literal) : Reports (l.toInt path) := by
  unfold toInt
  split
  · exact .ok _
  · exact .reported _

theorem Literal.toNumber_reports (path : String) (l : Literal) : Reports (l.toNumber path) := by
  unfold toNumber
  split
  · exact .ok _
  · exact .reported _

/-- The bits that the members of a bitfield are declared to take together. -/
def BitfieldDecl.askedBits (d : BitfieldDecl) : Nat :=
  (d.fields.map fun m => (m.attrs.bits.getD 0).toNat).sum

namespace TypeTable

variable {t : TypeTable}

theorem fixedBytes_reports (path : String) (s : IntSpec) : Reports (fixedBytes path s) := by
  unfold fixedBytes
  split
  · exact .ok _
  · exact .reported _

theorem size_reports (path : String) (weight : Nat) (s : SizeSpec) :
    Reports (t.size path weight s) := by
  unfold size
  split
  · split
    · exact .reported _
    · exact .ok _
  all_goals exact .ok _

theorem intField_reports (path : String) (s : IntSpec) (a : FieldAttrs) :
    Reports (t.intField path s a) := by
  unfold intField
  extract_lets _ f _ scaled
  have hscaled (f : IntField) : Reports (scaled f) := by
    refine .bind (.foldlM (fun f r => ?_) _) fun f =>
      .bind (.foldlM (fun f s => ?_) _) fun f => ?_
    · exact (r.1.toInt_reports path).bind fun _ => (r.2.toInt_reports path).bind fun _ => .ok _
    · exact (s.2.toInt_reports path).bind fun _ => .ok _
    · split
      · exact .ok _
      · split
        · exact .ok _
        · exact .reported _
      · exact (Literal.toInt_reports path _).bind fun _ => .ok _
  split
  · split
    · exact .reported _
    · exact hscaled _
  · exact hscaled f

theorem floatField_reports (path : String) (precision : FloatPrecision) (a : FieldAttrs) :
    Reports (t.floatField path precision a) := by
  unfold floatField
  refine .bind (.foldlM (fun f r => ?_) _) fun f =>
    .bind (.foldlM (fun f s => ?_) _) fun f => ?_
  · exact (r.1.toNumber_reports path).bind fun _ => (r.2.toNumber_reports path).bind fun _ => .ok _
  · exact (s.2.toNumber_reports path).bind fun _ => .ok _
  · dsimp only
    split
    · exact (Literal.toNumber_reports path _).bind fun _ => .ok _
    · exact .ok _

theorem enumField_reports (path : String) (d : EnumDecl) (a : FieldAttrs) :
    Reports (t.enumField path d a) := by
  unfold enumField
  dsimp only
  split
  · split
    · exact .ok _
    · exact .reported _
  · exact (Literal.toInt_reports path _).bind fun _ => .ok _
  · split <;> exact .ok _

theorem bitmaskField_reports (path : String) (d : BitmaskDecl) (a : FieldAttrs) :
    Reports (t.bitmaskField path d a) := by
  refine (fixedBytes_reports d.name d.storage).bind fun bytes => ?_
  dsimp only
  split
  · exact .reported _
  · split
    · exact (Literal.toInt_reports path _).bind fun _ => .ok _
    · exact .ok _

/-! ## Fields -/

theorem membersWith_reports {field : String → FieldDecl → Resolved Field}
    (h : ∀ path d, Reports (field path d)) (owner : String) (members : List (Member Field))
    (length : Option Nat) (ds : List FieldDecl) :
    Reports (membersWith field owner members length ds) := by
  induction ds generalizing members length with
  | nil => exact .ok _
  | cons d ds ih =>
    unfold membersWith
    exact .check (.check (.check ((h _ d).bind fun _ => ih _ _)))

section
variable {composed : TypeDecl → Resolved Field} (h : ∀ d ∈ t.types, Reports (composed d))
include h

theorem fieldWith_reports (path : String) (type : TypeSpec) (a : FieldAttrs) :
    Reports (t.fieldWith composed path type a) := by
  induction type generalizing a with
  | int s => exact (intField_reports path s a).bind fun _ => .ok _
  | float precision => exact (floatField_reports path precision a).bind fun _ => .ok _
  | text size =>
    refine (size_reports path 1 size).bind fun _ => ?_
    dsimp only
    split
    · exact .ok _
    · exact .ok _
    · exact .reported _
  | bytes size =>
    refine (size_reports path 1 size).bind fun _ => ?_
    dsimp only
    split <;> exact .ok _
  | list elem size elemLength ih =>
    exact (ih {}).bind fun _ => (size_reports path _ size).bind fun _ => .ok _
  | optional inner mode ih => exact (ih a).bind fun _ => .ok _
  | named name =>
    unfold fieldWith
    split
    · exact .reported _
    · exact (enumField_reports path _ a).bind fun _ => .ok _
    · exact (bitmaskField_reports path _ a).bind fun _ => .ok _
    · exact h _ (mem_of_find? ‹_›)

theorem bundleWith_reports (d : StructDecl) : Reports (t.bundleWith composed d) := by
  unfold bundleWith
  refine .bind (membersWith_reports (fun path d => fieldWith_reports h path d.type d.attrs) d.name
    [] none d.fields) ?_
  rintro ⟨members, length⟩
  cases length with
  | some i => exact .reporting _
  | none => exact .ok _

theorem bitfieldWith_reports {d : BitfieldDecl} (hd : d.askedBits < 2 ^ 32) :
    Reports (t.bitfieldWith composed d) := by
  refine (fixedBytes_reports d.name d.storage).bind fun bytes =>
    .bind_ok (.mapM fun m _ => ?_) fun members hms => ?_
  · dsimp only
    split
    · exact .reported _
    · exact (fieldWith_reports h _ m.type m.attrs).bind fun _ => .ok _
  · refine Bitfield.ofMembers?_ne_overflow ?_
    have hbits : d.fields.map (fun m => (m.attrs.bits.getD 0).toNat) =
        members.map (fun m => m.2.1.toNat) := by
      refine map_eq_of_forall₂ ((mapM_eq_ok.1 hms).imp fun m p hm => ?_)
      dsimp only at hm
      split at hm
      · cases hm
      · rename_i bits hbits
        simp only [bind_eq_ok, pure_eq_ok] at hm
        obtain ⟨f, -, rfl⟩ := hm
        rw [hbits]
        rfl
    rw [Bitfield.askedBits, ← hbits]
    exact hd

end

theorem alternativeWith_reports {bundle : StructDecl → Resolved (Bundle Field)}
    (h : ∀ s, .struct s ∈ t.types → Reports (bundle s)) (variant name : String) :
    Reports (t.alternativeWith bundle variant name) := by
  unfold alternativeWith
  split
  · exact (h _ (mem_of_find? ‹_›)).bind fun _ => .ok _
  · exact .reported _
  · exact .reported _

/-- The widths of the members of each declared bitfield add up to less than `2 ^ 32`. -/
def WidthsFit (t : TypeTable) : Prop := ∀ d, .bitfield d ∈ t.types → d.askedBits < 2 ^ 32

section
variable (hw : t.WidthsFit)
include hw

theorem composedWithin_reports (depth : Nat) (around : List String) {d : TypeDecl}
    (hd : d ∈ t.types) : Reports (t.composedWithin depth around d) := by
  induction depth generalizing around d with
  | zero => exact .reported _
  | succ depth ih =>
    cases d with
    | enumeration d | bitmask d => exact .reported _
    | struct d =>
      exact .inside ((bundleWith_reports (fun _ he => ih _ he) d).bind fun _ => .ok _)
    | bitfield d =>
      exact .inside ((bitfieldWith_reports (fun _ he => ih _ he) (hw d hd)).bind fun _ => .ok _)
    | variant d =>
      rw [composedWithin_variant]
      refine .inside (.bind (.mapM fun name _ => alternativeWith_reports (fun s hs => ?_) _ name)
        fun _ => (Reports.reporting _).bind fun _ => .ok _)
      exact .of_map (composedWithin_struct depth _ s ▸ ih _ hs)

theorem field_reports (path : String) (type : TypeSpec) (a : FieldAttrs) :
    Reports (t.field path type a) :=
  fieldWith_reports (fun _ hd => composedWithin_reports hw _ _ hd) path type a

/-! ## Messages -/

theorem addField_reports (m : Message) (d : FieldDecl) : Reports (t.addField m d) := by
  unfold addField
  exact .check ((field_reports hw _ d.type d.attrs).bind fun _ => .ok _)

end

theorem itemValue_reports (enumeration item : String) : Reports (t.itemValue enumeration item) := by
  unfold itemValue
  split
  · split
    · exact .ok _
    · exact .reported _
  · exact .reported _

theorem messageId_reports (message : String) (id : IdSpec) : Reports (t.messageId message id) := by
  cases id with
  | number n => exact .ok n
  | item enumeration item =>
    refine (itemValue_reports enumeration item).bind fun v => ?_
    split
    · exact .reported _
    · exact .ok _

theorem bitIndex_reports (m : Message) (mask bit : String) : Reports (bitIndex m mask bit) := by
  unfold bitIndex
  split
  · exact .ok _
  · split
    · exact .ok _
    · exact .reported _

theorem addCondition_reports (m : Message) (d : FieldDecl) : Reports (addCondition m d) := by
  have hpresence (c : ConditionSpec) : Reports (presence m c) := by
    cases c with
    | bit mask bit set => exact (bitIndex_reports m mask bit).bind fun _ => .ok _
    | versionAtLeast v | versionBelow v => exact .ok _
  unfold addCondition
  split
  · exact .ok m
  · exact (hpresence _).bind fun _ => .reporting _

section
variable (hw : t.WidthsFit)
include hw

theorem message_reports (d : MessageDecl) : Reports (t.message d) :=
  (messageId_reports d.name d.id).bind fun _ => (Reports.foldlM (addField_reports hw) _).bind
    fun _ => .foldlM addCondition_reports _

theorem messages_reports (seen : List String) (ds : List MessageDecl) :
    Reports (t.messages seen ds) := by
  induction ds generalizing seen with
  | nil => exact .ok []
  | cons d ds ih =>
    unfold messages
    exact .check ((message_reports hw d).bind fun _ => (ih _).bind fun _ => .ok _)

/-! ## Layers -/

theorem layer_reports (frame : String) (afterPayload : Bool) (d : LayerDecl) :
    Reports (t.layer frame afterPayload d) := by
  unfold layer
  extract_lets path plain checked
  have hchecked (l : SentLayer) : Reports (checked l) := .check (.ok l)
  split
  · exact (fixedBytes_reports path _).bind fun _ => hchecked _
  · exact hchecked _
  · exact (field_reports hw path _ {}).bind fun _ => hchecked _
  · exact hchecked _
  · split
    · exact .reported _
    · split
      · exact hchecked _
      · split
        · exact .reported _
        · exact hchecked _
  · exact hchecked _

theorem sentLayers_reports (frame : String) (afterPayload : Bool) (ds : List LayerDecl) :
    Reports (t.sentLayers frame afterPayload ds) := by
  induction ds generalizing afterPayload with
  | nil => exact .ok _
  | cons d ds ih =>
    exact (layer_reports hw frame afterPayload d).bind fun _ => (ih _).bind fun _ => .ok _

omit hw in
theorem nest_reports (nested : List Layer) (l : SentLayer) : Reports (nest nested l) := by
  unfold nest
  extract_lets around
  split
  · split
    · exact .ok _
    · exact .reported _
  · exact .ok _

theorem frameLayers_reports (d : FrameDecl) : Reports (t.frameLayers d) := by
  unfold frameLayers
  exact .check ((sentLayers_reports hw d.name false d.layers).bind fun _ =>
    .foldlM nest_reports _)

end

theorem ofDescription_reports (d : Description) : Reports (ofDescription d) := by
  unfold ofDescription
  split
  · exact .reported _
  · exact .ok _

end TypeTable

/-- **Whatever goes wrong with a description is reported** if the widths of the members of each
declared bitfield add up to less than `2 ^ 32`. -/
theorem Description.resolve_reports {d : Description} (hw : d.table.WidthsFit) :
    Reports d.resolve := by
  refine (TypeTable.ofDescription_reports d).bind_ok fun t ht => ?_
  obtain rfl := TypeTable.ofDescription_ok ht
  extract_lets resolveFrame
  have hframe (frame : FrameDecl) : Reports (resolveFrame frame) :=
    (TypeTable.messages_reports hw [] d.messages).bind fun _ =>
      (TypeTable.frameLayers_reports hw frame).bind fun _ => (Reports.reporting _).bind fun _ => .ok _
  split
  · exact hframe _
  · exact .reported _
  · exact .reported _

end WireProtocol
