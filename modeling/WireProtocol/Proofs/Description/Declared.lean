import WireProtocol.Description.Resolution
import WireProtocol.Proofs.Description.References

/-!
# What a description declares

A description that resolves has a frame and messages for what it declares, one by one: each message
has the declared fields, as the presence rules leave them, and each layer comes from a declaration.
-/

set_option autoImplicit false

namespace WireProtocol

/-- The types of a description. -/
def Description.table (d : Description) : TypeTable := ⟨d.order.getD .big, TypeTable.typesOf d⟩

/-- What the rules of a message may make of a declared field: it is made optional if it has a
condition, and brought into a mode and refreshed for each rule. -/
inductive Field.Becomes : Field → Field → Prop
  | kept (f : Field) : Becomes f f
  | optional (f : Field) : Becomes f (.optional (.ofField f .missing))
  | refresh {f g : Field} (mode : Option OptionalMode) :
      Becomes f g → Becomes f (g.inMode mode).1.refresh.1

namespace TypeTable

variable {t : TypeTable}

theorem ofDescription_ok {d : Description} (h : ofDescription d = .ok t) : t = d.table := by
  unfold ofDescription at h
  split at h
  · cases h
  · exact (Except.ok.inj h).symm

/-! ## Messages -/

/-- The member of a message has the name of the declaration and its field, as the rules of the
message leave it. -/
def FieldOf (t : TypeTable) (message : String) (d : FieldDecl) (m : Member Field) : Prop :=
  m.name = d.name ∧ ∃ f, t.field (memberPath message d.name) d.type d.attrs = .ok f ∧
    f.Becomes m.field

theorem addField_ok {m m' : Message} {d : FieldDecl} (h : t.addField m d = .ok m') :
    m.field? d.name = none ∧
      ∃ new, m' = { m with fields := m.fields ++ [new] } ∧ t.FieldOf m.name d new := by
  simp only [addField, throw, throwThe, MonadExceptOf.throw, check_eq_ok, bind_eq_ok,
    pure_eq_ok] at h
  obtain ⟨hnew, f, hf, rfl⟩ := h
  refine ⟨by simpa using hnew, ⟨d.name, _⟩, rfl, rfl, f, hf, ?_⟩
  dsimp only
  split
  · exact .optional f
  · exact .kept f

theorem foldlM_addField_ok {m m' : Message} {ds : List FieldDecl}
    (h : ds.foldlM t.addField m = .ok m') :
    ∃ new, m' = { m with fields := m.fields ++ new } ∧
      List.Forall₂ (t.FieldOf m.name) ds new ∧
      ((m.fields.map (·.name)).Nodup → (m'.fields.map (·.name)).Nodup) := by
  induction ds generalizing m with
  | nil =>
    cases h
    exact ⟨[], by rw [List.append_nil], .nil, id⟩
  | cons d ds ih =>
    simp only [List.foldlM_cons, bind_eq_ok] at h
    obtain ⟨_, hd, h⟩ := h
    obtain ⟨hnew, first, rfl, hfirst⟩ := addField_ok hd
    obtain ⟨new, rfl, hds, hnodup⟩ := ih h
    refine ⟨first :: new, by rw [List.append_assoc]; rfl, .cons hfirst hds, fun hm => ?_⟩
    refine hnodup (nodup_names_concat hm ?_)
    rw [hfirst.1]
    simpa [Message.field?, Member.find?] using hnew

end TypeTable

/-- The second message is the first one with rules added and applied. -/
inductive Message.Ruled : Message → Message → Prop
  | kept (m : Message) : Ruled m m
  | refresh {m m' : Message} (rules : List PresenceRule) :
      Ruled m m' → Ruled m { m' with rules }.refresh.1

/-- Refreshing brings each field into some mode and refreshes it. -/
theorem refreshFields_members (rules : List PresenceRule) (version : UInt64)
    (before ms : List (Member Field)) :
    ∃ fresh, (refreshFields rules version before ms).1 = before ++ fresh ∧
      List.Forall₂ (fun m m' => m'.name = m.name ∧
        ∃ mode, m'.field = (m.field.inMode mode).1.refresh.1) ms fresh := by
  induction ms generalizing before with
  | nil => exact ⟨[], (List.append_nil _).symm, .nil⟩
  | cons m ms ih =>
    let mode := requiredMode rules version before
    let m' : Member Field := { m with field := (m.field.inMode mode).1.refresh.1 }
    obtain ⟨fresh, heq, hms⟩ := ih (before ++ [m'])
    refine ⟨m' :: fresh, ?_, .cons ⟨rfl, mode, rfl⟩ hms⟩
    rw [refreshFields, heq, List.append_assoc]
    rfl

theorem Message.Ruled.fields {m m' : Message} (h : m.Ruled m') :
    m'.name = m.name ∧ List.Forall₂ (fun x x' => x'.name = x.name ∧
      ∀ f : Field, f.Becomes x.field → f.Becomes x'.field) m.fields m'.fields := by
  induction h with
  | kept => exact ⟨rfl, List.forall₂_same.2 fun x _ => ⟨rfl, fun _ hf => hf⟩⟩
  | @refresh m' rules _ ih =>
    obtain ⟨hname, hms⟩ := ih
    obtain ⟨fresh, heq, hfresh⟩ := refreshFields_members rules m'.version [] m'.fields
    have heq : (Message.refresh { m' with rules }).1.fields = fresh := heq
    refine ⟨hname, heq ▸ forall₂_comp (fun x y z hxy hyz => ?_) hms hfresh⟩
    obtain ⟨hname, mode, hmode⟩ := hyz
    exact ⟨hname.trans hxy.1, fun f hf => hmode ▸ .refresh mode (hxy.2 f hf)⟩

theorem Message.withPresence?_ok {m m' : Message} {target : String} {presence : Presence}
    (h : m.withPresence? target presence = .ok m') :
    ∃ rules, m' = { m with rules }.refresh.1 := by
  unfold withPresence? at h
  split at h
  · cases h
  · exact ⟨_, (Except.ok.inj h).symm⟩

namespace TypeTable

variable {t : TypeTable}

theorem foldlM_addCondition_ok {m m' m'' : Message} {ds : List FieldDecl} (hm : m.Ruled m')
    (h : ds.foldlM addCondition m' = .ok m'') : m.Ruled m'' := by
  induction ds generalizing m' with
  | nil =>
    cases h
    exact hm
  | cons d ds ih =>
    simp only [List.foldlM_cons, bind_eq_ok] at h
    obtain ⟨next, hd, h⟩ := h
    refine ih ?_ h
    unfold addCondition at hd
    split at hd
    · cases hd
      exact hm
    · simp only [bind_eq_ok] at hd
      obtain ⟨p, -, hd⟩ := hd
      obtain ⟨rules, rfl⟩ := Message.withPresence?_ok (reporting_eq_ok.1 hd)
      exact .refresh rules hm

/-- **A message has the declared fields**, and their names differ. -/
theorem message_ok {d : MessageDecl} {m : Message} (h : t.message d = .ok m) :
    m.name = d.name ∧ List.Forall₂ (t.FieldOf d.name) d.fields m.fields ∧
      (m.fields.map (·.name)).Nodup := by
  simp only [message, bind_eq_ok] at h
  obtain ⟨id, -, m₁, hfields, h⟩ := h
  obtain ⟨new, rfl, hds, hnodup⟩ := foldlM_addField_ok hfields
  obtain ⟨hname, hms⟩ := (foldlM_addCondition_ok (.kept _) h).fields
  refine ⟨hname, forall₂_comp (fun d x x' hd hx => ?_) hds hms, ?_⟩
  · obtain ⟨hdname, f, hf, hbecomes⟩ := hd
    exact ⟨hx.1.trans hdname, f, hf, hx.2 f hbecomes⟩
  · rw [← map_eq_of_forall₂ (hms.imp fun _ _ hx => hx.1)]
    exact hnodup List.nodup_nil

theorem messages_ok {seen : List String} {ds : List MessageDecl} {ms : List Message}
    (h : t.messages seen ds = .ok ms) :
    List.Forall₂ (fun d m => t.message d = .ok m) ds ms ∧ (∀ d ∈ ds, d.name ∉ seen) ∧
      (ds.map (·.name)).Nodup := by
  induction ds generalizing seen ms with
  | nil =>
    cases h
    exact ⟨.nil, List.forall_mem_nil _, List.nodup_nil⟩
  | cons d ds ih =>
    simp only [messages, throw, throwThe, MonadExceptOf.throw, check_eq_ok, bind_eq_ok,
      pure_eq_ok] at h
    obtain ⟨hd, m, hm, ms, hms, rfl⟩ := h
    obtain ⟨hds, hnot, hnodup⟩ := ih hms
    refine ⟨.cons hm hds, List.forall_mem_cons.2 ⟨hd, fun x hx hs => ?_⟩, ?_⟩
    · exact hnot x hx (.tail _ hs)
    · refine List.nodup_cons.2 ⟨fun hmem => ?_, hnodup⟩
      obtain ⟨x, hx, hname⟩ := List.mem_map.1 hmem
      exact hnot x hx (hname ▸ .head _)

/-! ## Layers -/

theorem sentLayers_declared {frame : String} {afterPayload : Bool} {ds : List LayerDecl}
    {sent : List SentLayer × List SentLayer}
    (h : t.sentLayers frame afterPayload ds = .ok sent) {d : LayerDecl} (hd : d ∈ ds) :
    ∃ after l, t.layer frame after d = .ok l := by
  induction ds generalizing afterPayload sent with
  | nil => cases hd
  | cons d' ds ih =>
    simp only [sentLayers, bind_eq_ok] at h
    obtain ⟨l, hl, r, hr, -⟩ := h
    rcases List.mem_cons.1 hd with rfl | hd
    · exact ⟨afterPayload, l, hl⟩
    · exact ih hr hd

/-- The type of the id layer has a field. -/
theorem layer_id_ok {frame name : String} {after : Bool} {type : TypeSpec} {l : SentLayer}
    (h : t.layer frame after ⟨name, .id type⟩ = .ok l) :
    ∃ f, t.field (memberPath frame name) type {} = .ok f := by
  simp only [layer, bind_eq_ok] at h
  obtain ⟨f, hf, -⟩ := h
  exact ⟨f, hf⟩

theorem frameLayers_ok {d : FrameDecl} {layers : List Layer} (h : t.frameLayers d = .ok layers) :
    ∃ front back, t.sentLayers d.name false d.layers = .ok (front, back) ∧
      back.foldlM nest (front.map (·.layer)) = .ok layers := by
  simp only [frameLayers, throw, throwThe, MonadExceptOf.throw, check_eq_ok, bind_eq_ok] at h
  obtain ⟨-, ⟨front, back⟩, hsent, h⟩ := h
  exact ⟨front, back, hsent, h⟩

end TypeTable

/-! ## Protocols -/

theorem Frame.ofLayers?_ok {name : String} {layers : List Layer} {registry : Registry} {f : Frame}
    (h : Frame.ofLayers? name layers registry = .ok f) :
    f.layers = layers ∧ f.registry = registry := by
  unfold Frame.ofLayers? at h
  split at h
  · cases h
  · cases h
    exact ⟨rfl, rfl⟩

/-- **A resolved description** has one frame, and its messages and layers are the declared ones. -/
theorem Description.resolve_ok {d : Description} {p : Protocol} (h : d.resolve = .ok p) :
    ∃ frame, d.frames = [frame] ∧
      d.table.messages [] d.messages = .ok p.frame.registry.prototypes ∧
      d.table.frameLayers frame = .ok p.frame.layers := by
  simp only [resolve, bind_eq_ok] at h
  obtain ⟨t, ht, h⟩ := h
  obtain rfl := TypeTable.ofDescription_ok ht
  split at h
  · rename_i frame hframes
    simp only [pure_bind, bind_eq_ok, pure_eq_ok] at h
    obtain ⟨prototypes, hms, layers, hlayers, f, hf, rfl⟩ := h
    obtain ⟨hl, hr⟩ := Frame.ofLayers?_ok (TypeTable.reporting_eq_ok.1 hf)
    refine ⟨frame, hframes, ?_, ?_⟩
    · rw [hr]
      exact hms
    · rw [hl]
      exact hlayers
  · cases h
  · cases h

/-- The message prototypes come from the declared messages, field by field. -/
theorem Description.prototypes_declared {d : Description} {p : Protocol} (h : d.resolve = .ok p) :
    List.Forall₂ (fun md m => m.name = md.name ∧
      List.Forall₂ (d.table.FieldOf md.name) md.fields m.fields ∧ (m.fields.map (·.name)).Nodup)
      d.messages p.frame.registry.prototypes := by
  obtain ⟨_, -, hms, -⟩ := Description.resolve_ok h
  exact (TypeTable.messages_ok hms).1.imp fun _ _ => TypeTable.message_ok

end WireProtocol
