import Mathlib.Data.List.Induction
import WireProtocol.Description.Resolution
import WireProtocol.Proofs.Frame.WireOrder

/-!
# Layers are sent in the order in which they are declared

A description lists the layers of a frame in wire order, and resolving it nests them: the checksums
after the payload are put one by one around the first layer that they cover. The bytes come in the
declared order just if each of them is put around all those before it
(`TypeTable.frameLayers_wireOrder`), as it is by default. A checksum that names a layer inside an
earlier one ends up inside it and is sent before it (`checkedTwice_reordered`).
-/

set_option autoImplicit false

namespace WireProtocol

namespace TypeTable

variable {t : TypeTable}

/-! ## Resolved layers -/

/-- After the payload only a checksum passes. -/
theorem checked_ok {afterPayload checksum : Bool} {sent l : SentLayer} {e : DefinitionFailure}
    (h : (if (afterPayload && !checksum) = true then
        (throw e : Resolved PUnit) >>= fun _ => pure sent
      else pure sent) = .ok l) :
    l = sent ∧ (afterPayload = true → checksum = true) := by
  split at h
  · cases h
  · rename_i hc
    cases h
    exact ⟨rfl, fun ha => by simpa [ha] using hc⟩

/-- A layer has its declared name and stands behind its inside if it comes after the payload. -/
theorem layer_ok {frame : String} {afterPayload : Bool} {d : LayerDecl} {l : SentLayer}
    (h : t.layer frame afterPayload d = .ok l) :
    l.layer.name = d.name ∧ l.layer.isTrailer = afterPayload := by
  -- a layer that is no checksum does not come after the payload
  have hbefore : (afterPayload = true → false = true) → false = afterPayload := by
    cases afterPayload <;> simp
  obtain ⟨name, spec⟩ := d
  unfold layer at h
  cases spec with
  | sync s value | id type =>
    simp only [bind_eq_ok, pure_bind] at h
    obtain ⟨_, -, h⟩ := h
    obtain ⟨rfl, hc⟩ := checked_ok h
    exact ⟨rfl, hbefore hc⟩
  | size s offset max | transport s version | payload =>
    simp only [pure_bind] at h
    obtain ⟨rfl, hc⟩ := checked_ok h
    exact ⟨rfl, hbefore hc⟩
  | checksum s algorithm covered =>
    dsimp only at h
    split at h
    · cases h
    cases afterPayload with
    | true =>
      rw [if_pos rfl, pure_bind] at h
      obtain ⟨rfl, -⟩ := checked_ok h
      exact ⟨rfl, rfl⟩
    | false =>
      rw [if_neg Bool.false_ne_true] at h
      split at h
      · cases h
      · rw [pure_bind] at h
        obtain ⟨rfl, -⟩ := checked_ok h
        exact ⟨rfl, rfl⟩

theorem sentLayers_ok {frame : String} {afterPayload : Bool} {ds : List LayerDecl}
    {front back : List SentLayer} (h : t.sentLayers frame afterPayload ds = .ok (front, back)) :
    (front ++ back).map (·.layer.name) = ds.map (·.name) ∧
      (∀ l ∈ front, l.layer.isTrailer = false) ∧ (∀ l ∈ back, l.layer.isTrailer = true) ∧
      (afterPayload = true → front = []) := by
  induction ds generalizing afterPayload front back with
  | nil =>
    rw [sentLayers] at h
    cases h
    exact ⟨rfl, List.forall_mem_nil _, List.forall_mem_nil _, fun _ => rfl⟩
  | cons d ds ih =>
    simp only [sentLayers, bind_eq_ok, pure_eq_ok] at h
    obtain ⟨l, hl, ⟨front', back'⟩, hds, h⟩ := h
    obtain ⟨hname, htrailer⟩ := layer_ok hl
    obtain ⟨hnames, hfront, hback, hnil⟩ := ih hds
    cases afterPayload with
    | true =>
      obtain rfl : front' = [] := hnil rfl
      cases h
      refine ⟨?_, List.forall_mem_nil _, List.forall_mem_cons.2 ⟨htrailer, hback⟩, fun _ => rfl⟩
      rw [List.nil_append] at hnames ⊢
      rw [List.map_cons, List.map_cons, hname, hnames]
    | false =>
      cases h
      refine ⟨?_, List.forall_mem_cons.2 ⟨htrailer, hfront⟩, hback, nofun⟩
      rw [List.cons_append, List.map_cons, List.map_cons, hname, hnames]

/-! ## Nesting -/

/-- Where a checksum after the payload is put among nested layers: at the layer that it names, or
else at the first that is no marker. -/
def SentLayer.position? (nested : List Layer) (l : SentLayer) : Option Nat :=
  match l.covered with
  | some name => nested.findIdx? (·.name == name)
  | none => some ((nested.findIdx? (!·.isSync)).getD 0)

theorem nest_ok {nested r : List Layer} {l : SentLayer} (h : nest nested l = .ok r) :
    ∃ i, l.position? nested = some i ∧ r = nested.take i ++ l.layer :: nested.drop i := by
  unfold nest at h
  unfold SentLayer.position?
  cases hcovered : l.covered with
  | none =>
    rw [hcovered] at h
    cases h
    exact ⟨_, rfl, rfl⟩
  | some name =>
    rw [hcovered] at h
    dsimp only at h ⊢
    cases hi : nested.findIdx? (·.name == name) with
    | none =>
      rw [hi] at h
      cases h
    | some i =>
      rw [hi] at h
      cases h
      exact ⟨i, rfl, rfl⟩

theorem foldlM_nest_concat {nested r : List Layer} {back : List SentLayer} {l : SentLayer} :
    (back ++ [l]).foldlM nest nested = .ok r ↔
      ∃ inner, back.foldlM nest nested = .ok inner ∧ nest inner l = .ok r := by
  simp only [List.foldlM_append, bind_eq_ok, List.foldlM_cons, List.foldlM_nil, pure_eq_ok,
    exists_eq_right]

/-- Nesting adds the checksums after the payload and no other layer. -/
theorem foldlM_nest_perm {nested r : List Layer} {back : List SentLayer}
    (h : back.foldlM nest nested = .ok r) : r.Perm (nested ++ back.map (·.layer)) := by
  induction back using List.reverseRecOn generalizing r with
  | nil =>
    cases h
    rw [List.map_nil, List.append_nil]
  | append_singleton back l ih =>
    obtain ⟨inner, hinner, hl⟩ := foldlM_nest_concat.1 h
    obtain ⟨i, -, rfl⟩ := nest_ok hl
    rw [List.map_append, ← List.append_assoc]
    refine List.perm_middle.trans ?_
    rw [List.take_append_drop]
    exact ((ih hinner).cons l.layer).trans (List.perm_append_singleton _ _).symm

/-- Each checksum after the payload is put around all of those before it. -/
def NestsOutward (nested : List Layer) (back : List SentLayer) : Prop :=
  ∀ ⦃earlier l later⦄, back = earlier ++ l :: later →
    ∀ ⦃inner i⦄, earlier.foldlM nest nested = .ok inner → l.position? inner = some i →
      ∀ x ∈ inner.take i, x.isTrailer = false

theorem NestsOutward.init {nested : List Layer} {back : List SentLayer} {l : SentLayer}
    (h : NestsOutward nested (back ++ [l])) : NestsOutward nested back := by
  rintro earlier l' later rfl
  exact h (List.append_assoc _ _ _)

theorem nestsOutward_concat {nested : List Layer} {back : List SentLayer} {l : SentLayer}
    (h : NestsOutward nested back)
    (hl : ∀ ⦃inner i⦄, back.foldlM nest nested = .ok inner → l.position? inner = some i →
      ∀ x ∈ inner.take i, x.isTrailer = false) : NestsOutward nested (back ++ [l]) := by
  intro earlier l' later heq
  rcases later.eq_nil_or_concat with rfl | ⟨later, last, rfl⟩
  · obtain ⟨hback, hl'⟩ := List.append_inj' heq rfl
    cases hback
    cases hl'
    exact hl
  · rw [List.concat_eq_append, ← List.cons_append, ← List.append_assoc] at heq
    exact h (List.append_inj' heq rfl).1

/-- A checksum that names no layer is put around all but markers. -/
theorem nestsOutward_of_default {nested : List Layer} {back : List SentLayer}
    (h : ∀ l ∈ back, l.covered = none) : NestsOutward nested back := by
  rintro earlier l later rfl inner i - hi x hx
  unfold SentLayer.position? at hi
  rw [h l (List.mem_append_right _ (.head _))] at hi
  cases hfind : inner.findIdx? (!·.isSync) with
  | none =>
    rw [hfind] at hi
    cases hi
    cases hx
  | some j =>
    rw [hfind] at hi
    cases hi
    -- only markers are in front of the first layer that is none
    obtain ⟨hj, -, hbefore⟩ := List.findIdx?_eq_some_iff_getElem.1 hfind
    obtain ⟨k, hk, rfl⟩ := List.mem_take_iff_getElem.1 hx
    rw [Option.getD_some] at hk
    exact Layer.isTrailer_of_isSync (by simpa using hbefore k (by omega))

section
variable {nested r : List Layer} {back : List SentLayer}

/-- Checksums that are put around those before them are sent after them. -/
theorem NestsOutward.wireOrder (hnested : ∀ l ∈ nested, l.isTrailer = false)
    (hback : ∀ l ∈ back, l.layer.isTrailer = true) (h : NestsOutward nested back)
    (hr : back.foldlM nest nested = .ok r) : wireOrder r = nested ++ back.map (·.layer) := by
  induction back using List.reverseRecOn generalizing r with
  | nil =>
    cases hr
    rw [List.map_nil, List.append_nil, wireOrder_of_no_trailer hnested]
  | append_singleton back l ih =>
    obtain ⟨inner, hinner, hl⟩ := foldlM_nest_concat.1 hr
    obtain ⟨i, hi, rfl⟩ := nest_ok hl
    have hlast := hback l (List.mem_append_right _ (.head _))
    rw [wireOrder_insert hlast (h rfl hinner hi), List.take_append_drop,
      ih (fun l hl => hback l (List.mem_append_left _ hl)) h.init hinner, List.map_append,
      List.append_assoc]
    rfl

/-- If layers of different names are sent in the declared order, each checksum was put around those
before it: the last one is sent last, so no other one is outside it. -/
theorem nestsOutward_of_wireOrder (hback : ∀ l ∈ back, l.layer.isTrailer = true)
    (hnames : ((nested ++ back.map (·.layer)).map (·.name)).Nodup)
    (hr : back.foldlM nest nested = .ok r)
    (h : (WireProtocol.wireOrder r).map (·.name) = (nested ++ back.map (·.layer)).map (·.name)) :
    NestsOutward nested back := by
  induction back using List.reverseRecOn generalizing r with
  | nil =>
    intro earlier l later heq
    simp at heq
  | append_singleton back l ih =>
    obtain ⟨inner, hinner, hl⟩ := foldlM_nest_concat.1 hr
    obtain ⟨i, hi, rfl⟩ := nest_ok hl
    have hlast := hback l (List.mem_append_right _ (.head _))
    have hsplit : nested ++ (back ++ [l]).map (·.layer) =
        (nested ++ back.map (·.layer)) ++ [l.layer] := by
      rw [List.map_append, List.append_assoc]
      rfl
    rw [hsplit, List.map_append] at hnames h
    have houtside : ∀ x ∈ inner.take i, x.isTrailer = false := by
      by_contra hne
      have hex : ∃ x ∈ inner.take i, x.isTrailer = true := by simpa using hne
      obtain ⟨before, x, hx, heq⟩ := wireOrder_last hex (l.layer :: inner.drop i)
      -- the checksum outside would be the last one under the name of this one
      rw [heq, List.map_append] at h
      have hname : x.name = l.layer.name := by
        simpa using (List.append_inj' h rfl).2
      have hmem := List.mem_map_of_mem (f := (·.name))
        ((foldlM_nest_perm hinner).subset (List.mem_of_mem_take hx))
      rw [hname] at hmem
      exact (List.nodup_append.1 hnames).2.2 _ hmem _ (.head _) rfl
    rw [wireOrder_insert hlast houtside, List.take_append_drop, List.map_append] at h
    have hinit := ih (fun l hl => hback l (List.mem_append_left _ hl))
      (List.nodup_append.1 hnames).1 hinner (List.append_inj' h rfl).1
    refine nestsOutward_concat hinit fun inner' j hinner' hj => ?_
    obtain rfl : inner = inner' := Except.ok.inj (hinner.symm.trans hinner')
    obtain rfl : i = j := Option.some.inj (hi.symm.trans hj)
    exact houtside

end

/-! ## Frames -/

/-- Each checksum that is declared after the payload is put around all of those before it, as it is
unless it names a layer inside one of them. -/
def CoversEarlier (t : TypeTable) (d : FrameDecl) : Prop :=
  ∀ ⦃front back⦄, t.sentLayers d.name false d.layers = .ok (front, back) →
    NestsOutward (front.map (·.layer)) back

/-- **A message is sent in the declared order of the layers**, if each checksum after the payload is
put around those before it; if the names of the layers differ, only then. Whatever the nesting is,
the bytes are the pieces of the layers in the order that flattening it gives. -/
theorem frameLayers_wireOrder {d : FrameDecl} {f : Frame} (h : t.frameLayers d = .ok f.layers) :
    (∀ m b, f.write m = .ok b → ∃ pieces,
        List.Forall₂ (Layer.Emits m f.layers) (wireOrder f.layers) pieces ∧ b = pieces.flatten) ∧
      (t.CoversEarlier d →
        (wireOrder f.layers).map (·.name) = d.layers.map (·.name)) ∧
      ((d.layers.map (·.name)).Nodup →
        (wireOrder f.layers).map (·.name) = d.layers.map (·.name) → t.CoversEarlier d) := by
  unfold frameLayers at h
  split at h
  · cases h
  simp only [bind_eq_ok] at h
  obtain ⟨⟨front, back⟩, hsent, h⟩ := h
  obtain ⟨hnames, hfront, hback, -⟩ := sentLayers_ok hsent
  have hnested : ∀ l ∈ front.map (·.layer), l.isTrailer = false := List.forall_mem_map.2 hfront
  have hdeclared : (front.map (·.layer) ++ back.map (·.layer)).map (·.name) =
      d.layers.map (·.name) := by
    rw [← hnames, ← List.map_append, List.map_map]
    rfl
  refine ⟨fun m b => f.write_wireOrder, fun hc => ?_, fun hnodup horder => ?_⟩
  · rw [NestsOutward.wireOrder hnested hback (hc hsent) h, hdeclared]
  · rintro front' back' hsent'
    cases hsent.symm.trans hsent'
    rw [← hdeclared] at hnodup horder
    exact nestsOutward_of_wireOrder hback hnodup h horder

/-- A frame with two checksums behind the payload, of which the second one may name a layer. -/
def checkedTwice (covered : Option String) : FrameDecl where
  name := "Twice"
  layers := [⟨"id", .id (.int ⟨.ofBytes 1, false⟩)⟩, ⟨"payload", .payload⟩,
    ⟨"a", .checksum ⟨.ofBytes 1, false⟩ "sum" none⟩,
    ⟨"b", .checksum ⟨.ofBytes 1, false⟩ "xor" covered⟩]

/-- The second checksum is put around the first one. -/
def outwardFrame : Frame where
  name := "Twice"
  layers := [⟨"b", .checksum (octet 0) .xor .after⟩, ⟨"a", .checksum (octet 0) .sum .after⟩,
    ⟨"id", .id (.int (octet 0))⟩, ⟨"payload", .payload⟩]
  registry := { prototypes := [ping 0] }
  wellFormed := rfl

/-- The second checksum is put around the payload, inside the first one. -/
def inwardFrame : Frame where
  name := "Twice"
  layers := [⟨"a", .checksum (octet 0) .sum .after⟩, ⟨"id", .id (.int (octet 0))⟩,
    ⟨"b", .checksum (octet 0) .xor .after⟩, ⟨"payload", .payload⟩]
  registry := { prototypes := [ping 0] }
  wellFormed := rfl

/-- By default the checksums are sent in the declared order. -/
theorem checkedTwice_ordered :
    frameLayers ⟨.big, []⟩ (checkedTwice none) = .ok outwardFrame.layers ∧
      outwardFrame.write (ping 5) = .ok [1, 5, 6, 2] ∧
      (wireOrder outwardFrame.layers).map (·.name) =
        (checkedTwice none).layers.map (·.name) := by
  have h : frameLayers ⟨.big, []⟩ (checkedTwice none) = .ok outwardFrame.layers := rfl
  have hw : outwardFrame.write (ping 5) = .ok [1, 5, 6, 2] := rfl
  have horder := (frameLayers_wireOrder h).2.1
  refine ⟨h, hw, horder fun front back hsent => ?_⟩
  cases hsent
  refine nestsOutward_of_default fun l hl => ?_
  rcases hl with _ | ⟨_, _ | ⟨_, ⟨⟩⟩⟩ <;> rfl

/-- A second checksum over the payload alone is sent before the first one. -/
theorem checkedTwice_reordered :
    frameLayers ⟨.big, []⟩ (checkedTwice (some "payload")) = .ok inwardFrame.layers ∧
      inwardFrame.write (ping 5) = .ok [1, 5, 5, 11] ∧
      (wireOrder inwardFrame.layers).map (·.name) = ["id", "payload", "b", "a"] ∧
      (checkedTwice (some "payload")).layers.map (·.name) = ["id", "payload", "a", "b"] :=
  ⟨rfl, rfl, rfl, rfl⟩

end TypeTable

end WireProtocol
