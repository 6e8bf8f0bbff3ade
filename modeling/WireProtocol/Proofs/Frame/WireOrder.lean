import WireProtocol.Proofs.Frame.Bounded

/-!
# The order in which layers are sent

Layers are nested, but their bytes come one after the other: those of a checksum behind its inside
after everything nested in it, those of any other layer before. `wireOrder` flattens the nesting in
that way, and a frame is written as the pieces of its layers in that order
(`Frame.write_wireOrder`).
-/

set_option autoImplicit false

namespace WireProtocol

/-- Nested layers in the order of their bytes. -/
def wireOrder : List Layer → List Layer
  | [] => []
  | l :: ls => if l.isTrailer then wireOrder ls ++ [l] else l :: wireOrder ls

/-- The bytes are the piece that one of nested layers sends around the message: its own field, or the
fields of the message. A size counts the bytes of the layers inside it, and a checksum covers them. -/
def Layer.Emits (m : Message) (layers : List Layer) (l : Layer) (piece : Bytes) : Prop :=
  ∃ inside covered, l :: inside <:+ layers ∧ writeLayers m inside = .ok covered ∧
    match l.kind with
    | .sync field => field.write = .ok piece
    | .size field _ => (field.withCount covered.length).write = .ok piece
    | .id field => (idFieldFor field m).write = .ok piece
    | .transport field version => (transportFieldFor l.name field version m).write = .ok piece
    | .checksum field algorithm _ => (checksumField field algorithm covered).write = .ok piece
    | .payload => m.write = .ok piece

/-- A layer sends the same piece with another layer around all of them. -/
theorem Layer.Emits.around {m : Message} {layers : List Layer} {l : Layer} {piece : Bytes}
    (h : l.Emits m layers piece) (outer : Layer) : l.Emits m (outer :: layers) piece := by
  obtain ⟨inside, covered, hsuffix, hcovered, hpiece⟩ := h
  exact ⟨inside, covered, hsuffix.trans (List.suffix_cons outer layers), hcovered, hpiece⟩

/-! ## Flattening -/

theorem wireOrder_cons_trailer {l : Layer} (h : l.isTrailer = true) (ls : List Layer) :
    wireOrder (l :: ls) = wireOrder ls ++ [l] := by
  rw [wireOrder, if_pos h]

theorem wireOrder_cons {l : Layer} (h : l.isTrailer = false) (ls : List Layer) :
    wireOrder (l :: ls) = l :: wireOrder ls := by
  rw [wireOrder, if_neg (by rw [h]; exact Bool.false_ne_true)]

theorem Layer.isTrailer_of_isSync {l : Layer} (h : l.isSync = true) : l.isTrailer = false := by
  obtain ⟨name, kind⟩ := l
  cases kind with
  | sync field => rfl
  | _ => cases h

theorem wireOrder_of_no_trailer {ls : List Layer} (h : ∀ l ∈ ls, l.isTrailer = false) :
    wireOrder ls = ls := by
  induction ls with
  | nil => rfl
  | cons l ls ih => rw [wireOrder_cons (h l (.head _)), ih fun l hl => h l (.tail _ hl)]

/-- A checksum that no other one encloses is sent last. -/
theorem wireOrder_insert {l : Layer} (hl : l.isTrailer = true) {outside : List Layer}
    (h : ∀ x ∈ outside, x.isTrailer = false) (inside : List Layer) :
    wireOrder (outside ++ l :: inside) = wireOrder (outside ++ inside) ++ [l] := by
  induction outside with
  | nil => exact wireOrder_cons_trailer hl inside
  | cons x outside ih =>
    have hx := h x (.head _)
    rw [List.cons_append, List.cons_append, wireOrder_cons hx, wireOrder_cons hx,
      ih fun x hx => h x (.tail _ hx), List.cons_append]

/-- The outermost checksum behind its inside is sent last. -/
theorem wireOrder_last {outside : List Layer} (h : ∃ x ∈ outside, x.isTrailer = true)
    (inside : List Layer) :
    ∃ before, ∃ x ∈ outside, wireOrder (outside ++ inside) = before ++ [x] := by
  induction outside with
  | nil =>
    obtain ⟨x, hx, -⟩ := h
    cases hx
  | cons y outside ih =>
    cases hy : y.isTrailer with
    | true => exact ⟨_, y, .head _, wireOrder_cons_trailer hy _⟩
    | false =>
      obtain ⟨x, hx, ht⟩ := h
      have hx : x ∈ outside := by
        rcases List.mem_cons.1 hx with rfl | hx
        · rw [hy] at ht
          cases ht
        · exact hx
      obtain ⟨before, z, hz, heq⟩ := ih ⟨x, hx, ht⟩
      refine ⟨y :: before, z, .tail _ hz, ?_⟩
      rw [List.cons_append, wireOrder_cons hy, heq, List.cons_append]

/-! ## Bytes -/

/-- Layers are written as their pieces in wire order. -/
theorem writeLayers_wireOrder {m : Message} {ls : List Layer}
    (hlast : ls.Pairwise fun l _ => l.isPayload = false) {b : Bytes}
    (h : writeLayers m ls = .ok b) :
    ∃ pieces, List.Forall₂ (Layer.Emits m ls) (wireOrder ls) pieces ∧ b = pieces.flatten := by
  induction ls generalizing b with
  | nil =>
    cases h
    exact ⟨[], .nil, rfl⟩
  | cons l ls ih =>
    obtain ⟨hpayload, hinside⟩ := List.pairwise_cons.1 hlast
    -- a layer that is no trailer sends its piece in front
    have hfront : ∀ c d, l.isTrailer = false → l.Emits m (l :: ls) c → writeLayers m ls = .ok d →
        ∃ pieces, List.Forall₂ (Layer.Emits m (l :: ls)) (wireOrder (l :: ls)) pieces ∧
          c ++ d = pieces.flatten := by
      intro c d hl hc hd
      obtain ⟨pieces, hp, rfl⟩ := ih hinside hd
      exact ⟨c :: pieces, wireOrder_cons hl ls ▸ .cons hc (hp.imp fun _ _ h => h.around l), rfl⟩
    obtain ⟨name, kind⟩ := l
    cases kind with
    | sync field | transport field version | id field =>
      obtain ⟨c, d, hc, hd, rfl⟩ := writeLayers_header_inv rfl h
      exact hfront c d rfl ⟨ls, d, List.suffix_rfl, hd, hc⟩ hd
    | size field max =>
      obtain ⟨c, d, hc, hd, -, -, rfl⟩ := writeLayers_size_inv h
      exact hfront c d rfl ⟨ls, d, List.suffix_rfl, hd, hc⟩ hd
    | payload =>
      obtain rfl := inside_payload hpayload
      simp only [writeLayers] at h
      exact ⟨[b], .cons ⟨[], [], List.suffix_rfl, rfl, h⟩ .nil, (List.append_nil b).symm⟩
    | checksum field algorithm placement =>
      cases placement with
      | before =>
        obtain ⟨c, d, hc, hd, rfl⟩ := writeLayers_before_inv h
        exact hfront c d rfl ⟨ls, d, List.suffix_rfl, hd, hc⟩ hd
      | after =>
        obtain ⟨c, d, hc, hd, rfl⟩ := writeLayers_after_inv h
        obtain ⟨pieces, hp, rfl⟩ := ih hinside hd
        refine ⟨pieces ++ [c], ?_, by simp⟩
        rw [wireOrder_cons_trailer rfl]
        exact List.rel_append (hp.imp fun _ _ h => h.around _)
          (.cons ⟨ls, _, List.suffix_rfl, hd, hc⟩ .nil)

/-- **A frame is written as the pieces of its layers in wire order.** -/
theorem Frame.write_wireOrder (f : Frame) {m : Message} {b : Bytes} (h : f.write m = .ok b) :
    ∃ pieces, List.Forall₂ (Layer.Emits m f.layers) (wireOrder f.layers) pieces ∧
      b = pieces.flatten :=
  writeLayers_wireOrder f.payload_last h

end WireProtocol
