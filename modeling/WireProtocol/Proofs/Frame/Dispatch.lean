import WireProtocol.Proofs.Frame.InPlace
import WireProtocol.Proofs.Frame.Nesting
import WireProtocol.Proofs.Frame.RoundTrip

/-!
# Message types that share an id

The types of an id are tried in order of declaration, up to the first whose content is not found
malformed. What the layers around the id do does not depend on the type, and what an attempt leaves
does not reach the next one, so that the frame is read as if the type that is taken were the only
one (`Frame.readOne_dispatch`). This is so as well where all attempts work in one state
(`Frame.readInPlace_eq`).
-/

set_option autoImplicit false

namespace WireProtocol

/-- The content of the message was found malformed. -/
def LayerRead.isMalformed : LayerRead → Bool
  | .failed (.invalidData _) => true
  | _ => false

section
variable (id : UInt64) (attempt : Message → LayerRead)

theorem dispatch_cons (m m' : Message) (ms : List Message) :
    dispatch id attempt (m :: m' :: ms) =
      if (attempt m).isMalformed then dispatch id attempt (m' :: ms) else attempt m := by
  conv => lhs; unfold dispatch
  cases h : attempt m with
  | failed e => cases e <;> rfl
  | _ => rfl

/-- The attempt that counts is the first that does not find the content malformed, or the last. -/
theorem dispatch_taken {types : List Message} (h : types ≠ []) :
    ∃ before p later, types = before ++ p :: later ∧ dispatch id attempt types = attempt p ∧
      (∀ q ∈ before, (attempt q).isMalformed = true) ∧
      ((attempt p).isMalformed = true → later = []) := by
  induction types with
  | nil => exact absurd rfl h
  | cons m ms ih =>
    cases ms with
    | nil => exact ⟨[], m, [], rfl, rfl, nofun, fun _ => rfl⟩
    | cons m' ms =>
      rw [dispatch_cons]
      by_cases hm : (attempt m).isMalformed = true
      · obtain ⟨before, p, later, heq, hp, hbefore, hlater⟩ := ih (List.cons_ne_nil _ _)
        refine ⟨m :: before, p, later, by rw [heq, List.cons_append], ?_, ?_, hlater⟩
        · rw [if_pos hm, hp]
        · intro q hq
          rcases List.mem_cons.1 hq with rfl | hq
          · exact hm
          · exact hbefore q hq
      · exact ⟨[], m, m' :: ms, rfl, if_neg hm, nofun, fun h => absurd h hm⟩

theorem dispatch_append {before later : List Message} {p : Message}
    (hbefore : ∀ q ∈ before, (attempt q).isMalformed = true)
    (hlater : (attempt p).isMalformed = true → later = []) :
    dispatch id attempt (before ++ p :: later) = attempt p := by
  induction before with
  | nil =>
    cases later with
    | nil => rfl
    | cons m ms => exact (dispatch_cons id attempt p m ms).trans (if_neg fun h => nomatch hlater h)
  | cons q before ih =>
    obtain ⟨m, ms, hms⟩ := List.exists_cons_of_ne_nil
      (List.append_ne_nil_of_right_ne_nil before (List.cons_ne_nil p later))
    rw [List.cons_append, hms, dispatch_cons, if_pos (hbefore q (.head _)), ← hms]
    exact ih fun q hq => hbefore q (.tail _ hq)

end

/-! ## One of the types alone -/

/-- Layers that are well formed around some message types are so around fewer. -/
theorem frameFault?_of_subset {layers : List Layer} {registry registry' : Registry}
    (h : frameFault? layers registry = none)
    (hs : ∀ m ∈ registry'.prototypes, m ∈ registry.prototypes) :
    frameFault? layers registry' = none := by
  obtain ⟨hlast, hpayload, hid, hlayers, hbounded⟩ := frameFault?_eq_none h
  unfold frameFault?
  rw [hlast, hlayers]
  simp only [hpayload, hid, Bool.not_true, Bool.false_eq_true, if_false, ne_eq, not_true]
  cases hsized : isSized layers with
  | true => rfl
  | false =>
    have hnone : registry'.prototypes.find? Message.readsToEnd = none :=
      List.find?_eq_none.2 fun m hm => by simp [hbounded hsized m (hs m hm)]
    rw [hnone]
    rfl

namespace Frame

/-- The frame with one of its message types alone. -/
def only (f : Frame) (p : Message) (hp : p ∈ f.registry.prototypes) : Frame where
  name := f.name
  layers := f.layers
  registry := { f.registry with prototypes := [p] }
  wellFormed := frameFault?_of_subset f.wellFormed fun m hm => by
    rwa [List.mem_singleton.1 hm]

/-- The result of the layers inside an id, which see `w`, for a message type. -/
def attempt (f : Frame) (inner : List Layer) (w : View) (q : Message) : LayerRead :=
  readLayers f.registry f.sized inner w.supplied (some q) w.bytes

/-- The one id of a frame has no other around it or inside. -/
theorem other_layers {f : Frame} {outer inner : List Layer} {name : String} {field : Field}
    (hl : f.layers = outer ++ ⟨name, .id field⟩ :: inner) :
    (∀ l ∈ outer, l.isId = false) ∧ ∀ l ∈ inner, l.isId = false := by
  obtain ⟨-, -, hid, -⟩ := frameFault?_eq_none f.wellFormed
  rw [hl, List.countP_append, List.countP_cons_of_pos (by rfl)] at hid
  have hzero : ∀ {ls : List Layer}, ls.countP Layer.isId = 0 → ∀ l ∈ ls, l.isId = false :=
    fun h l hl => by simpa using List.countP_eq_zero.1 h l hl
  exact ⟨hzero (by omega), hzero (by omega)⟩

/-- A frame around an id is read by what is dispatched on the id. -/
theorem readLayers_dispatch {f : Frame} {outer inner : List Layer} {name : String} {field : Field}
    (hl : f.layers = outer ++ ⟨name, .id field⟩ :: inner) (src : Bytes) :
    readLayers f.registry f.sized f.layers [] none src =
      throughLayers outer (.ofInput src) fun v =>
        .ofView ((⟨name, .id field⟩ : Layer).enter v) fun w =>
          (dispatch (v.idRead field) (f.attempt inner w)
            (f.registry.typesFor f.sized (v.idRead field))).shift (w.start - v.start) := by
  rw [hl]
  refine (readLayers_append (v := .ofInput src) (other_layers hl).1 (outer_layers hl).2).trans ?_
  congr 1
  funext v
  exact readLayers_cons rfl

/-- If the attempt for one type is the result of the dispatch, the type alone gives it. -/
theorem readOne_only {f : Frame} {outer inner : List Layer} {name : String} {field g : Field}
    (hl : f.layers = outer ++ ⟨name, .id field⟩ :: inner) {src rest : Bytes} {v : View}
    (hv : enterLayers outer (.ofInput src) = .ok v) (hread : field.read v.bytes = .done g rest)
    {p : Message} (hp : p ∈ f.registry.ofId (g.value.bits?.getD 0))
    (htaken : dispatch (g.value.bits?.getD 0) (f.attempt inner (v.behind rest))
      (f.registry.ofId (g.value.bits?.getD 0)) = f.attempt inner (v.behind rest) p) :
    f.readOne src = (f.only p (List.mem_filter.1 hp).1).readOne src := by
  have hpid : p.id = g.value.bits?.getD 0 := by simpa using (List.mem_filter.1 hp).2
  have hid : v.idRead field = g.value.bits?.getD 0 := by
    rw [View.idRead, hread]
    rfl
  have henter : (⟨name, .id field⟩ : Layer).enter v = .ok (v.behind rest) :=
    bind_eq_ok.2 ⟨_, View.read_of_done hread, rfl⟩
  have hone : (f.only p (List.mem_filter.1 hp).1).registry.ofId (g.value.bits?.getD 0) = [p] :=
    List.filter_cons_of_pos (by simpa using hpid)
  have hlayers : readLayers f.registry f.sized f.layers [] none src =
      readLayers (f.only p (List.mem_filter.1 hp).1).registry f.sized f.layers [] none src := by
    rw [readLayers_dispatch hl]
    refine Eq.trans ?_ (readLayers_dispatch (f := f.only p _) hl src).symm
    refine throughLayers_congr fun w hw => ?_
    cases hv.symm.trans hw
    rw [henter, hid, Registry.typesFor_eq (List.ne_nil_of_mem hp),
      Registry.typesFor_eq (by simp [hone]), hone]
    exact congrArg (LayerRead.shift _) (htaken.trans (readLayers_registry (other_layers hl).2))
  unfold readOne
  rw [hlayers]
  rfl

/-- **Dispatch among types that share an id is exact and leaves no trace**: the frame is read as by
the one of these types alone that is the first not to find the content malformed, or the last if all
do. An attempt is what the layers inside the id give for a type. The same holds if all attempts work
in one state, into which they put messages, transport values and extents. -/
theorem readOne_dispatch (f : Frame) {outer inner : List Layer} {name : String} {field g : Field}
    (hl : f.layers = outer ++ ⟨name, .id field⟩ :: inner) {src rest : Bytes} {v : View}
    (hv : enterLayers outer (.ofInput src) = .ok v) (hread : field.read v.bytes = .done g rest)
    (hne : f.registry.ofId (g.value.bits?.getD 0) ≠ []) :
    ∃ before p later, ∃ hp : p ∈ f.registry.prototypes,
      f.registry.ofId (g.value.bits?.getD 0) = before ++ p :: later ∧
      (∀ q ∈ before, (f.attempt inner (v.behind rest) q).isMalformed = true) ∧
      ((f.attempt inner (v.behind rest) p).isMalformed = true → later = []) ∧
      f.readOne src = (f.only p hp).readOne src ∧
      f.readInPlace src = (f.only p hp).readInPlace src := by
  obtain ⟨before, p, later, htypes, htaken, hbefore, hlater⟩ :=
    dispatch_taken (g.value.bits?.getD 0) (f.attempt inner (v.behind rest)) hne
  have hp : p ∈ f.registry.ofId (g.value.bits?.getD 0) := by
    rw [htypes]
    exact List.mem_append_right _ (.head _)
  have hone := readOne_only hl hv hread hp htaken
  refine ⟨before, p, later, (List.mem_filter.1 hp).1, htypes, hbefore, hlater, hone, ?_⟩
  rw [readInPlace_eq, readInPlace_eq, hone]

end Frame

/-- A message of one byte, which is zero or one. -/
def flag : Message where
  id := 1
  name := "Flag"
  fields := [⟨"flag", .int { octet 0 with ranges := [(0, 1)], strict := true }⟩]

/-- Two types share the id, and a transport value and a checksum are inside it. -/
def sharedIdFrame : Frame where
  name := "Shared"
  layers := [⟨"size", .size (octet 0) none⟩, ⟨"id", .id (.int (octet 0))⟩,
    ⟨"hops", .transport (octet 3) false⟩, ⟨"sum", .checksum (octet 0) .sum .after⟩,
    ⟨"payload", .payload⟩]
  registry := { prototypes := [flag, ping 0] }
  wellFormed := rfl

set_option maxRecDepth 20000 in
/-- The payload is no flag, and its checksum, which ends the input, is wrong. -/
theorem sharedIdFrame_readOne_dispatch :
    ∃ hp x, sharedIdFrame.readOne [4, 1, 9, 8, 7] = .checksumFailure x 5 ∧
      (sharedIdFrame.only (ping 0) hp).readOne [4, 1, 9, 8, 7] = .checksumFailure x 5 ∧
      x.fields = (ping 8).fields := by
  let x : Message := { ping 8 with
    transport := [⟨"hops", .int ((octet 3).withValue 9)⟩]
    kind := .invalid .checksumFailure
    frameBytes := [4, 1, 9, 8, 7] }
  let inner : List Layer := [⟨"hops", .transport (octet 3) false⟩,
    ⟨"sum", .checksum (octet 0) .sum .after⟩, ⟨"payload", .payload⟩]
  have hl : sharedIdFrame.layers =
      [⟨"size", .size (octet 0) none⟩] ++ ⟨"id", .id (.int (octet 0))⟩ :: inner := rfl
  have hv : enterLayers [⟨"size", .size (octet 0) none⟩] (.ofInput [4, 1, 9, 8, 7]) =
      .ok ⟨1, [1, 9, 8, 7], []⟩ := rfl
  have hid : (Field.int (octet 0)).read [1, 9, 8, 7] =
      .done (.int ((octet 0).withValue 1)) [9, 8, 7] := rfl
  obtain ⟨before, p, later, hp, htypes, -, hlast, hone, -⟩ :=
    sharedIdFrame.readOne_dispatch hl hv hid (List.cons_ne_nil _ _)
  have hread : sharedIdFrame.readOne [4, 1, 9, 8, 7] = .checksumFailure x 5 := rfl
  have hflag : (sharedIdFrame.attempt inner ((⟨1, [1, 9, 8, 7], []⟩ : View).behind [9, 8, 7])
    flag).isMalformed = true := rfl
  replace htypes : [flag, ping 0] = before ++ p :: later := htypes
  -- the flag is found malformed and is not the last type
  have htaken : p = ping 0 := by
    rcases before with _ | ⟨q, _ | ⟨q', before⟩⟩
    · cases htypes
      cases hlast hflag
    · cases htypes
      rfl
    · simpa using congrArg List.length htypes
  subst htaken
  exact ⟨hp, x, hread, hone.symm.trans hread, rfl⟩

end WireProtocol
