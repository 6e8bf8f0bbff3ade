import WireProtocol.Frame.Read
import WireProtocol.Proofs.Field.Integer

/-!
# What a frame that was read consists of

Reading layers succeeds only if reading each of them does (`readLayers_sync_inv`,
`readLayers_size_inv`, …): an integer was read in front of what the layers inside read or behind it,
and writing it gives the bytes it was read from (`TakesInt`).
-/

set_option autoImplicit false

namespace WireProtocol

/-! ## Results -/

namespace LayerRead

/-- Whether the layers were read. -/
def isDone : LayerRead → Bool
  | .done .. => true
  | _ => false

variable {r : LayerRead} {x message : Option Message} {n k len : Nat}

theorem seenFrom_inv {src c rest : Bytes} (hs : src = c ++ rest)
    (h : r.seenFrom src rest = .done x n) : ∃ k, r = .done x k ∧ n = c.length + k := by
  subst hs
  cases r with
  | done y k =>
    cases h
    exact ⟨k, rfl, by simp [taken]⟩
  | _ => cases h

theorem inRegion_inv (h : r.inRegion len = .done x n) : (∃ k, r = .done x k) ∧ n = len := by
  cases r with
  | done y k =>
    cases h
    exact ⟨⟨k, rfl⟩, rfl⟩
  | mismatch computed received y k => cases h
  | failed e => cases e <;> cases h

theorem compare_inv {computed received : UInt64}
    (h : compare computed received message k = .done x n) :
    computed = received ∧ message = x ∧ k = n := by
  unfold compare at h
  split at h <;> cases h
  exact ⟨‹_›, rfl, rfl⟩

end LayerRead

open LayerRead

/-- The integer `v` was read from the bytes `c` at the front of the input, and is sent as them. -/
structure TakesInt (field : IntField) (src : Bytes) (v : Int64) (c rest : Bytes) : Prop where
  read : field.read src = .done (field.withValue v) rest
  split : src = c ++ rest
  write : (field.withValue v).write = .ok c

theorem TakesInt.length_pos {field : IntField} {src : Bytes} {v : Int64} {c rest : Bytes}
    (h : TakesInt field src v c rest) : 0 < c.length := by
  rw [IntField.length_write h.write]
  exact Nat.lt_of_lt_of_le (IntField.minLength_pos _) (IntField.minLength_le_length _)

theorem TakesInt.taken_eq {field : IntField} {src c rest : Bytes} {v : Int64}
    (h : TakesInt field src v c rest) : taken src rest = c.length := by
  rw [h.split, taken]
  simp

theorem TakesInt.of_ok {field : IntField} {src : Bytes} (h : (field.read src).error = none) :
    ∃ v c rest, TakesInt field src v c rest := by
  obtain ⟨v, c, hv, hs, hw⟩ := IntField.read_ok h
  exact ⟨v, c, _, by rw [← hv, Outcome.done, ← h], hs, hw⟩

theorem withInt_inv {field : IntField} {src : Bytes} {next : IntField → Bytes → LayerRead}
    {x : Option Message} {n : Nat} (h : withInt field src next = .done x n) :
    ∃ v c rest, TakesInt field src v c rest ∧ next (field.withValue v) rest = .done x n := by
  unfold withInt at h
  dsimp only at h
  split at h
  · cases h
  · rename_i he
    obtain ⟨v, c, hv, hc, hw⟩ := IntField.read_ok he
    rw [hv] at h
    refine ⟨v, c, _, ⟨?_, hc, hw⟩, h⟩
    rw [← hv, Outcome.done, ← he]

/-- The type that is taken is the first that can be read. -/
theorem dispatch_inv {id : UInt64} {attempt : Message → LayerRead} {types : List Message}
    {x : Option Message} {n : Nat} (h : dispatch id attempt types = .done x n) :
    ∃ m, types.find? (fun m => (attempt m).isDone) = some m ∧ attempt m = .done x n := by
  induction types with
  | nil => cases h
  | cons m ms ih =>
    have hhead (h : attempt m = .done x n) :
        ∃ m', (m :: ms).find? (fun m => (attempt m).isDone) = some m' ∧
          attempt m' = .done x n := by
      refine ⟨m, ?_, h⟩
      rw [List.find?_cons_of_pos (by rw [h]; rfl)]
    cases ms with
    | nil => exact hhead h
    | cons m' ms =>
      unfold dispatch at h
      split at h
      · rename_i hm
        obtain ⟨y, hfind, hy⟩ := ih h
        refine ⟨y, ?_, hy⟩
        rw [List.find?_cons_of_neg (by rw [hm]; exact Bool.false_ne_true), hfind]
      · exact hhead h

/-! ## Layers -/

/-- The message type that the layers inside an id layer are read with, if they are read. -/
def Registry.typeRead? (registry : Registry) (sized : Bool) (id : UInt64)
    (attempt : Message → LayerRead) : Option Message :=
  match registry.ofId id with
  | [] => if sized then some (.rawData id) else none
  | types => types.find? fun m => (attempt m).isDone

theorem Registry.typeRead?_cases {registry : Registry} {sized : Bool} {id : UInt64}
    {attempt : Message → LayerRead} {m : Message}
    (h : registry.typeRead? sized id attempt = some m) :
    m ∈ registry.ofId id ∨ registry.ofId id = [] ∧ sized = true ∧ m = .rawData id := by
  unfold typeRead? at h
  split at h
  · rename_i hid
    split at h <;> cases h
    exact .inr ⟨hid, ‹_›, rfl⟩
  · exact .inl (List.mem_of_find?_eq_some h)

theorem Registry.typeRead?_id {registry : Registry} {sized : Bool} {id : UInt64}
    {attempt : Message → LayerRead} {m : Message}
    (h : registry.typeRead? sized id attempt = some m) : m.id = id := by
  rcases typeRead?_cases h with hm | ⟨-, -, rfl⟩
  · simpa using (List.mem_filter.1 hm).2
  · rfl

section
variable {registry : Registry} {sized : Bool} {name : String} {ls : List Layer}
  {supplied : List Supplied} {message x : Option Message} {src : Bytes} {n : Nat}

theorem readLayers_sync_inv {field : IntField}
    (h : readLayers registry sized (⟨name, .sync field⟩ :: ls) supplied message src = .done x n) :
    ∃ c rest k, TakesInt field src field.default c rest ∧
      readLayers registry sized ls supplied message rest = .done x k ∧ n = c.length + k := by
  simp only [readLayers] at h
  obtain ⟨v, c, rest, ht, h⟩ := withInt_inv h
  split at h
  · rename_i hv
    obtain rfl : v = field.default := hv
    obtain ⟨k, hk, hn⟩ := seenFrom_inv ht.split h
    exact ⟨c, rest, k, ht, hk, hn⟩
  · cases h

/-- A size that was read is the length of a region, and no greater than allowed. -/
theorem readLayers_size_inv {field : IntField} {max : Option Nat}
    (h : readLayers registry sized (⟨name, .size field max⟩ :: ls) supplied message src =
      .done x n) :
    ∃ v c region rest k, TakesInt field src v c (region ++ rest) ∧ ¬ v < 0 ∧
      region.length = v.toInt.toNat ∧ max.any (· < region.length) = false ∧
      readLayers registry sized ls supplied message region = .done x k ∧
      n = c.length + region.length := by
  simp only [readLayers] at h
  obtain ⟨v, c, after, ht, h⟩ := withInt_inv h
  have hvalue : (field.withValue v).value = v := rfl
  simp only [hvalue] at h
  split at h
  · cases h
  rename_i hneg
  split at h
  · cases h
  rename_i hmax
  split at h
  · cases h
  rename_i region rest hregion
  obtain ⟨rfl, hlen⟩ := Bytes.take?_ok hregion
  obtain ⟨k, hk, hn⟩ := seenFrom_inv ht.split h
  obtain ⟨⟨k', hk'⟩, rfl⟩ := inRegion_inv hk
  rw [← hlen] at hmax hn
  exact ⟨v, c, region, rest, k', ht, hneg, hlen, by simpa using hmax, hk', hn⟩

/-- The layers inside an id layer are read with a type of the id that was read. -/
theorem readLayers_id_inv {field : Field}
    (h : readLayers registry sized (⟨name, .id field⟩ :: ls) supplied message src = .done x n) :
    ∃ f c rest m k, field.read src = .done f rest ∧ src = c ++ rest ∧
      registry.typeRead? sized (f.value.bits?.getD 0)
        (fun m => readLayers registry sized ls supplied (some m) rest) = some m ∧
      readLayers registry sized ls supplied (some m) rest = .done x k ∧ n = c.length + k := by
  obtain ⟨c, hc⟩ := field.read_suffix src
  simp only [readLayers] at h
  split at h
  · cases h
  rename_i he
  have hread : field.read src = .done (field.read src).value (field.read src).rest := by
    rw [Outcome.done, ← he]
  split at h
  · rename_i hid
    split at h
    · rename_i hs
      obtain ⟨k, hk, hn⟩ := seenFrom_inv hc.symm h
      refine ⟨_, c, _, _, k, hread, hc.symm, ?_, hk, hn⟩
      rw [Registry.typeRead?, hid]
      exact if_pos hs
    · cases h
  · rename_i hid
    obtain ⟨k, hk, hn⟩ := seenFrom_inv hc.symm h
    obtain ⟨m, hfind, hm⟩ := dispatch_inv hk
    refine ⟨_, c, _, m, k, hread, hc.symm, ?_, hm, hn⟩
    unfold Registry.typeRead?
    split
    · exact absurd ‹_› hid
    · exact hfind

theorem readLayers_transport_inv {field : IntField} {version : Bool}
    (h : readLayers registry sized (⟨name, .transport field version⟩ :: ls) supplied message src =
      .done x n) :
    ∃ v c rest k, TakesInt field src v c rest ∧
      readLayers registry sized ls (Supplied.put ⟨name, field.withValue v, version⟩ supplied)
        message rest = .done x k ∧ n = c.length + k := by
  simp only [readLayers] at h
  obtain ⟨v, c, rest, ht, h⟩ := withInt_inv h
  obtain ⟨k, hk, hn⟩ := seenFrom_inv ht.split h
  exact ⟨v, c, rest, k, ht, hk, hn⟩

theorem readLayers_payload_inv
    (h : readLayers registry sized (⟨name, .payload⟩ :: ls) supplied message src = .done x n) :
    ∃ m y rest, message = some m ∧ (supplied.foldl Supplied.giveTo m).read src = .done y rest ∧
      x = some y ∧ n = taken src rest := by
  simp only [readLayers] at h
  unfold readPayload at h
  split at h
  · cases h
  rename_i m
  dsimp only at h
  split at h <;> cases h
  rename_i he
  exact ⟨m, _, _, rfl, by rw [Outcome.done, ← he], rfl, rfl⟩

/-- A checksum that was read agrees with that of the bytes in front of it in the bits compared. -/
theorem readLayers_after_inv {field : IntField} {algorithm : Checksum}
    (h : readLayers registry sized (⟨name, .checksum field algorithm .after⟩ :: ls) supplied
      message src = .done x n) :
    ∃ v c rest k, TakesInt field (src.drop k) v c rest ∧
      algorithm.compute (src.take k) &&& checksumMask field = v.toUInt64 &&& checksumMask field ∧
      readLayers registry sized ls supplied message src = .done x k ∧ n = k + c.length := by
  simp only [readLayers] at h
  split at h
  · rename_i y k hk
    obtain ⟨v, c, rest, ht, h⟩ := withInt_inv h
    obtain ⟨heq, rfl, rfl⟩ := compare_inv h
    refine ⟨v, c, rest, k, ht, heq, hk, ?_⟩
    rw [ht.split]
    simp [taken]
  · rename_i r hr
    exact absurd h (hr x n)

theorem readLayers_before_inv {field : IntField} {algorithm : Checksum}
    (h : readLayers registry sized (⟨name, .checksum field algorithm .before⟩ :: ls) supplied
      message src = .done x n) :
    ∃ v c rest k, TakesInt field src v c rest ∧
      algorithm.compute (rest.take k) &&& checksumMask field = v.toUInt64 &&& checksumMask field ∧
      readLayers registry sized ls supplied message rest = .done x k ∧ n = c.length + k := by
  simp only [readLayers] at h
  obtain ⟨v, c, rest, ht, h⟩ := withInt_inv h
  split at h
  · rename_i y k hk
    obtain ⟨heq, rfl, rfl⟩ := compare_inv h
    refine ⟨v, c, rest, k, ht, heq, hk, ?_⟩
    rw [ht.split]
    simp [taken]
  · rename_i r hr
    obtain ⟨k, hk, -⟩ := seenFrom_inv ht.split h
    exact absurd hk (hr x k)

end

/-- A message that was read carries the bytes of its frame. -/
theorem Frame.readOne_inv {f : Frame} {src : Bytes} {x : Message} {n : Nat}
    (h : f.readOne src = .message x n) :
    ∃ y, readLayers f.registry f.sized f.layers [] none src = .done (some y) n ∧
      x = { y with frameBytes := src.take n } := by
  unfold readOne at h
  split at h <;> cases h
  exact ⟨_, ‹_›, rfl⟩

end WireProtocol
