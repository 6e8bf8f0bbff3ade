import WireProtocol.Field.View
import WireProtocol.Proofs.Field.Ready

/-!
# Reading what was written

`p.Recovers g` says that reading with `p` the bytes that `g` is written as gives the value of `g`
and leaves whatever follows them. Each scalar has its lemma, and a composed field recovers another
one if its parts recover the parts: `ListOf.recovers`, `Bundle.recovers`, `Optional.recovers` and
`Variant.recovers`.
-/

set_option autoImplicit false

namespace WireProtocol

variable {α β : Type}

/-- Reading some bytes gives a state with a property and leaves what follows them, whatever it is. -/
def Decodes (read : Bytes → Outcome α) (b : Bytes) (P : α → Prop) : Prop :=
  ∃ v, P v ∧ ∀ rest, read (b ++ rest) = .done v rest

namespace Decodes

theorem map {read : Bytes → Outcome α} {b : Bytes} {P : α → Prop} (h : Decodes read b P)
    {f : α → β} {Q : β → Prop} (hq : ∀ v, P v → Q (f v)) :
    Decodes (fun src => (read src).map f) b Q := by
  obtain ⟨v, hv, hr⟩ := h
  refine ⟨f v, hq v hv, fun rest => ?_⟩
  dsimp only
  rw [hr]
  rfl

/-- What was written by two writers in order is read by their readers in order. -/
theorem andThen {read : Bytes → Outcome α} {b c : Bytes} {P : α → Prop} {Q : β → Prop}
    {failed : α → β} {next : α → Bytes → Outcome β} (h : Decodes read b P)
    (hn : ∀ v, P v → Decodes (next v) c Q) :
    Decodes (fun src => (read src).andThen failed next) (b ++ c) Q := by
  obtain ⟨v, hv, hr⟩ := h
  obtain ⟨w, hw, hs⟩ := hn v hv
  refine ⟨w, hw, fun rest => ?_⟩
  dsimp only
  rw [List.append_assoc, hr, Outcome.andThen_of_none rfl]
  exact hs rest

end Decodes

/-- Reading with `p` what `g` is written as gives the value of `g`. Byte strings that are too long
for any address are left out, as their lengths would not be read back. -/
def Field.Recovers (p g : Field) : Prop :=
  ∀ b, g.write = .ok b → b.length < 2 ^ 63 → Decodes p.read b fun r => r.value = g.value

/-! ## Scalars -/

/-- A strict field with a valid value is not refused. -/
theorem not_refused {strict valid : Bool} (h : strict = true → valid = true) :
    ¬ (strict && !valid) = true := by
  cases strict with
  | false => exact Bool.false_ne_true
  | true =>
    rw [h rfl]
    exact Bool.false_ne_true

theorem IntField.recovers {f : IntField} {v : Int64} (h : (Field.int (f.withValue v)).Recoverable) :
    (Field.int f).Recovers (.int (f.withValue v)) := by
  intro b hw _
  refine ⟨.int (f.withValue v), rfl, fun rest => ?_⟩
  rw [Field.read, read_write_done hw h]
  rfl

theorem EnumField.read_write_done {f : EnumField} {v : Int64} {b : Bytes}
    (hw : (f.withValue v).storage.write = .ok b)
    (h : (Field.enumeration (f.withValue v)).Recoverable) (rest : Bytes) :
    f.read (b ++ rest) = .done (f.withValue v) rest := by
  obtain ⟨hs, he⟩ := h
  have hread : f.storage.read (b ++ rest) = .done (f.storage.withValue v) rest :=
    IntField.read_write_done hw hs rest
  rw [read_eq, hread, Outcome.andThen_of_none rfl]
  exact if_neg (not_refused he)

theorem EnumField.recovers {f : EnumField} {v : Int64}
    (h : (Field.enumeration (f.withValue v)).Recoverable) :
    (Field.enumeration f).Recovers (.enumeration (f.withValue v)) := by
  intro b hw _
  refine ⟨.enumeration (f.withValue v), rfl, fun rest => ?_⟩
  rw [Field.read, read_write_done hw h]
  rfl

theorem BitmaskField.recovers {f : BitmaskField} {v : UInt64}
    (h : (Field.bitmask { f with value := v }).Recoverable) :
    (Field.bitmask f).Recovers (.bitmask { f with value := v }) := by
  obtain ⟨hv, hs⟩ := h
  intro b hw _
  cases hw
  refine ⟨.bitmask { f with value := v }, rfl, fun rest => ?_⟩
  have hl : (Bytes.ofNat f.order f.bytes v.toNat).length = f.bytes := Bytes.length_ofNat _ _ _
  have hword : UInt64.ofNat ((Bytes.ofNat f.order f.bytes v.toNat).toNat f.order) = v := by
    rw [Bytes.toNat_ofNat, Nat.mod_eq_of_lt hv, UInt64.ofNat_toNat]
  have hread : f.read (Bytes.ofNat f.order f.bytes v.toNat ++ rest) =
      .done { f with value := v } rest := by
    unfold read
    conv => lhs; arg 1; rw [← hl]
    rw [withBytes_append]
    dsimp only
    rw [hword]
    exact if_neg (not_refused hs)
  rw [Field.read]
  exact congrArg (Outcome.map Field.bitmask) hread

theorem FloatField.recovers {f : FloatField} {bits : UInt64}
    (h : bits.toNat < 256 ^ f.precision.bytes) :
    (Field.float f).Recovers (.float { f with bits }) := by
  intro b hw _
  cases hw
  refine ⟨.float { f with bits }, rfl, fun rest => ?_⟩
  have hl : (Bytes.ofNat f.order f.precision.bytes bits.toNat).length = f.precision.bytes :=
    Bytes.length_ofNat _ _ _
  have hread : f.read (Bytes.ofNat f.order f.precision.bytes bits.toNat ++ rest) =
      .done { f with bits } rest := by
    unfold read
    conv => lhs; arg 1; rw [← hl]
    rw [withBytes_append, Bytes.toNat_ofNat, Nat.mod_eq_of_lt h, UInt64.ofNat_toNat]
  rw [Field.read]
  exact congrArg (Outcome.map Field.float) hread

/-- A size is read as it was derived. -/
theorem SizePolicy.readSize_written {p : IntField} (hp : p.strict = false) {n : Nat}
    (hn : n < 2 ^ 63) {c : Bytes} (hw : (p.withCount n).write = .ok c) (rest : Bytes) :
    readSize p (c ++ rest) = (.ok n, rest) := by
  obtain ⟨hneg, hcount⟩ := IntField.toInt_toNat_ofNat hn
  have hread : p.read (c ++ rest) = .done (p.withCount n) rest :=
    IntField.read_write_done hw (fun hs => absurd (hp.symm.trans hs) nofun) rest
  rw [readSize_eq, hread]
  show (if Int64.ofNat n < 0 then _ else (Except.ok (Int64.ofNat n).toInt.toNat, rest)) = _
  rw [if_neg hneg, hcount]

theorem ByteField.read_write_done {f : ByteField} {data b : Bytes}
    (hw : ({ f with data } : ByteField).write = .ok b) (hv : ({ f with data } : ByteField).isValid)
    (hs : f.size.endsWithInput = false) (hp : ∀ p, f.size.sizeField? = some p → p.strict = false)
    (hb : b.length < 2 ^ 63) (rest : Bytes) : f.read (b ++ rest) = .done { f with data } rest := by
  cases hsize : f.size.sizeField? with
  | some p =>
    obtain ⟨c, hc, rfl⟩ := write_sized_ok (f := { f with data }) hsize hw
    have hl : data.length < 2 ^ 63 := by
      rw [List.length_append] at hb
      dsimp only at hb
      omega
    rw [f.read_sized hsize, List.append_assoc,
      SizePolicy.readSize_written (hp p hsize) hl hc]
    exact withBytes_append data rest f _
  | none =>
    obtain ⟨size, old⟩ := f
    cases size with
    | fixed n =>
      obtain rfl : data.length = n := by simpa [isValid] using hv
      cases hw
      have hr : data.resize data.length = data := by simp [Bytes.resize]
      rw [hr]
      exact withBytes_append data rest _ _
    | remainder => cases hs
    | count p | length p => cases hsize

/-! ## Lists -/

theorem elementValues_eq (before : List Value) (es : List (Field × Bytes)) :
    elementValues before es = before.reverse ++ es.map fun e => e.1.value := by
  induction es generalizing before with
  | nil => exact (List.append_nil _).symm
  | cons e es ih =>
    obtain ⟨field, rest⟩ := e
    rw [elementValues, ih, List.reverse_cons, List.append_assoc]
    rfl

/-- An element that takes some bytes takes some in a list. -/
theorem writeElement_ne_nil {elemLength : Option IntField} {e : Field × Bytes} {c : Bytes}
    (he : 1 ≤ e.1.length) (hw : writeElement elemLength e = .ok c) : c ≠ [] := by
  obtain ⟨content, hcontent, hf⟩ := writeElement_inv hw
  rw [← Field.length_write hcontent] at he
  have hne : content ++ e.2 ≠ [] := by
    refine List.ne_nil_of_length_pos ?_
    rw [List.length_append]
    omega
  cases elemLength with
  | none =>
    cases hf
    exact hne
  | some p =>
    obtain ⟨n, -, rfl⟩ := frameElement_some hf
    exact List.append_ne_nil_of_right_ne_nil n hne

namespace ListOf

variable {prototype : Field} {elemLength : Option IntField}

/-- The elements have the same values; the bytes that they did not read may differ. -/
def SameValues (rs es : List (Field × Bytes)) : Prop :=
  (rs.map fun r => r.1.value) = es.map fun e => e.1.value

theorem readElement_written {e : Field × Bytes} {c : Bytes} (he : prototype.Recovers e.1)
    (hn : elemLength = none → e.2 = []) (hp : ∀ p, elemLength = some p → p.strict = false)
    (hw : writeElement elemLength e = .ok c) (hc : c.length < 2 ^ 63) :
    ∃ r : Field × Bytes, r.1.value = e.1.value ∧ ∀ rest,
      readElement (fun bs => prototype.read bs) elemLength (c ++ rest) = (.ok r, rest) := by
  obtain ⟨content, hcontent, hf⟩ := writeElement_inv hw
  cases elemLength with
  | none =>
    rw [hn rfl, List.append_nil] at hf
    obtain rfl : content = c := Except.ok.inj hf
    obtain ⟨v, hv, hr⟩ := he content hcontent hc
    refine ⟨(v, []), hv, fun rest => ?_⟩
    rw [readElement_none, hr]
    rfl
  | some p =>
    obtain ⟨n, hwn, rfl⟩ := frameElement_some hf
    simp only [List.length_append] at hc
    obtain ⟨v, hv, hr⟩ := he content hcontent (by omega)
    refine ⟨(v, e.2), hv, fun rest => ?_⟩
    -- the element leaves what follows its content in its region
    have hlen : (content ++ e.2).length < 2 ^ 63 := by
      rw [List.length_append]
      omega
    obtain ⟨hneg, hcount⟩ := IntField.toInt_toNat_ofNat hlen
    have hread : p.read (n ++ (content ++ e.2 ++ rest)) =
        .done (p.withCount (content ++ e.2).length) (content ++ e.2 ++ rest) :=
      IntField.read_write_done hwn (fun hs => absurd ((hp p rfl).symm.trans hs) nofun) _
    have hregion : readRegion (fun bs => prototype.read bs)
        (p.withCount (content ++ e.2).length) (content ++ e.2 ++ rest) = (.ok (v, e.2), rest) := by
      unfold readRegion IntField.withCount
      rw [if_neg hneg, hcount, Bytes.take?_append]
      dsimp only
      rw [hr]
      rfl
    rw [readElement_some, List.append_assoc n, hread]
    exact hregion

variable {es : List (Field × Bytes)} {body : Bytes}

theorem readMany_written (hw : Written elemLength es body)
    (hes : ∀ e ∈ es, prototype.Recovers e.1) (hn : elemLength = none → ∀ e ∈ es, e.2 = [])
    (hp : ∀ p, elemLength = some p → p.strict = false) (hb : body.length < 2 ^ 63) :
    ∃ rs, SameValues rs es ∧ ∀ before rest,
      readMany (fun bs => prototype.read bs) elemLength es.length before (body ++ rest) =
        (.ok (before.reverse ++ rs), rest) := by
  induction hw with
  | nil => exact ⟨[], rfl, fun before rest => by rw [List.append_nil]; rfl⟩
  | @cons e c es body he _ ih =>
    rw [List.length_append] at hb
    obtain ⟨r, hr, hread⟩ := readElement_written (hes e (.head _)) (fun h => hn h e (.head _)) hp he
      (by omega)
    obtain ⟨rs, hrs, hmany⟩ := ih (fun e he => hes e (.tail _ he))
      (fun h e he => hn h e (.tail _ he)) (by omega)
    refine ⟨r :: rs, congrArg₂ List.cons hr hrs, fun before rest => ?_⟩
    rw [List.length_cons, readMany_succ, List.append_assoc, hread]
    show readMany _ _ _ (r :: before) _ = _
    rw [hmany, List.reverse_cons, List.append_assoc]
    rfl

/-- Elements that all take some bytes are found in a region of their own. -/
theorem readUpTo_written (hw : Written elemLength es body)
    (hes : ∀ e ∈ es, prototype.Recovers e.1) (hn : elemLength = none → ∀ e ∈ es, e.2 = [])
    (hp : ∀ p, elemLength = some p → p.strict = false) (hb : body.length < 2 ^ 63)
    (hne : ∀ e ∈ es, ∀ c, writeElement elemLength e = .ok c → c ≠ []) :
    ∃ rs, SameValues rs es ∧ ∀ limit before, body.length ≤ limit →
      readUpTo (fun bs => prototype.read bs) elemLength limit before body =
        (.ok (before.reverse ++ rs), []) := by
  induction hw with
  | nil =>
    refine ⟨[], rfl, fun limit before _ => ?_⟩
    rw [List.append_nil]
    cases limit <;> rfl
  | @cons e c es body he _ ih =>
    rw [List.length_append] at hb
    obtain ⟨r, hr, hread⟩ := readElement_written (hes e (.head _)) (fun h => hn h e (.head _)) hp he
      (by omega)
    obtain ⟨rs, hrs, hall⟩ := ih (fun e he => hes e (.tail _ he))
      (fun h e he => hn h e (.tail _ he)) (by omega) fun e he => hne e (.tail _ he)
    refine ⟨r :: rs, congrArg₂ List.cons hr hrs, fun limit before hl => ?_⟩
    rw [List.length_append] at hl
    have hread := hread body
    obtain ⟨x, c, rfl⟩ : ∃ x xs, c = x :: xs := List.exists_cons_of_ne_nil (hne e (.head _) c he)
    rw [List.length_cons] at hl
    obtain ⟨limit, rfl⟩ : ∃ k, limit = k + 1 := ⟨limit - 1, by omega⟩
    rw [List.cons_append] at hread ⊢
    unfold readUpTo
    rw [hread]
    dsimp only
    rw [hall limit (r :: before) (by omega), List.reverse_cons, List.append_assoc]
    rfl

/-- **A list is recovered** if its prototype recovers the elements. -/
theorem recovers {l : ListOf Field} {es : List (Field × Bytes)}
    (hes : ∀ e ∈ es, l.prototype.Recovers e.1) (hn : l.elemLength = none → ∀ e ∈ es, e.2 = [])
    (hs : l.size.endsWithInput = false) (hf : ({ l with elements := es } : ListOf Field).Filled)
    (hmin : ∀ e ∈ es, e.1.minLength ≤ e.1.length) :
    (Field.list l).Recovers (.list { l with elements := es }) := by
  intro b hw hb
  obtain ⟨c, body, hbody, hc, rfl⟩ := Field.write_list_ok hw
  rw [sent_eq hf.count] at hbody
  rw [List.length_append] at hb
  have hvalues : ∀ rs, SameValues rs es →
      (Field.list { l with elements := rs }).value =
        (Field.list { l with elements := es }).value := by
    intro rs hrs
    rw [Field.value, Field.value, elementValues_eq, elementValues_eq, hrs]
  have hlist : ∀ rest, (Field.list l).read (c ++ body ++ rest) =
      (readWith (fun bs => l.prototype.read bs) l (c ++ (body ++ rest))).map .list := by
    intro rest
    rw [Field.read, List.append_assoc]
  cases hsize : l.size with
  | remainder =>
    rw [hsize] at hs
    cases hs
  | fixed n =>
    obtain ⟨rs, hrs, hread⟩ := readMany_written hbody hes hn hf.elemLength_lenient (by omega)
    refine ⟨.list { l with elements := rs }, hvalues rs hrs, fun rest => ?_⟩
    have hlen : es.length = n := hf.count n hsize
    have hfixed : ∀ src, readWith (fun bs => l.prototype.read bs) l src =
        l.finish (readMany (fun bs => l.prototype.read bs) l.elemLength n [] src) :=
      fun src => by simp only [readWith, hsize]
    simp only [hsize, writePrefix] at hc
    cases hc
    rw [hlist, hfixed, List.nil_append, ← hlen, hread]
    rfl
  | count p =>
    obtain ⟨rs, hrs, hread⟩ := readMany_written hbody hes hn hf.elemLength_lenient (by omega)
    refine ⟨.list { l with elements := rs }, hvalues rs hrs, fun rest => ?_⟩
    have hp : p.strict = false := hf.size_lenient p (by simp only [hsize]; rfl)
    simp only [hsize, writePrefix] at hc
    rw [hlist, readWith_count _ _ hsize, SizePolicy.readSize_written hp hf.short hc]
    show (finish _ _).map _ = _
    rw [hread]
    rfl
  | length p =>
    have hne : ∀ e ∈ es, ∀ c, writeElement l.elemLength e = .ok c → c ≠ [] := fun e he c hc =>
      writeElement_ne_nil (Nat.le_trans (hf.nonempty p hsize e he) (hmin e he)) hc
    obtain ⟨rs, hrs, hread⟩ := readUpTo_written hbody hes hn hf.elemLength_lenient (by omega) hne
    refine ⟨.list { l with elements := rs }, hvalues rs hrs, fun rest => ?_⟩
    have hp : p.strict = false := hf.size_lenient p (by simp only [hsize]; rfl)
    simp only [hsize, writePrefix] at hc
    rw [hlist, readWith_length _ _ hsize, SizePolicy.readSize_written hp (by omega) hc]
    show (readBounded _ _ _ _).map _ = _
    unfold readBounded readAll
    rw [withBytes_append, hread _ _ (Nat.le_refl _)]
    rfl

end ListOf

/-! ## Members -/

theorem memberValues_cons (m : Member Field) (ms : List (Member Field)) :
    memberValues (m :: ms) = (m.name, m.field.value) :: memberValues ms := by
  rw [memberValues]

theorem readMembers_written {ms ms' : List (Member Field)}
    (h : List.Forall₂ (Member.Alike Field.Recovers) ms ms') {b : Bytes}
    (hw : writeMembers ms' = .ok b) (hb : b.length < 2 ^ 63) :
    Decodes (readMembers ms) b fun rs => memberValues rs = memberValues ms' := by
  induction h generalizing b with
  | nil =>
    cases hw
    exact ⟨[], rfl, fun rest => by rw [readMembers]; rfl⟩
  | @cons m m' ms ms' hm _ ih =>
    obtain ⟨c, d, hc, hd, rfl⟩ := writeMembers_cons_inv hw
    rw [List.length_append] at hb
    cases hm with
    | @mk name f g hr =>
      have hfirst := hr c hc (by omega)
      have hread : readMembers (⟨name, f⟩ :: ms) = _ :=
        funext fun src => readMembers_cons ⟨name, f⟩ ms src
      rw [hread]
      refine hfirst.andThen fun v hv => (ih hd (by omega)).map fun rs hrs => ?_
      rw [memberValues_cons, memberValues_cons, hrs]
      exact congrArg (fun x => (name, x) :: _) hv

/-- **A bundle is recovered** if its members are. The length that is sent is the one of what follows
it, and so is the one that is held. -/
theorem Bundle.recovers {b b' : Bundle Field} (h : b.Alike Field.Recovers b') (hf : b'.Fresh)
    (hl : ∀ m ∈ b'.members, m.field.Recoverable) {bytes : Bytes}
    (hw : writeBundle b' = .ok bytes) (hb : bytes.length < 2 ^ 63) :
    Decodes (readBundle b) bytes fun r => bundleValues r = bundleValues b' := by
  cases h with
  | @plain ms ms' h =>
    have hread : readBundle (.plain ms) = fun src => (readMembers ms src).map .plain :=
      funext fun src => by rw [readBundle]
    rw [hread]
    refine (readMembers_written h hw hb).map fun rs hrs => ?_
    rw [bundleValues, bundleValues, hrs]
  | @measured head head' tail tail' name length v trailing trailing' hh ht =>
    obtain ⟨c, n, d, hc, hn, hd, rfl⟩ := writeBundle_measured_inv hw
    simp only [List.length_append] at hb
    have hlen : (d ++ trailing').length < 2 ^ 63 := by
      rw [List.length_append]
      omega
    obtain ⟨hneg, hcount⟩ := IntField.toInt_toNat_ofNat hlen
    -- the value that is held is the count of bytes that is sent
    have hv : v = Int64.ofNat (d ++ trailing').length := by
      rw [List.length_append, membersLength_write hd]
      exact hf.measured
    have hvalid : length.strict = true → (length.withValue v).isValid = true :=
      hl ⟨name, .int (length.withValue v)⟩ (List.mem_append_right _ (.head _))
    have hlength : Decodes length.read n fun r => r = length.withValue v := by
      refine ⟨_, rfl, fun rest => ?_⟩
      rw [hv] at hvalid ⊢
      exact IntField.read_write_done (f := length) hn hvalid rest
    have htail := readMembers_written ht hd (by omega)
    have hread : readBundle (.measured head name length tail trailing) = _ :=
      funext fun src => readBundle_measured head name length tail trailing src
    rw [hread, List.append_assoc]
    refine (readMembers_written hh hc (by omega)).andThen fun hs hhs => ?_
    refine hlength.andThen fun r hr => ?_
    obtain ⟨ts, hts, hregion⟩ := htail
    refine ⟨.measured hs name r ts trailing', ?_, fun rest => ?_⟩
    · simp only [bundleValues, hhs, hts, hr]
    · have hr : r.value = Int64.ofNat (d ++ trailing').length := by
        rw [hr, ← hv]
        rfl
      show readTail hs name tail trailing r (d ++ trailing' ++ rest) = _
      unfold readTail
      dsimp only
      rw [hr, if_neg hneg, hcount, withBytes_append, hregion]
      rfl

/-- **An optional field is recovered** if it is absent in both or its inner field is. -/
theorem Optional.recovers {o : Optional Field} {inner : Field} (hm : o.mode ≠ .tentative)
    (h : o.mode = .present → o.inner.Recovers inner) :
    (Field.optional o).Recovers (.optional { o with inner }) := by
  intro b hw hb
  obtain ⟨first, default, mode⟩ := o
  cases mode with
  | tentative => exact absurd rfl hm
  | missing =>
    cases hw
    refine ⟨.optional ⟨default, default, .missing⟩, rfl, fun rest => ?_⟩
    rw [Field.read_optional]
    rfl
  | present =>
    obtain ⟨r, hr, hread⟩ := h rfl b hw hb
    refine ⟨.optional ⟨r, default, .present⟩, ?_, fun rest => ?_⟩
    · simp only [Field.value, hr]
    · rw [Field.read_optional, if_neg (by simp), hread, Outcome.andThen_of_none rfl]
      rfl

/-! ## Variants -/

theorem readChoice_eq (cs : List (Choice Field)) (i : Nat) (src : Bytes) :
    readChoice cs i src = (cs[i]?).elim (.done cs src) fun c =>
      (readBundle c.bundle src).map fun b => cs.set i { c with bundle := b } := by
  induction cs generalizing i with
  | nil =>
    rw [readChoice]
    rfl
  | cons c cs ih =>
    cases i with
    | zero =>
      rw [readChoice]
      rfl
    | succ i =>
      rw [readChoice, ih, List.getElem?_cons_succ]
      cases cs[i]? <;> rfl

theorem choiceValue_eq (cs : List (Choice Field)) (i : Nat) :
    choiceValue cs i =
      (cs[i]?).elim .missing fun c => .variant c.name (.bundle (bundleValues c.bundle)) := by
  induction cs generalizing i with
  | nil =>
    rw [choiceValue]
    rfl
  | cons c cs ih =>
    cases i with
    | zero =>
      rw [choiceValue]
      rfl
    | succ i => rw [choiceValue, ih, List.getElem?_cons_succ]

/-- An alternative passes over an input that does not begin with its tag. -/
def Choice.Passes (c : Choice Field) (src : Bytes) : Prop :=
  (∃ tag, c.readTag? src = some (.ok tag) ∧ tag ≠ c.tag) ∨
    ∃ fault, c.readTag? src = some (.error (.invalidData fault))

/-- The probe finds the first alternative whose tag is at the front. -/
theorem probeTags_first {src : Bytes} {cs : List (Choice Field)} {c : Choice Field} {i : Nat}
    (hc : cs[i]? = some c) (ht : c.readTag? src = some (.ok c.tag))
    (hp : ∀ j < i, ∀ a, cs[j]? = some a → a.Passes src) (k : Nat) :
    probeTags src k none cs = .ok (k + i) := by
  induction i generalizing cs k with
  | zero =>
    cases cs with
    | nil => cases hc
    | cons a cs =>
      cases hc
      rw [probeTags_cons, ht]
      exact if_pos rfl
  | succ i ih =>
    cases cs with
    | nil => cases hc
    | cons a cs =>
      have ih := ih hc (fun j hj a ha => hp (j + 1) (by omega) a ha) (k + 1)
      rw [probeTags_cons, show k + (i + 1) = k + 1 + i by omega, ← ih]
      rcases hp 0 (by omega) a rfl with ⟨tag, hr, hne⟩ | ⟨fault, hr⟩
      · rw [hr]
        exact if_neg hne
      · rw [hr]

/-- The tag of another alternative, sent in the format of this one, is read as it is or refused. -/
theorem Choice.readTag?_written {c : Choice Field} {f : IntField} (hf : c.tagStorage? = some f)
    {v : Int64} {n : Bytes} (hw : (f.withValue v).write = .ok n) (rest : Bytes) :
    c.readTag? (n ++ rest) = some (.ok v) ∨
      ∃ fault, c.readTag? (n ++ rest) = some (.error (.invalidData fault)) := by
  have hread := IntField.read_write hw rest
  unfold IntField.checked at hread
  obtain ⟨m, hm, hf⟩ := Option.bind_eq_some_iff.1 hf
  rw [c.readTag?_eq]
  unfold tagReader?
  cases m with
  | int g =>
    cases hf
    simp only [hm, Option.map_some, hread]
    split
    · exact .inr ⟨_, rfl⟩
    · exact .inl rfl
  | enumeration g =>
    cases hf
    simp only [hm, Option.map_some, EnumField.read_eq, hread]
    split
    · exact .inr ⟨_, rfl⟩
    · rw [Outcome.andThen_of_none rfl]
      unfold EnumField.checked
      dsimp only [Outcome.done]
      split
      · exact .inr ⟨_, rfl⟩
      · exact .inl rfl
  | _ => cases hf

/-- A tag that its member can read is no error. -/
theorem Choice.readTag?_of_member {c : Choice Field} {m : Field} {src : Bytes}
    (hm : c.tagMember? = some m) (h : (m.read src).error = none) (e : CodecError) :
    c.readTag? src ≠ some (.error e) := by
  rw [c.readTag?_eq]
  unfold tagReader?
  rw [hm]
  cases m with
  | int f =>
    have he : (f.read src).error = none := h
    simp [Decoded.ofOutcome, he]
  | enumeration f =>
    have he : (f.read src).error = none := h
    simp [Decoded.ofOutcome, he]
  | _ =>
    intro h
    cases h

end WireProtocol
