import WireProtocol.Field.Basic

/-!
# Reading fields

`Field.read` reads a field from the front of the input. A failed read leaves the parts in front of
the failure changed; byte strings and lists change only as a whole, and a region of declared length
is consumed before its content is looked at.
-/

set_option autoImplicit false

namespace WireProtocol

/-! ## Elements -/

/-- A result and the input that is left. -/
abbrev Decoded (α : Type) := Except CodecError α × Bytes

namespace ListOf

variable {φ : Type}

/-- Reads one element, inside a region of its own if its length is sent in front of it. The bytes
of the region that it leaves come with it. -/
def readElement (readOne : Bytes → Outcome φ) (elemLength : Option IntField) (src : Bytes) :
    Decoded (φ × Bytes) :=
  match elemLength with
  | none =>
    let o := readOne src
    match o.error with
    | none => (.ok (o.value, []), o.rest)
    | some e => (.error e, o.rest)
  | some p =>
    let n := p.read src
    match n.error with
    | some e => (.error e, n.rest)
    | none =>
      let len := n.value.value
      if len < 0 then (.error (.invalidData (.negativeElementLength len)), n.rest)
      else
        match Bytes.take? len.toInt.toNat n.rest with
        | .error missing => (.error (.notEnoughData missing), n.rest)
        | .ok (region, rest) =>
          let o := readOne region
          match o.error with
          | none => (.ok (o.value, o.rest), rest)
          | some e => (.error (e.bounded .element), rest)

/-- Reads `n` elements after those in `before`, which are in reverse. -/
def readMany (readOne : Bytes → Outcome φ) (elemLength : Option IntField) :
    (n : Nat) → (before : List (φ × Bytes)) → Bytes → Decoded (List (φ × Bytes))
  | 0, before, src => (.ok before.reverse, src)
  | n + 1, before, src =>
    match readElement readOne elemLength src with
    | (.ok e, rest) => readMany readOne elemLength n (e :: before) rest
    | (.error e, rest) => (.error e, rest)

/-- Reads at most `limit` elements up to the end of the input. As many as the input has bytes are
enough if each consumes something; after one that does not, the same one would come for ever. -/
def readUpTo (readOne : Bytes → Outcome φ) (elemLength : Option IntField) :
    (limit : Nat) → (before : List (φ × Bytes)) → Bytes → Decoded (List (φ × Bytes))
  | _, before, [] => (.ok before.reverse, [])
  | 0, _, src => (.error (.invalidData .emptyElement), src)
  | limit + 1, before, src =>
    match readElement readOne elemLength src with
    | (.ok e, rest) => readUpTo readOne elemLength limit (e :: before) rest
    | (.error e, rest) => (.error e, rest)

/-- Reads elements up to the end of the input. Each has to consume something. -/
def readAll (readOne : Bytes → Outcome φ) (elemLength : Option IntField) (src : Bytes) :
    Decoded (List (φ × Bytes)) :=
  readUpTo readOne elemLength src.length [] src

/-- The list with the elements that were read; it stays as it is if that failed. -/
def finish (l : ListOf φ) (d : Decoded (List (φ × Bytes))) : Outcome (ListOf φ) :=
  match d with
  | (.ok elements, rest) => .done { l with elements } rest
  | (.error e, rest) => .fail l rest e

/-- Reads a list whose elements are read by `readOne`. -/
def readWith (readOne : Bytes → Outcome φ) (l : ListOf φ) (src : Bytes) : Outcome (ListOf φ) :=
  match l.size with
  | .fixed n => l.finish (readMany readOne l.elemLength n [] src)
  | .remainder => l.finish (readAll readOne l.elemLength src)
  | .count p =>
    match SizePolicy.readSize p src with
    | (.ok n, rest) => l.finish (readMany readOne l.elemLength n [] rest)
    | (.error e, rest) => .fail l rest e
  | .length p =>
    match SizePolicy.readSize p src with
    | (.error e, rest) => .fail l rest e
    | (.ok n, rest) =>
      withBytes n rest l fun region rest =>
        let d := readAll readOne l.elemLength region
        l.finish (d.1.mapError (·.bounded .list), rest)

end ListOf

/-! ## Tags -/

namespace Choice

/-- The member that carries the tag. -/
def tagMember? (c : Choice Field) : Option Field := c.bundle.members.head?.map (·.field)

/-- The tag at the front of the input, read as this alternative would read it; `none` if the
alternative does not begin with an integer. -/
def readTag? (c : Choice Field) (src : Bytes) : Option (Except CodecError Int64) :=
  match c.tagMember? with
  | some (.int f) =>
    let o := f.read src
    some (match o.error with | none => .ok o.value.value | some e => .error e)
  | some (.enumeration f) =>
    let o := f.read src
    some (match o.error with | none => .ok o.value.value | some e => .error e)
  | _ => none

end Choice

/-- The smaller of a number and one that there may be. -/
def leastMissing (n : Nat) : Option Nat → Nat
  | none => n
  | some m => min m n

/-- The index of the first alternative whose tag is at the front of the input, counted from `i`.
`missing` is the least count of bytes that an alternative so far was short of. -/
def probeTags (src : Bytes) : (i : Nat) → (missing : Option Nat) → List (Choice Field) →
    Except CodecError Nat
  | _, none, [] => .error (.invalidData .unknownTag)
  | _, some n, [] => .error (.notEnoughData n)
  | i, missing, c :: cs =>
    match c.readTag? src with
    | some (.ok tag) => if tag = c.tag then .ok i else probeTags src (i + 1) missing cs
    | some (.error (.notEnoughData n)) => probeTags src (i + 1) (some (leastMissing n missing)) cs
    | _ => probeTags src (i + 1) missing cs

/-! ## Fields -/

mutual

/-- Reads a field from the front of the input. -/
def Field.read : Field → Bytes → Outcome Field
  | .int f, src => (f.read src).map .int
  | .enumeration f, src => (f.read src).map .enumeration
  | .bitmask f, src => (f.read src).map .bitmask
  | .float f, src => (f.read src).map .float
  | .text f, src => (f.read src).map .text
  | .bytes f, src => (f.read src).map .bytes
  | .list ⟨prototype, size, elemLength, elements⟩, src =>
    (ListOf.readWith (fun bs => prototype.read bs) ⟨prototype, size, elemLength, elements⟩ src).map
      .list
  | .bitfield b, src => (b.read src).map .bitfield
  | .bundle b, src => (readBundle b src).map .bundle
  | .optional ⟨inner, default, mode⟩, src =>
    if mode == .missing || mode == .tentative && src.isEmpty then
      .done (.optional ⟨default, default, .missing⟩) src
    else
      let o := inner.read src
      match o.error with
      | none => .done (.optional ⟨o.value, default, .present⟩) o.rest
      | some e => .fail (.optional ⟨o.value, default, mode⟩) o.rest e
  | .variant ⟨alternatives, current⟩, src =>
    match probeTags src 0 none alternatives with
    | .error e => .fail (.variant ⟨alternatives, current⟩) src e
    | .ok i => (readChoice alternatives i src).map fun cs => .variant ⟨cs, i⟩
  | .unknown _, src => .done (.unknown src) []

/-- Reads a bundle. The tail of a measured bundle is read inside its region, and the bytes left
there become the trailing bytes. -/
def readBundle : Bundle Field → Bytes → Outcome (Bundle Field)
  | .plain ms, src => (readMembers ms src).map .plain
  | .measured head name length tail trailing, src =>
    let h := readMembers head src
    match h.error with
    | some e => .fail (.measured h.value name length tail trailing) h.rest e
    | none =>
      let n := length.read h.rest
      match n.error with
      | some e => .fail (.measured h.value name n.value tail trailing) n.rest e
      | none =>
        let len := n.value.value
        let unread := Bundle.measured h.value name n.value tail trailing
        if len < 0 then .fail unread n.rest (.invalidData (.negativeRemainingLength len))
        else
          withBytes len.toInt.toNat n.rest unread fun region rest =>
            let t := readMembers tail region
            match t.error with
            | some e =>
              .fail (.measured h.value name n.value t.value trailing) rest (e.bounded .bundle)
            | none => .done (.measured h.value name n.value t.value t.rest) rest

/-- Reads members in order up to the first that fails. -/
def readMembers : List (Member Field) → Bytes → Outcome (List (Member Field))
  | [], src => .done [] src
  | ⟨name, field⟩ :: ms, src =>
    let o := field.read src
    match o.error with
    | some e => .fail (⟨name, o.value⟩ :: ms) o.rest e
    | none => (readMembers ms o.rest).map (⟨name, o.value⟩ :: ·)

/-- Reads the alternative of that index. -/
def readChoice : List (Choice Field) → Nat → Bytes → Outcome (List (Choice Field))
  | [], _, src => .done [] src
  | ⟨name, tag, bundle⟩ :: cs, 0, src => (readBundle bundle src).map (⟨name, tag, ·⟩ :: cs)
  | c :: cs, i + 1, src => (readChoice cs i src).map (c :: ·)

end

end WireProtocol
