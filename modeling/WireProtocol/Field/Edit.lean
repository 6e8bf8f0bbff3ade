import WireProtocol.Field.Assign
import WireProtocol.Field.Read
import WireProtocol.Field.Refresh

/-!
# Paths into a field and edits of its parts

A path leads to a part of a field. An edit changes one part; every way in which a field's state
changes after it was built is an edit. Editing an element of a list drops the bytes that the
elements of that list left unread.
-/

set_option autoImplicit false

namespace WireProtocol

/-! ## Paths -/

/-- One step into a field. -/
inductive PathStep where
  /-- The first member of that name. -/
  | member (name : String)
  /-- An element of a list, or a member of a bundle by its index. -/
  | index (i : Nat)
  /-- The inner field of an optional, there or not. -/
  | inner
  /-- The inner field of an optional that is there. -/
  | present
  /-- The chosen alternative of a variant. -/
  | current
  deriving DecidableEq, Repr

namespace Field

/-- The part that a step leads to. -/
def child? (step : PathStep) (f : Field) : Option Field :=
  match step, f with
  | .member name, .bundle b => Member.find? name b.members
  | .member name, .bitfield b => (b.members.find? (·.name == name)).map (·.field.toField)
  | .index i, .list l => l.elements[i]?.map (·.1)
  | .index i, .bundle b => b.members[i]?.map (·.field)
  | .inner, .optional o => some o.inner
  | .present, .optional o => o.field?
  | .current, .variant v => v.current?.map fun c => .bundle c.bundle
  | _, _ => none

/-- The part that a path leads to. -/
def at? : List PathStep → Field → Option Field
  | [], f => some f
  | s :: path, f => (f.child? s).bind (at? path)

/-- Changes the part that a step leads to, if it is one that can be changed. -/
def modifyChild? {ρ : Type} (step : PathStep) (g : Field → Option (Field × ρ)) (f : Field) :
    Option (Field × ρ) :=
  match step, f with
  | .member name, .bundle b => (b.modifyFirst? name g).map fun r => (.bundle r.1, r.2)
  | .member name, .bitfield b =>
    (BitMember.modifyFirst? name g b.members).map fun r =>
      (.bitfield { b with members := r.1 }, r.2)
  | .index i, .list l =>
    match l.elements[i]? with
    | none => none
    | some e => (g e.1).map fun r =>
      let bare := l.elements.map fun e => (e.1, [])
      (.list { l with elements := bare.set i (r.1, []) }, r.2)
  | .inner, .optional o => (g o.inner).map fun r => (.optional { o with inner := r.1 }, r.2)
  | .current, .variant v =>
    (Choice.modifyAt? g v.current v.alternatives).map fun r =>
      (.variant { v with alternatives := r.1 }, r.2)
  | _, _ => none

end Field

/-! ## Edits -/

/-- A change of one part. -/
inductive Edit where
  | read (src : Bytes)
  | assign (v : Value)
  | refresh
  /-- Takes the integer nearest to a quantity. -/
  | setScaled (x : Binary64)
  | setByName (name : String)
  | setBit (i : Nat) (on : Bool)
  /-- Appends a copy of the prototype. -/
  | push
  /-- Keeps the first `n` elements. -/
  | truncate (n : Nat)
  | clearTrailing
  | setMode (mode : OptionalMode)
  | select (i : Nat)
  | selectByName (name : String)
  | selectByTag (tag : Int64)

/-- What an edit answers. -/
inductive Reply where
  | done
  | flag (b : Bool)
  /-- How a read ended and how many bytes it left. -/
  | read (error : Option CodecError) (left : Nat)

namespace Field

/-- Applies an edit to a field; it has no answer if it does not apply to fields of this kind. -/
def edit (e : Edit) (f : Field) : Field × Option Reply :=
  match e, f with
  | .read src, f =>
    let o := f.read src
    (o.value, some (.read o.error o.rest.length))
  | .assign v, f => let r := f.assign v; (r.1, some (.flag r.2))
  | .refresh, f => let r := f.refresh; (r.1, some (.flag r.2))
  | .setScaled x, .int i => (.int (i.setScaled x), some .done)
  | .setByName name, .enumeration n =>
    let r := n.setByName name
    (.enumeration r.1, some (.flag r.2))
  | .setBit i on, .bitmask m => (.bitmask (m.setBit i on), some .done)
  | .push, .list l => (.list { l with elements := l.elements ++ [(l.prototype, [])] }, some .done)
  | .truncate n, .list l =>
    (.list { l with elements := (l.elements.take n).map fun e => (e.1, []) }, some .done)
  | .clearTrailing, .bundle b => (.bundle b.clearTrailing, some .done)
  | .setMode mode, .optional o => (.optional { o with mode }, some .done)
  | .select i, .variant v => let r := v.select i; (.variant r.1, some (.flag r.2))
  | .selectByName name, .variant v =>
    let r := v.selectWhere (·.name == name)
    (.variant r.1, some (.flag r.2))
  | .selectByTag tag, .variant v =>
    let r := v.selectWhere (·.tag == tag)
    (.variant r.1, some (.flag r.2))
  | _, f => (f, none)

/-- Applies an edit to the part that a path leads to; nothing if there is no such part. -/
def editAt? : List PathStep → Edit → Field → Option (Field × Option Reply)
  | [], e, f => some (f.edit e)
  | s :: path, e, f => f.modifyChild? s (editAt? path e)

end Field

end WireProtocol
