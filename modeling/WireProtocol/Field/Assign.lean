import WireProtocol.Field.Basic
import WireProtocol.Value

/-!
# Assigning values to fields

A value is assigned if its shape fits the field. Members named by a bundle value are assigned one
after the other up to the first that does not fit, and those before it keep their new values; a list
changes only as a whole. Assigning to an optional field makes it present.
-/

set_option autoImplicit false

namespace WireProtocol

/-! ## Changing one part -/

/-- Changes the first member of that name, if there is one and the change has a result. -/
def Member.modifyFirst? {φ ρ : Type} (name : String) (g : φ → Option (φ × ρ)) :
    List (Member φ) → Option (List (Member φ) × ρ)
  | [] => none
  | m :: ms =>
    if m.name == name then (g m.field).map fun r => ({ m with field := r.1 } :: ms, r.2)
    else (modifyFirst? name g ms).map fun r => (m :: r.1, r.2)

/-- An integer after a change of it as a field. A change keeps the kind of a field. -/
def IntField.modify {ρ : Type} (g : Field → Option (Field × ρ)) (f : IntField) :
    Option (IntField × ρ) :=
  (g (.int f)).map fun
    | (.int f', r) => (f', r)
    | (_, r) => (f, r)

/-- Changes the first member of that name in a bundle, if there is one. -/
def Bundle.modifyFirst? {ρ : Type} (name : String) (g : Field → Option (Field × ρ)) :
    Bundle Field → Option (Bundle Field × ρ)
  | .plain ms => (Member.modifyFirst? name g ms).map fun r => (.plain r.1, r.2)
  | .measured head lengthName length tail trailing =>
    if head.any (·.name == name) then
      (Member.modifyFirst? name g head).map fun r =>
        (.measured r.1 lengthName length tail trailing, r.2)
    else if lengthName == name then
      (length.modify g).map fun r => (.measured head lengthName r.1 tail trailing, r.2)
    else
      (Member.modifyFirst? name g tail).map fun r =>
        (.measured head lengthName length r.1 trailing, r.2)

/-- Changes the first member of that name in a bitfield, if there is one. -/
def BitMember.modifyFirst? {ρ : Type} (name : String) (g : Field → Option (Field × ρ)) :
    List BitMember → Option (List BitMember × ρ)
  | [] => none
  | m :: ms =>
    if m.name == name then
      (g m.field.toField).map fun r =>
        ({ m with field := r.1.packable?.getD m.field } :: ms, r.2)
    else (modifyFirst? name g ms).map fun r => (m :: r.1, r.2)

/-- A bundle after a change of it as a field. -/
def Bundle.modify {ρ : Type} (g : Field → Option (Field × ρ)) (b : Bundle Field) :
    Option (Bundle Field × ρ) :=
  (g (.bundle b)).map fun
    | (.bundle b', r) => (b', r)
    | (_, r) => (b, r)

/-- Changes the alternative of that index, if there is one. -/
def Choice.modifyAt? {ρ : Type} (g : Field → Option (Field × ρ)) :
    Nat → List (Choice Field) → Option (List (Choice Field) × ρ)
  | _, [] => none
  | 0, c :: cs => (c.bundle.modify g).map fun r => ({ c with bundle := r.1 } :: cs, r.2)
  | i + 1, c :: cs => (modifyAt? g i cs).map fun r => (c :: r.1, r.2)

/-! ## Scalars -/

/-- Assigns a value that is neither composed nor missing to a field that is not optional. -/
def Field.assignScalar (v : Value) (f : Field) : Field × Bool :=
  match f, v with
  | .int i, .float x => (.int (i.setScaled x), true)
  | .int i, v =>
    match v.int? with
    | some n => (.int (i.withValue n), true)
    | none => (f, false)
  | .enumeration e, .text s => let r := e.setByName s; (.enumeration r.1, r.2)
  | .enumeration e, v =>
    match v.int? with
    | some n => (.enumeration (e.withValue n), true)
    | none => (f, false)
  | .bitmask m, v =>
    match v.bits? with
    | some n => (.bitmask (m.withValue n), true)
    | none => (f, false)
  | .float x, v =>
    match v.float? with
    | some y => (.float (x.withValue y), true)
    | none => (f, false)
  | .text t, .text s => (.text (t.withText s), true)
  | .bytes b, .bytes bs => (.bytes (b.withData bs), true)
  | .unknown _, .bytes bs => (.unknown bs, true)
  | f, _ => (f, false)

/-! ## All fields -/

/-- Makes the optional fields around a field present and assigns to it. -/
def Field.assignInside (set : Field → Field × Bool) : Field → Field × Bool
  | .optional ⟨inner, default, _⟩ =>
    let r := assignInside set inner
    (.optional ⟨r.1, default, .present⟩, r.2)
  | f => set f

mutual

/-- Assigns a value; the answer is whether its shape fits the field. -/
def Field.assign : Value → Field → Field × Bool
  | .missing, f =>
    match f with
    | .optional o => (.optional { o with mode := .missing }, true)
    | f => (f, false)
  | .list items, f =>
    Field.assignInside (fun core =>
      match core with
      | .list l =>
        match assignElements l.prototype [] items with
        | some elements => (.list { l with elements }, true)
        | none => (core, false)
      | core => (core, false)) f
  | .bundle items, f =>
    Field.assignInside (fun core =>
      match core with
      | .bundle b => let r := assignMembers items b; (.bundle r.1, r.2)
      | .bitfield b =>
        let r := assignBitMembers items b.members
        (.bitfield { b with members := r.1 }, r.2)
      | core => (core, false)) f
  | .variant name inner, f =>
    Field.assignInside (fun core =>
      match core with
      | .variant v =>
        let selected := v.selectWhere (·.name == name)
        if selected.2 then
          let v := selected.1
          match Choice.modifyAt? (fun c => some (Field.assign inner c)) v.current v.alternatives with
          | some (alternatives, done) => (.variant { v with alternatives }, done)
          | none => (.variant v, false)
        else (core, false)
      | core => (core, false)) f
  | .int n, f => Field.assignInside (Field.assignScalar (.int n)) f
  | .float x, f => Field.assignInside (Field.assignScalar (.float x)) f
  | .bits n, f => Field.assignInside (Field.assignScalar (.bits n)) f
  | .text s, f => Field.assignInside (Field.assignScalar (.text s)) f
  | .bytes bs, f => Field.assignInside (Field.assignScalar (.bytes bs)) f

/-- New elements for values, after those in `before`, which are in reverse; none if a value does
not fit the prototype. -/
def assignElements (prototype : Field) (before : List (Field × Bytes)) :
    List Value → Option (List (Field × Bytes))
  | [] => some before.reverse
  | v :: vs =>
    match Field.assign v prototype with
    | (e, true) => assignElements prototype ((e, []) :: before) vs
    | (_, false) => none

/-- Assigns to the members of a bundle by name. -/
def assignMembers : List (String × Value) → Bundle Field → Bundle Field × Bool
  | [], b => (b, true)
  | (name, v) :: items, b =>
    match b.modifyFirst? name fun f => some (Field.assign v f) with
    | none => (b, false)
    | some (b, true) => assignMembers items b
    | some (b, false) => (b, false)

/-- Assigns to the members of a bitfield by name. -/
def assignBitMembers : List (String × Value) → List BitMember → List BitMember × Bool
  | [], ms => (ms, true)
  | (name, v) :: items, ms =>
    match BitMember.modifyFirst? name (fun f => some (Field.assign v f)) ms with
    | none => (ms, false)
    | some (ms, true) => assignBitMembers items ms
    | some (ms, false) => (ms, false)

end

end WireProtocol
