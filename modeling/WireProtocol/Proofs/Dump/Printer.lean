import WireProtocol.Proofs.Dump.Parts

/-!
# Printing with one depth for all fields

A printer goes through the fields of a message, writes each line at the depth that it keeps, and
changes that depth on the way into the parts of a field and back. Whatever it meets, it is back at
the depth where it began and has written the lines of the dump (`Printer.field_eq`,
`Printer.message_eq`).
-/

set_option autoImplicit false

namespace WireProtocol

/-- What is written so far, and how deep the field lies that is next. -/
structure Printer where
  out : String := ""
  depth : Nat := 0

namespace Printer

/-! ## The printer -/

def line (p : Printer) (name text : String) : Printer :=
  { p with out := p.out ++ (⟨p.depth, name, text⟩ : Line).render }

/-- Prints one level deeper. -/
def nested (p : Printer) (body : Printer → Printer) : Printer :=
  let q := body { p with depth := p.depth + 1 }
  { q with depth := q.depth - 1 }

def packable (p : Printer) (name : String) : Packable → Printer
  | .int f => p.line name f.text
  | .enumeration f => p.line name f.text
  | .bitmask f => p.line name f.text

mutual

/-- Prints a field under a name. -/
def field (p : Printer) (name : String) : Field → Printer
  | .int f => p.line name f.text
  | .enumeration f => p.line name f.text
  | .bitmask f => p.line name f.text
  | .float f => p.line name f.text
  | .text f => p.line name (Text.quoted f.text)
  | .bytes f => p.line name (bytesText f.data)
  | .list ⟨_, _, _, es⟩ =>
    if es.isEmpty then p.line name "[]"
    else (p.line name s!"[{es.length}]").nested fun q => q.elements 0 es
  | .bitfield b =>
    (p.line name "").nested fun q => b.members.foldl (fun q m => q.packable m.name m.field) q
  | .bundle b => (p.line name "").nested fun q => q.bundle b
  | .optional ⟨inner, _, mode⟩ =>
    if mode == .present then p.field name inner else p.line name "<missing>"
  | .variant ⟨alternatives, current⟩ => p.choice name alternatives current
  | .unknown data => p.line name (bytesText data)

def bundle (p : Printer) : Bundle Field → Printer
  | .plain ms => p.members ms
  | .measured head name length tail _ =>
    ((p.members head).line name length.text).members tail

def members (p : Printer) : List (Member Field) → Printer
  | [] => p
  | ⟨name, field⟩ :: ms => (p.field name field).members ms

/-- Prints elements from index `i` on. -/
def elements (p : Printer) (i : Nat) : List (Field × Bytes) → Printer
  | [] => p
  | (field, _) :: es => (p.field s!"[{i}]" field).elements (i + 1) es

def choice (p : Printer) (name : String) : List (Choice Field) → Nat → Printer
  | [], _ => p.line name "<none>"
  | ⟨alternative, _, bundle⟩ :: _, 0 =>
    (p.line name alternative).nested fun q => q.bundle bundle
  | _ :: cs, i + 1 => p.choice name cs i

end

/-- Prints a message: its header and, one level deeper, its fields and its frame. -/
def message (p : Printer) (m : Message) : Printer :=
  (p.line m.header "").nested fun q =>
    let q := q.members (m.transport.map fun t => { t with name := "@" ++ t.name })
    let q := q.members m.fields
    if m.frameBytes.isEmpty then q else q.line "frame" (spacedHex m.frameBytes)

/-! ## What it writes -/

/-- Lines behind what is written. -/
def write (p : Printer) (ls : List Line) : Printer := { p with out := p.out ++ renderLines ls }

@[simp] theorem write_depth (p : Printer) (ls : List Line) : (p.write ls).depth = p.depth := rfl

@[simp] theorem write_write (p : Printer) (ls ls' : List Line) :
    (p.write ls).write ls' = p.write (ls ++ ls') := by
  simp [write, renderLines, String.append_assoc]

@[simp] theorem write_nil (p : Printer) : p.write [] = p := by
  simp [write, renderLines]

theorem line_eq (p : Printer) (name text : String) :
    p.line name text = p.write [⟨p.depth, name, text⟩] := by
  simp [line, write, renderLines]

/-- A line and what is printed one level below it. -/
theorem line_nested {p : Printer} {name text : String} {body : Printer → Printer} {ls : List Line}
    (h : ∀ q : Printer, q.depth = p.depth + 1 → body q = q.write ls) :
    (p.line name text).nested body = p.write (⟨p.depth, name, text⟩ :: ls) := by
  rw [nested, h _ rfl, line_eq]
  show (p.write [_]).write ls = _
  rw [write_write, List.singleton_append]

/-- The printer writes the lines of a field at its depth, which it has again at the end. -/
def Prints (f : Field) : Prop :=
  ∀ (p : Printer) (name : String), p.field name f = p.write (f.lines p.depth name)

theorem members_eq {ms : List (Member Field)} (h : ∀ m ∈ ms, Prints m.field) (p : Printer) :
    p.members ms = p.write (memberLines p.depth ms) := by
  induction ms generalizing p with
  | nil => rw [members, memberLines, write_nil]
  | cons m ms ih =>
    obtain ⟨hm, hms⟩ := List.forall_mem_cons.1 h
    rw [members, hm, ih hms, write_depth, write_write, memberLines]

theorem bundle_eq {b : Bundle Field} (h : ∀ m ∈ b.members, Prints m.field) (p : Printer) :
    p.bundle b = p.write (bundleLines p.depth b) := by
  cases b with
  | plain ms => exact members_eq h p
  | measured head name length tail trailing =>
    obtain ⟨hhead, htail⟩ := List.forall_mem_append.1 h
    rw [bundle, members_eq hhead, line_eq, members_eq (List.forall_mem_cons.1 htail).2]
    simp only [write_write, write_depth, bundleLines, List.append_assoc, List.singleton_append]

theorem elements_eq {es : List (Field × Bytes)} (h : ∀ e ∈ es, Prints e.1) (i : Nat)
    (p : Printer) : p.elements i es = p.write (elementLines p.depth i [] es) := by
  rw [elementLines_eq, List.reverse_nil, List.nil_append]
  induction es generalizing i p with
  | nil => rw [elements, List.zipIdx_nil, List.flatMap_nil, write_nil]
  | cons e es ih =>
    obtain ⟨he, hes⟩ := List.forall_mem_cons.1 h
    rw [elements, he, ih hes, write_depth, write_write, List.zipIdx_cons, List.flatMap_cons]

theorem choice_eq {cs : List (Choice Field)} (h : ∀ c ∈ cs, ∀ m ∈ c.bundle.members, Prints m.field)
    (p : Printer) (name : String) (i : Nat) :
    p.choice name cs i = p.write (choiceLines p.depth name cs i) := by
  induction cs generalizing i with
  | nil => exact line_eq p name "<none>"
  | cons c cs ih =>
    obtain ⟨hc, hcs⟩ := List.forall_mem_cons.1 h
    cases i with
    | zero =>
      rw [choice, choiceLines]
      exact line_nested fun q hq => by rw [bundle_eq hc, hq]
    | succ i => exact ih hcs i

theorem packable_eq (p : Printer) (name : String) (f : Packable) :
    p.packable name f = p.write [f.line p.depth name] := by
  cases f <;> exact line_eq p name _

theorem bits_eq (p : Printer) (ms : List BitMember) :
    ms.foldl (fun q m => q.packable m.name m.field) p =
      p.write (ms.map fun m => m.field.line p.depth m.name) := by
  induction ms generalizing p with
  | nil => rw [List.foldl_nil, List.map_nil, write_nil]
  | cons m ms ih =>
    rw [List.foldl_cons, packable_eq, ih, write_depth, write_write, List.map_cons,
      List.singleton_append]

/-- **Printing a field** writes its lines and leaves the depth as it was. -/
theorem field_eq (f : Field) : Prints f := by
  intro p name
  induction f generalizing p name with
  | list l _ ih =>
    obtain ⟨prototype, size, elemLength, es⟩ := l
    rw [field, Field.lines]
    split
    · exact line_eq p name "[]"
    · exact line_nested fun q hq => by rw [elements_eq ih, hq]
  | bitfield b => exact line_nested fun q hq => by rw [bits_eq, hq]
  | bundle b ih => exact line_nested fun q hq => by rw [bundle_eq ih, hq]
  | optional o ih _ =>
    obtain ⟨inner, default, mode⟩ := o
    rw [field, Field.lines]
    split
    · exact ih p name
    · exact line_eq p name "<missing>"
  | variant v ih => exact choice_eq ih p name v.current
  | _ => exact line_eq p name _

/-- **Printing a message** writes its dump and leaves the depth as it was. -/
theorem message_eq (m : Message) : ({} : Printer).message m = ⟨m.dump, 0⟩ := by
  have hbody (q : Printer) (hq : q.depth = 1) :
      (let q := q.members (m.transport.map fun t => { t with name := "@" ++ t.name })
       let q := q.members m.fields
       if m.frameBytes.isEmpty then q else q.line "frame" (spacedHex m.frameBytes)) =
        q.write (memberLines 1 (m.transport.map fun t => { t with name := "@" ++ t.name }) ++
          memberLines 1 m.fields ++
          if m.frameBytes.isEmpty then [] else [⟨1, "frame", spacedHex m.frameBytes⟩]) := by
    dsimp only
    rw [members_eq fun t _ => field_eq t.field, members_eq fun t _ => field_eq t.field]
    split <;> simp [line_eq, hq]
  rw [message, line_nested hbody]
  simp [write, Message.dump, Message.lines]

end Printer

end WireProtocol
