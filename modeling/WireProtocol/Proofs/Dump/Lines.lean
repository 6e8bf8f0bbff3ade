import WireProtocol.Proofs.Dump.Printer
import WireProtocol.Proofs.Text.OneLine

/-!
# The lines of a dump

What a message holds cannot break a line of its dump: texts are in quotes, bytes are digits, and all
else is numbers and labels. So if no label has a line break the dump is one line for each part that
is shown, in order and indented by its depth (`Message.dump_lines`).
-/

set_option autoImplicit false

namespace WireProtocol

/-! ## Labels -/

/-- The units and special names of an integer. -/
def IntField.labels (f : IntField) : List String := f.units.toList ++ f.specials.map (·.1)

/-- The names of an enumeration. -/
def EnumField.labels (f : EnumField) : List String := f.names.map (·.2)

/-- The names of bits. -/
def BitmaskField.labels (f : BitmaskField) : List String := f.bits.map (·.2)

/-- The units and special names of a floating point number. -/
def FloatField.labels (f : FloatField) : List String := f.units.toList ++ f.specials.map (·.1)

def Packable.labels : Packable → List String
  | .int f => f.labels
  | .enumeration f => f.labels
  | .bitmask f => f.labels

/-- The names that a field gives to its values, its members and its alternatives, and its units. -/
def Field.labels : Field → List String
  | .int f => f.labels
  | .enumeration f => f.labels
  | .bitmask f => f.labels
  | .float f => f.labels
  | .bitfield b => b.members.flatMap fun m => m.name :: m.field.labels
  | .bundle b => b.members.map (·.name)
  | .variant v => v.alternatives.flatMap fun c => c.name :: c.bundle.members.map (·.name)
  | _ => []

open Text

/-- No label of the field or of one inside of it breaks a line. -/
def Field.LabelsOneLine (f : Field) : Prop := f.Everywhere fun g => ∀ s ∈ g.labels, OneLine s

/-! ## Texts of scalars -/

/-- A name that is looked up in a table is one of its names. -/
theorem mem_map_of_find? {α : Type} {xs : List α} {p : α → Bool} {nameOf : α → String}
    {name : String} (h : (xs.find? p).map nameOf = some name) : name ∈ xs.map nameOf := by
  obtain ⟨x, hx, rfl⟩ := Option.map_eq_some_iff.1 h
  exact List.mem_map_of_mem (List.mem_of_find?_eq_some hx)

theorem IntField.oneLine_text {f : IntField} (h : ∀ s ∈ f.labels, OneLine s) :
    OneLine f.text := by
  have hunits : ∀ u, f.units = some u → OneLine u := fun u hu => h u (by simp [labels, hu])
  have hspecials : ∀ name, f.specialName = some name → OneLine name := fun name hname =>
    h name (List.mem_append_right _ (mem_map_of_find? hname))
  unfold text
  split
  · simp +decide [hspecials _ ‹_›]
  · simp
  · simp +decide [hunits _ ‹_›]
  · simp +decide [Binary64.oneLine_shortestText]
  · simp +decide [Binary64.oneLine_shortestText, hunits _ ‹_›]

theorem FloatField.oneLine_text {f : FloatField} (h : ∀ s ∈ f.labels, OneLine s) :
    OneLine f.text := by
  unfold text
  split
  · rename_i hname
    exact h _ (List.mem_append_right _ (mem_map_of_find? hname))
  · exact Binary64.oneLine_fixedText _ _
  · rename_i u _ hu
    have hunits : OneLine u := h u (by simp [labels, hu])
    simp +decide [Binary64.oneLine_fixedText, hunits]

theorem EnumField.oneLine_text {f : EnumField} (h : ∀ s ∈ f.labels, OneLine s) :
    OneLine f.text := by
  unfold text
  split
  · rename_i name hname
    simp +decide [h name (mem_map_of_find? hname)]
  · simp +decide

theorem BitmaskField.oneLine_text {f : BitmaskField} (h : ∀ s ∈ f.labels, OneLine s) :
    OneLine f.text := by
  have hname : ∀ i, OneLine ((f.nameOf? i).getD s!"bit{i}") := by
    intro i
    cases hi : f.nameOf? i with
    | none => simp +decide
    | some name => exact h name (mem_map_of_find? hi)
  have hvalue : OneLine (padLeft (2 * f.bytes) '0' (hexNat f.value.toNat)) :=
    oneLine_padLeft (by decide) _ (oneLine_hexNat _)
  have hnames (set : List Nat) :
      OneLine (String.intercalate ", " (set.map fun i => (f.nameOf? i).getD s!"bit{i}")) :=
    oneLine_intercalate (by decide) (List.forall_mem_map.2 fun i _ => hname i)
  unfold text
  simp +decide only [oneLine_append, hvalue, hnames]

theorem oneLine_spacedHex (bs : Bytes) : OneLine (spacedHex bs) :=
  oneLine_intercalate (by decide) (List.forall_mem_map.2 fun b _ => oneLine_hexByte b)

theorem oneLine_bytesText (bs : Bytes) : OneLine (bytesText bs) := by
  simp +decide [bytesText, oneLine_spacedHex]

/-! ## Fields -/

theorem Field.oneLine_caption {f : Field} (h : ∀ s ∈ f.labels, OneLine s) :
    OneLine f.caption := by
  cases f with
  | int f => exact f.oneLine_text h
  | enumeration f => exact f.oneLine_text h
  | bitmask f => exact f.oneLine_text h
  | float f => exact f.oneLine_text h
  | text f => exact oneLine_quoted _
  | bytes f => exact oneLine_bytesText _
  | unknown data => exact oneLine_bytesText _
  | list l =>
    unfold caption
    dsimp only
    split
    · decide
    · simp +decide
  | variant v =>
    unfold caption
    dsimp only
    cases hc : v.current? with
    | none => exact (by decide : OneLine "<none>")
    | some c =>
      exact h _ (List.mem_flatMap.2 ⟨c, List.mem_of_getElem? hc, .head _⟩)
  | bitfield b => exact (by decide : OneLine "")
  | bundle b => exact (by decide : OneLine "")
  | optional o => exact (by decide : OneLine "<missing>")

theorem Packable.labelsOneLine_toField (p : Packable) (h : ∀ s ∈ p.labels, OneLine s) :
    p.toField.LabelsOneLine := by
  cases p <;> exact Field.everywhere_iff.2 ⟨h, nofun⟩

/-- Labels are looked at once in a field and once in its parts, if these have no parts. -/
theorem Field.labelsOneLine_of_flat {f : Field} (h : ∀ s ∈ f.labels, OneLine s)
    (hc : ∀ c ∈ f.children, (∀ s ∈ c.labels, OneLine s) ∧ c.children = []) :
    f.LabelsOneLine := by
  refine everywhere_iff.2 ⟨h, fun c hmem => everywhere_iff.2 ⟨(hc c hmem).1, ?_⟩⟩
  rw [(hc c hmem).2]
  exact List.forall_mem_nil _

/-- The labels of a part are among those of the field. -/
theorem Field.LabelsOneLine.part {f : Field} (h : f.LabelsOneLine) {p : String × Field}
    (hp : p ∈ f.shownParts) : OneLine p.1 ∧ p.2.LabelsOneLine := by
  cases f with
  | list l =>
    obtain ⟨e, he, rfl⟩ := List.mem_map.1 hp
    have hmem := List.fst_mem_of_mem_zipIdx he
    refine ⟨by simp +decide, h.child ?_⟩
    exact List.mem_cons_of_mem _ (List.mem_map_of_mem hmem)
  | bitfield b =>
    obtain ⟨m, hm, rfl⟩ := List.mem_map.1 hp
    have hlabels : ∀ s ∈ m.name :: m.field.labels, OneLine s := fun s hs =>
      h.self s (List.mem_flatMap.2 ⟨m, hm, hs⟩)
    obtain ⟨hname, hfield⟩ := List.forall_mem_cons.1 hlabels
    exact ⟨hname, m.field.labelsOneLine_toField hfield⟩
  | bundle b =>
    obtain ⟨m, hm, rfl⟩ := List.mem_map.1 hp
    exact ⟨h.self _ (List.mem_map_of_mem hm), h.child (List.mem_map_of_mem hm)⟩
  | variant v =>
    simp only [shownParts] at hp
    split at hp
    · rename_i c hc
      obtain ⟨m, hm, rfl⟩ := List.mem_map.1 hp
      have hmem : c ∈ v.alternatives := List.mem_of_getElem? hc
      have hname : m.name ∈ c.name :: c.bundle.members.map (·.name) :=
        .tail _ (List.mem_map_of_mem hm)
      refine ⟨h.self _ (List.mem_flatMap.2 ⟨c, hmem, hname⟩), ?_⟩
      exact h.child (List.mem_flatMap.2 ⟨c, hmem, List.mem_map_of_mem hm⟩)
    · cases hp
  | _ => cases hp

/-! ## Lines -/

namespace Line

/-- A line without the break at its end. -/
def content (l : Line) : List Char :=
  List.replicate (2 * l.depth) ' ' ++ l.name.toList ++
    if l.text.isEmpty then [] else ':' :: ' ' :: l.text.toList

theorem toList_render (l : Line) : l.render.toList = l.content ++ ['\n'] := by
  unfold render content
  split <;> simp

theorem newline_not_mem_content {l : Line} (hname : OneLine l.name) (htext : OneLine l.text) :
    '\n' ∉ l.content := by
  unfold content
  have hname : '\n' ∉ l.name.toList := hname
  have htext : '\n' ∉ l.text.toList := htext
  split <;> simp [hname, htext]

end Line

/-- Lines without breaks of their own are found again in the text. -/
theorem splitOn_renderLines {ls : List Line} (h : ∀ l ∈ ls, OneLine l.name ∧ OneLine l.text) :
    (renderLines ls).toList.splitOn '\n' = ls.map Line.content ++ [[]] := by
  rw [renderLines, String.toList_join, List.flatMap_map, List.splitOn_eq_splitOnP]
  induction ls with
  | nil => rfl
  | cons l ls ih =>
    obtain ⟨hl, hls⟩ := List.forall_mem_cons.1 h
    have hcontent : ∀ c ∈ l.content, (c == '\n') = false := fun c hc =>
      beq_false_of_ne fun he => Line.newline_not_mem_content hl.1 hl.2 (he ▸ hc)
    rw [List.flatMap_cons, Line.toList_render, List.append_assoc, List.singleton_append,
      List.splitOnP_append_cons_of_forall_mem hcontent _ (beq_self_eq_true _), ih hls]
    rfl

theorem Field.LabelsOneLine.oneLine_lines {f : Field} (h : f.LabelsOneLine) (depth : Nat)
    {name : String} (hname : OneLine name) :
    ∀ l ∈ f.lines depth name, OneLine l.name ∧ OneLine l.text := by
  induction f using inductionOnShownParts generalizing depth name with
  | optional o ih =>
    rw [lines_optional]
    split
    · exact ih (h.child (.head _)) depth hname
    · simpa using ⟨hname, Field.oneLine_caption h.self⟩
  | node f ho ih =>
    rw [lines_node ho, List.forall_mem_cons]
    refine ⟨⟨hname, Field.oneLine_caption h.self⟩, fun l hl => ?_⟩
    obtain ⟨p, hp, hl⟩ := List.mem_flatMap.1 hl
    obtain ⟨hpart, hlabels⟩ := h.part hp
    exact ih p hp hlabels _ hpart l hl

/-! ## Messages -/

namespace Message

/-- The depth and name of each part that is shown of a message: the header, the transport fields,
the fields, and the frame if there is one. -/
def rows (m : Message) : List (Nat × String) :=
  (0, m.header) :: (m.transport.flatMap fun t => t.field.rows 1 ("@" ++ t.name)) ++
    (m.fields.flatMap fun t => t.field.rows 1 t.name) ++
    if m.frameBytes.isEmpty then [] else [(1, "frame")]

/-- No label of a message, its own names among them, breaks a line. -/
def LabelsOneLine (m : Message) : Prop :=
  OneLine m.displayName ∧ ∀ t ∈ m.transport ++ m.fields, OneLine t.name ∧ t.field.LabelsOneLine

theorem oneLine_header {m : Message} (h : OneLine m.displayName) : OneLine m.header := by
  unfold header
  split
  · simp +decide [h]
  · simp +decide
  · rename_i reason _
    cases reason <;> decide

theorem lines_eq (m : Message) :
    m.lines = ⟨0, m.header, ""⟩ ::
      (m.transport.flatMap fun t => t.field.lines 1 ("@" ++ t.name)) ++
      (m.fields.flatMap fun t => t.field.lines 1 t.name) ++
      if m.frameBytes.isEmpty then [] else [⟨1, "frame", spacedHex m.frameBytes⟩] := by
  rw [lines, memberLines_eq, memberLines_eq, List.flatMap_map]

theorem lines_place (m : Message) : m.lines.map Line.place = m.rows := by
  rw [lines_eq, rows]
  simp only [List.map_append, List.map_cons, List.map_flatMap, Field.lines_place]
  congr 1
  split <;> rfl

theorem oneLine_lines {m : Message} (h : m.LabelsOneLine) :
    ∀ l ∈ m.lines, OneLine l.name ∧ OneLine l.text := by
  obtain ⟨hdisplay, hfields⟩ := h
  obtain ⟨htransport, hfields⟩ := List.forall_mem_append.1 hfields
  rw [lines_eq]
  intro l hl
  rcases List.mem_append.1 hl with hl | hl
  · rcases List.mem_append.1 hl with hl | hl
    · rcases List.mem_cons.1 hl with rfl | hl
      · exact ⟨oneLine_header hdisplay, (by decide : OneLine "")⟩
      · obtain ⟨t, ht, hl⟩ := List.mem_flatMap.1 hl
        obtain ⟨hname, hlabels⟩ := htransport t ht
        exact hlabels.oneLine_lines 1 (oneLine_append.2 ⟨by decide, hname⟩) l hl
    · obtain ⟨t, ht, hl⟩ := List.mem_flatMap.1 hl
      obtain ⟨hname, hlabels⟩ := hfields t ht
      exact hlabels.oneLine_lines 1 hname l hl
  · split at hl
    · cases hl
    · obtain rfl := List.mem_singleton.1 hl
      exact ⟨(by decide : OneLine "frame"), oneLine_spacedHex _⟩

/-- **Nothing that a message holds breaks a line of its dump.** If no label has a line break, the
dump has one line for the header, one for each transport field, field and part of these that is
shown, at any depth and in order, and one for the frame if there is one; each ends with a line break
and starts with two blanks for each level that it lies deep. A printer that keeps one depth while it
goes through all fields prints that dump and is back at depth zero. -/
theorem dump_lines {m : Message} (h : m.LabelsOneLine) :
    m.dump.toList.splitOn '\n' = m.lines.map Line.content ++ [[]] ∧
      m.lines.map Line.place = m.rows ∧ ({} : Printer).message m = ⟨m.dump, 0⟩ :=
  ⟨splitOn_renderLines (oneLine_lines h), m.lines_place, Printer.message_eq m⟩

end Message

/-- A message with a text of two lines in a list, an optional field that is missing, and a frame. -/
def twoLineNote : Message :=
  { id := 1
    name := "Note"
    fields := [
      ⟨"lines", .list ⟨.text ⟨.fixed 3, []⟩, .fixed 1, none,
        [(.text ⟨.fixed 3, [0x61, 0x0A, 0x62]⟩, [])]⟩⟩,
      ⟨"more", .optional ⟨.unknown [], .unknown [], .missing⟩⟩,
      ⟨"pair", .bundle (.plain [⟨"level", .bytes ⟨.fixed 1, [0x0A]⟩⟩])⟩]
    transport :=
      [⟨"flags", .bitmask { BitmaskField.ofBytes 1 with value := 2, bits := [(1, "urgent")] }⟩]
    frameBytes := [0x0A, 0x0A] }

theorem twoLineNote_dump_lines :
    twoLineNote.LabelsOneLine ∧
      twoLineNote.dump.toList.splitOn '\n' = [
        "Note (id 1)".toList,
        "  @flags: 0x02 [urgent]".toList,
        "  lines: [1]".toList,
        "    [0]: \"a\\nb\"".toList,
        "  more: <missing>".toList,
        "  pair".toList,
        "    level: hex(0a)".toList,
        "  frame: 0a 0a".toList, []] := by
  have hfields : ∀ t ∈ twoLineNote.transport ++ twoLineNote.fields, OneLine t.name ∧
      (∀ s ∈ t.field.labels, OneLine s) ∧
        ∀ c ∈ t.field.children, (∀ s ∈ c.labels, OneLine s) ∧ c.children.isEmpty = true := by
    decide
  have h : twoLineNote.LabelsOneLine := by
    refine ⟨by decide, fun t ht => ?_⟩
    obtain ⟨hname, hlabels, hparts⟩ := hfields t ht
    exact ⟨hname, Field.labelsOneLine_of_flat hlabels fun c hc =>
      ⟨(hparts c hc).1, List.isEmpty_iff.1 (hparts c hc).2⟩⟩
  exact ⟨h, (Message.dump_lines h).1.trans (by decide)⟩

end WireProtocol
