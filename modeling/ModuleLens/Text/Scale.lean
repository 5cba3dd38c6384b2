import ModuleLens.Text.Point
import ModuleLens.Text.Position

/-! A scale beside a text.  It has a mark for every byte, and one for the end, that says where the
scalar holding the byte starts, and it knows where every line starts.  A scale is made in two passes
and then answers every question about offsets and positions without reading the whole text again.
For each question there is a lemma that the answer is the one that the text itself gives. -/

namespace ModuleLens

/-- The start of a scalar: in bytes, as a position, in bytes within its row, and with the text from
there on. -/
structure Mark where
  offset : Nat
  position : Position
  column : Nat
  rest : Text
deriving DecidableEq, Repr, Inhabited

namespace Mark

def nextColumn (column : Nat) (c : Char) : Nat := if c = '\n' then 0 else column + c.utf8Size

theorem point_advance (p : Position) (column : Nat) (c : Char) :
    Point.mk (p.advance c).line (nextColumn column c) = Point.advance ⟨p.line, column⟩ c := by
  by_cases h : c = '\n' <;> simp [Position.advance, nextColumn, Point.advance, h]

/-- The marks of the bytes of a text that starts at an offset, a position and a column, and of its
end. -/
def along (offset : Nat) (position : Position) (column : Nat) : Text → List Mark
  | [] => [⟨offset, position, column, []⟩]
  | c :: t =>
    List.replicate c.utf8Size ⟨offset, position, column, c :: t⟩ ++
      along (offset + c.utf8Size) (position.advance c) (nextColumn column c) t

theorem length_along (offset : Nat) (position : Position) (column : Nat) (t : Text) :
    (along offset position column t).length = t.byteLength + 1 := by
  induction t generalizing offset position column with
  | nil => rfl
  | cons c t ih =>
    simp only [along, List.length_append, List.length_replicate, ih, Text.byteLength_cons]
    omega

theorem along_getElem? (offset : Nat) (position : Position) (column : Nat) (t : Text) (b : Nat)
    (h : b ≤ t.byteLength) :
    (along offset position column t)[b]? =
      some ⟨offset + t.snap b, (t.takeBytes b).foldl Position.advance position,
        (Point.after ⟨position.line, column⟩ (t.takeBytes b)).column,
        t.drop (t.takeBytes b).length⟩ := by
  induction t generalizing offset position column b with
  | nil =>
    have hb : b = 0 := by simpa using h
    subst hb
    simp [along, Text.snap, Text.takeBytes, Point.after]
  | cons c t ih =>
    by_cases hc : c.utf8Size ≤ b
    · have hl : b - c.utf8Size ≤ Text.byteLength t := by
        simp only [Text.byteLength_cons] at h ⊢
        omega
      have ht := ih (offset + c.utf8Size) (position.advance c) (nextColumn column c)
        (b - c.utf8Size) hl
      rw [point_advance] at ht
      simp only [along, Text.snap, Text.takeBytes, hc, if_true, List.foldl_cons,
        Text.byteLength_cons, List.length_cons, List.drop_succ_cons,
        Point.after]
      rw [List.getElem?_append_right (by simpa using hc), List.length_replicate, ht]
      simp [Text.snap, Nat.add_assoc, Point.after]
    · have hlt : b < c.utf8Size := by omega
      rw [along, List.getElem?_append_left (by simpa using hlt)]
      simp [Text.snap, Text.takeBytes, hc, hlt, Point.after]

theorem row_after (p : Position) (column : Nat) (t : Text) :
    (Point.after ⟨p.line, column⟩ t).row = (t.foldl Position.advance p).line := by
  induction t generalizing p column with
  | nil => rfl
  | cons c t ih =>
    rw [Point.after, List.foldl_cons, List.foldl_cons, ← point_advance]
    exact ih (p.advance c) (nextColumn column c)

def pushTimes (marks : Array Mark) (mark : Mark) : Nat → Array Mark
  | 0 => marks
  | n + 1 => pushTimes (marks.push mark) mark n

theorem toList_pushTimes (marks : Array Mark) (mark : Mark) (n : Nat) :
    (pushTimes marks mark n).toList = marks.toList ++ List.replicate n mark := by
  induction n generalizing marks with
  | zero => simp [pushTimes]
  | succ n ih => simp [pushTimes, ih, List.replicate_succ]

def fill (marks : Array Mark) (offset : Nat) (position : Position) (column : Nat) :
    Text → Array Mark
  | [] => marks.push ⟨offset, position, column, []⟩
  | text@(c :: t) =>
    fill (pushTimes marks ⟨offset, position, column, text⟩ c.utf8Size) (offset + c.utf8Size)
      (position.advance c) (nextColumn column c) t

theorem toList_fill (marks : Array Mark) (offset : Nat) (position : Position) (column : Nat)
    (t : Text) :
    (fill marks offset position column t).toList =
      marks.toList ++ along offset position column t := by
  induction t generalizing marks offset position column with
  | nil => simp [fill, along]
  | cons c t ih => simp [fill, along, ih, toList_pushTimes]

end Mark

/-- The start of a line: in bytes, in scalars, and with the text from there on. -/
structure LineStart where
  offset : Nat
  index : Nat
  rest : Text
deriving DecidableEq, Repr, Inhabited

namespace LineStart

/-- Adds the starts of the lines after the first one of a text that goes on at an offset and an
index. -/
def fill (starts : Array LineStart) (offset index : Nat) : Text → Array LineStart
  | [] => starts
  | c :: t =>
    let offset := offset + c.utf8Size
    fill (if c = '\n' then starts.push ⟨offset, index + 1, t⟩ else starts) offset (index + 1) t

/-- The starts of the lines after the first one of a text that goes on at an offset and an
index. -/
def after (offset index : Nat) : Text → List LineStart
  | [] => []
  | c :: t =>
    if c = '\n' then
      ⟨offset + c.utf8Size, index + 1, t⟩ :: after (offset + c.utf8Size) (index + 1) t
    else after (offset + c.utf8Size) (index + 1) t

theorem toList_fill (starts : Array LineStart) (offset index : Nat) (t : Text) :
    (fill starts offset index t).toList = starts.toList ++ after offset index t := by
  induction t generalizing starts offset index with
  | nil => simp [fill, after]
  | cons c t ih => by_cases h : c = '\n' <;> simp [fill, after, ih, h]

theorem length_after (offset index : Nat) (t : Text) :
    (after offset index t).length = t.count '\n' := by
  induction t generalizing offset index with
  | nil => rfl
  | cons c t ih => by_cases h : c = '\n' <;> simp [after, ih, h]

theorem after_getElem? (offset index : Nat) (t : Text) (n : Nat) :
    (after offset index t)[n]? =
      (t.lineFrom 0 (n + 1)).map fun (k, rest) =>
        ⟨offset + Text.byteLength (t.take k), index + k, rest⟩ := by
  induction t generalizing offset index n with
  | nil => rfl
  | cons c t ih =>
    by_cases h : c = '\n'
    · cases n with
      | zero => simp [after, Text.lineFrom, h]
      | succ n =>
        rw [Text.lineFrom, if_pos h, Text.lineFrom_eq]
        simp [after, h, ih, Option.map_map, Function.comp_def, Nat.add_comm 1, Nat.add_assoc]
    · rw [Text.lineFrom, if_neg h, Text.lineFrom_eq]
      simp [after, h, ih, Option.map_map, Function.comp_def, Nat.add_comm 1, Nat.add_assoc]

end LineStart

structure Scale (t : Text) where
  marks : Array Mark
  starts : Array LineStart
  marks_eq : marks.toList = Mark.along 0 ⟨0, 0⟩ 0 t
  starts_eq : starts.toList = ⟨0, 0, t⟩ :: LineStart.after 0 0 t

namespace Scale

variable {t : Text}

def of (t : Text) : Scale t where
  marks := Mark.fill #[] 0 ⟨0, 0⟩ 0 t
  starts := LineStart.fill #[⟨0, 0, t⟩] 0 0 t
  marks_eq := by simp [Mark.toList_fill]
  starts_eq := by simp [LineStart.toList_fill]

def mark (s : Scale t) (b : Nat) : Mark := s.marks.getD b default

def byteLength (s : Scale t) : Nat := s.marks.size - 1

def extent (s : Scale t) (span : Span) : Extent :=
  let stop := min span.stop s.byteLength
  let start := min span.start stop
  { positions := ⟨(s.mark start).position, (s.mark stop).position⟩
    bytes := ⟨(s.mark start).offset, (s.mark stop).offset⟩ }

def slice (s : Scale t) (span : Span) : Text :=
  let first := s.mark span.start
  if first.offset = span.start ∧ span.start ≤ span.stop then
    (first.rest.takeBytes? (span.stop - span.start)).getD []
  else
    []

/-- The point of a byte offset, which may lie inside a scalar and is cut to the text. -/
def point (s : Scale t) (b : Nat) : Point :=
  let b := min b s.byteLength
  let m := s.mark b
  ⟨m.position.line, m.column + (b - m.offset)⟩

def positionOf (s : Scale t) (b : Nat) : Except OutOfRange Position :=
  if b ≤ s.byteLength then .ok (s.mark b).position else .error (.offset b s.byteLength)

def rangeOf (s : Scale t) (span : Span) : Except OutOfRange Range := do
  let start ← s.positionOf span.start
  let stop ← s.positionOf span.stop
  return ⟨start, stop⟩

def line? (s : Scale t) (n : Nat) : Option Text :=
  s.starts[n]?.map fun start => Text.firstLine start.rest

/-- The start of the line that a position addresses, and the text between the two. -/
def before (s : Scale t) (p : Position) : Except OutOfRange (LineStart × Text) :=
  match s.starts[p.line]? with
  | none => .error (.line p.line s.starts.size)
  | some start =>
    let line := Text.firstLine start.rest
    if p.character ≤ Text.unitLength line then .ok (start, Text.takeUnits line p.character)
    else .error (.character p.line p.character (Text.unitLength line))

def charOffset (s : Scale t) (p : Position) : Except OutOfRange Nat :=
  (s.before p).map fun (start, text) => start.index + text.length

def offsetOf (s : Scale t) (p : Position) : Except OutOfRange Nat :=
  (s.before p).map fun (start, text) => start.offset + Text.byteLength text

def spanOf (s : Scale t) (r : Range) : Except OutOfRange Span := do
  let start ← s.offsetOf r.start
  let stop ← s.offsetOf r.stop
  return ⟨start, stop⟩

/-- The byte offsets that the positions of a line address, for a line that starts at an offset. -/
def lineOffsets (offset : Nat) : Text → List Nat
  | [] => [offset]
  | c :: line =>
    List.replicate (Text.unitWidth c) offset ++ lineOffsets (offset + c.utf8Size) line

def offsets (s : Scale t) : List (List Nat) :=
  s.starts.toList.map fun start => lineOffsets start.offset (Text.firstLine start.rest)

theorem size_marks (s : Scale t) : s.marks.size = t.byteLength + 1 := by
  rw [← Array.length_toList, s.marks_eq, Mark.length_along]

theorem byteLength_eq (s : Scale t) : s.byteLength = t.byteLength := by
  rw [byteLength, size_marks]
  omega

theorem mark_eq (s : Scale t) (b : Nat) (h : b ≤ t.byteLength) :
    s.mark b =
      ⟨t.snap b, t.positionAt b, (Point.after ⟨0, 0⟩ (t.takeBytes b)).column,
        t.drop (t.takeBytes b).length⟩ := by
  have hm := Mark.along_getElem? 0 ⟨0, 0⟩ 0 t b h
  rw [← s.marks_eq, Array.getElem?_toList] at hm
  simp [mark, Array.getD_eq_getD_getElem?, hm, Text.positionAt, Position.ofText]

theorem mark_beyond (s : Scale t) (b : Nat) (h : t.byteLength < b) : s.mark b = default := by
  have hb : s.marks.size ≤ b := by
    rw [size_marks]
    omega
  simp [mark, Array.getD_eq_getD_getElem?, Array.getElem?_eq_none hb]

theorem extent_eq (s : Scale t) (span : Span) : s.extent span = Extent.ofSpan t span := by
  have hstop : min span.stop t.byteLength ≤ t.byteLength := by omega
  have hstart : min span.start (min span.stop t.byteLength) ≤ t.byteLength := by omega
  simp only [extent, Extent.ofSpan, byteLength_eq, mark_eq s _ hstop, mark_eq s _ hstart]

theorem slice_eq (s : Scale t) (span : Span) :
    s.slice span = t.slice span.start span.stop := by
  by_cases ho : span.start ≤ span.stop
  · by_cases hs : t.snap span.start = span.start
    · have hl : span.start ≤ t.byteLength := by
        have := t.snap_le_byteLength span.start
        omega
      simp [slice, mark_eq s _ hl, hs, ho, Text.slice, Text.slice?, Text.dropBytes?_of_snap hs]
    · have hn : (s.mark span.start).offset ≠ span.start := by
        by_cases hl : span.start ≤ t.byteLength
        · simpa [mark_eq s _ hl] using hs
        · have hb : s.mark span.start = default := s.mark_beyond _ (by omega)
          rw [hb]
          show 0 ≠ span.start
          omega
      simp [slice, hn, Text.slice, Text.slice?, Text.dropBytes?_of_snap_ne hs]
  · simp [slice, ho, Text.slice, Text.slice?]

theorem point_eq (s : Scale t) (b : Nat) : s.point b = Point.ofOffset t b := by
  have hb : min b t.byteLength ≤ t.byteLength := by omega
  simp only [point, Point.ofOffset, byteLength_eq, mark_eq s _ hb]
  rw [Mark.row_after ⟨0, 0⟩]
  rfl

theorem positionOf_eq (s : Scale t) (b : Nat) : s.positionOf b = t.positionOf b := by
  by_cases hb : b ≤ t.byteLength
  · simp [positionOf, Text.positionOf, byteLength_eq, hb, mark_eq s _ hb]
  · simp [positionOf, Text.positionOf, byteLength_eq, hb]

theorem rangeOf_eq (s : Scale t) (span : Span) : s.rangeOf span = t.rangeOf span := by
  simp only [rangeOf, Text.rangeOf, positionOf_eq]

theorem size_starts (s : Scale t) : s.starts.size = t.lineCount := by
  rw [← Array.length_toList, s.starts_eq, List.length_cons, LineStart.length_after, Text.lineCount]

theorem starts_getElem? (s : Scale t) (n : Nat) :
    s.starts[n]? =
      (t.lineFrom 0 n).map fun (k, rest) => ⟨Text.byteLength (t.take k), k, rest⟩ := by
  rw [← Array.getElem?_toList, s.starts_eq]
  cases n with
  | zero => simp [Text.lineFrom]
  | succ n => simp [LineStart.after_getElem?]

theorem line?_eq (s : Scale t) (n : Nat) : s.line? n = t.line? n := by
  simp [line?, Text.line?, starts_getElem?, Option.map_map, Function.comp_def]

theorem charOffset_eq (s : Scale t) (p : Position) : s.charOffset p = t.charOffset p := by
  simp only [charOffset, before, Text.charOffset, starts_getElem?, size_starts]
  cases t.lineFrom 0 p.line with
  | none => rfl
  | some line =>
    simp only [Option.map_some]
    split <;> rfl

theorem offsetOf_eq (s : Scale t) (p : Position) : s.offsetOf p = t.offsetOf p := by
  simp only [offsetOf, before, Text.offsetOf, Text.charOffset, starts_getElem?, size_starts]
  cases hl : t.lineFrom 0 p.line with
  | none => rfl
  | some line =>
    simp only [Option.map_some]
    split
    · have hd := Text.drop_of_lineFrom hl
      have hp := (Text.takeUnits_prefix (Text.firstLine line.2) p.character).trans
        (List.takeWhile_prefix _)
      simp only [Except.map, List.take_add, hd, ← List.prefix_iff_eq_take.1 hp,
        Text.byteLength_append]
    · rfl

theorem spanOf_eq (s : Scale t) (r : Range) : s.spanOf r = t.spanOf r := by
  simp only [spanOf, Text.spanOf, offsetOf_eq]

theorem lineOffsets_getElem? (offset : Nat) (line : Text) (u : Nat) :
    (lineOffsets offset line)[u]? =
      if u ≤ Text.unitLength line then
        some (offset + Text.byteLength (Text.takeUnits line u))
      else none := by
  induction line generalizing offset u with
  | nil =>
    cases u <;> simp [lineOffsets, Text.takeUnits]
  | cons c line ih =>
    by_cases hc : Text.unitWidth c ≤ u
    · rw [lineOffsets, List.getElem?_append_right (by simpa using hc), List.length_replicate, ih]
      have hu : (u - Text.unitWidth c ≤ Text.unitLength line) ↔
          (u ≤ Text.unitLength (c :: line)) := by
        simp only [Text.unitLength_cons]
        omega
      simp only [hu, Text.takeUnits, hc, if_true]
      simp [Nat.add_assoc]
    · have hu : u ≤ Text.unitWidth c + Text.unitLength line := by omega
      rw [lineOffsets, List.getElem?_append_left (by simpa using hc)]
      simp [hu, Text.takeUnits, hc, Nat.lt_of_not_le hc]

theorem offsets_getElem? (s : Scale t) (p : Position) :
    (s.offsets[p.line]?.bind fun row => row[p.character]?) = (t.offsetOf p).toOption := by
  rw [← offsetOf_eq s]
  simp only [offsets, offsetOf, before, List.getElem?_map, Array.getElem?_toList]
  cases s.starts[p.line]? with
  | none => rfl
  | some start =>
    simp only [Option.map_some, Option.bind_some, lineOffsets_getElem?]
    split <;> rfl

end Scale

end ModuleLens
