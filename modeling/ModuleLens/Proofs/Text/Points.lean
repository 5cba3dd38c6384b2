import ModuleLens.Proofs.Text.Aligned
import ModuleLens.Proofs.Text.Utf8

/-! Points and editor lines.  The point of a byte is what the bytes before it say: as many rows as
there are line feeds, and the bytes after the last of them.  Its row is the line of the editor
position there, and its column counts from the byte at which this line starts. -/

namespace ModuleLens

namespace Utf8

theorem length_encodeChar (c : Char) : (encodeChar c).length = c.utf8Size := by
  rw [encodeChar_eq, List.length_map, String.length_utf8EncodeChar]

theorem length_encode (t : Text) : (encode t).length = t.byteLength := by
  induction t with
  | nil => rfl
  | cons c t ih =>
    rw [encode, List.flatMap_cons, List.length_append, length_encodeChar, Text.byteLength_cons]
    exact congrArg (c.utf8Size + ·) ih

theorem lineFeed_not_mem_encodeChar {c : Char} (h : c ≠ '\n') : 10 ∉ encodeChar c := by
  have hc : c.toNat ≠ 10 := fun he => h (Char.toNat_inj.1 he)
  rcases encodeChar_cases c with ⟨_, he⟩ | ⟨_, _, he⟩ | ⟨_, _, he⟩ | ⟨_, he⟩
  · simpa [he] using Ne.symm hc
  · simp [he]
    omega
  · simp [he]
    omega
  · simp [he]
    omega

/-- The first bytes of a text are whole scalars and the beginning of one more, which is no line
feed. -/
theorem take_encode {t : Text} {b : Nat} (h : b ≤ t.byteLength) :
    ∃ more, (encode t).take b = encode (t.takeBytes b) ++ more ∧ 10 ∉ more ∧
      more.length = b - t.snap b := by
  obtain ⟨rest, ht, hle, hlt⟩ := t.takeBytes_cases b
  rw [Text.snap]
  generalize t.takeBytes b = head at ht hle hlt ⊢
  subst ht
  have hbytes : encode (head ++ rest) = encode head ++ encode rest := List.flatMap_append
  have htake : (encode (head ++ rest)).take b =
      encode head ++ (encode rest).take (b - head.byteLength) := by
    rw [hbytes, List.take_append, length_encode, List.take_of_length_le]
    rw [length_encode]
    exact hle
  refine ⟨_, htake, ?_, ?_⟩
  · cases rest with
    | nil => simp [encode]
    | cons c rest =>
      have hc := hlt c rfl
      by_cases hn : c = '\n'
      · -- a line feed is one byte, so none of it is cut off
        have hzero : b - head.byteLength = 0 := by
          have hsize : c.utf8Size = 1 := by rw [hn]; rfl
          omega
        rw [hzero, List.take_zero]
        exact List.not_mem_nil
      · have hshort : b - head.byteLength ≤ (encodeChar c).length := by
          rw [length_encodeChar]
          omega
        rw [encode, List.flatMap_cons, List.take_append_of_le_length hshort]
        exact fun hm => lineFeed_not_mem_encodeChar hn (List.mem_of_mem_take hm)
  · rw [Text.byteLength_append] at h
    rw [List.length_take, length_encode]
    exact Nat.min_eq_left (by omega)

end Utf8

namespace Point

/-- The point at which bytes end: their line feeds are counted, and the bytes after the last one,
looking for it from the end. -/
def ofBytes (bytes : List Nat) : Point :=
  ⟨bytes.count 10, (bytes.reverse.takeWhile (· != 10)).length⟩

theorem ofBytes_append {bytes more : List Nat} (h : 10 ∉ more) :
    ofBytes (bytes ++ more) =
      ⟨(ofBytes bytes).row, (ofBytes bytes).column + more.length⟩ := by
  have hmore : ∀ b ∈ more.reverse, (b != 10) = true := fun b hb => by
    simpa using fun he : b = 10 => h (he ▸ List.mem_reverse.1 hb)
  simp only [ofBytes, List.count_append, List.count_eq_zero.2 h, Nat.add_zero,
    List.reverse_append, List.takeWhile_append_of_pos hmore, List.length_append,
    List.length_reverse, Nat.add_comm more.length]

theorem ofBytes_lineFeed (bytes : List Nat) :
    ofBytes (bytes ++ [10]) = ⟨(ofBytes bytes).row + 1, 0⟩ := by
  simp [ofBytes]

theorem ofBytes_encode (t : Text) : ofBytes (Utf8.encode t) = after ⟨0, 0⟩ t := by
  induction t using List.reverseRecOn with
  | nil => rfl
  | append_singleton t c ih =>
    have hbytes : Utf8.encode (t ++ [c]) = Utf8.encode t ++ Utf8.encodeChar c := by
      simp [Utf8.encode]
    rw [hbytes, after_append, ← ih]
    by_cases hc : c = '\n'
    · subst hc
      exact ofBytes_lineFeed _
    · rw [ofBytes_append (Utf8.lineFeed_not_mem_encodeChar hc), Utf8.length_encodeChar]
      simp [after, advance, hc]

/-- Reading scalars and scanning bytes lead to the same point, also inside a scalar. -/
theorem ofOffset_eq_ofBytes (t : Text) (b : Nat) :
    ofOffset t b = ofBytes ((Utf8.encode t).take b) := by
  let b' := min b t.byteLength
  obtain ⟨more, htake, hmore, hlen⟩ := Utf8.take_encode (Nat.min_le_right b t.byteLength)
  have hcut : (Utf8.encode t).take b = (Utf8.encode t).take b' := by
    rw [List.take_eq_take_iff, Utf8.length_encode]
    omega
  rw [hcut, htake, ofBytes_append hmore, ofBytes_encode, hlen]
  rfl

/-- A point and an editor position count the same lines, and start them at the same places. -/
theorem after_ofText (t : Text) :
    (after ⟨0, 0⟩ t).row = (Position.ofText t).line ∧
      ((Position.ofText t).character = 0 → (after ⟨0, 0⟩ t).column = 0) := by
  induction t using List.reverseRecOn with
  | nil => exact ⟨rfl, fun _ => rfl⟩
  | append_singleton t c ih =>
    have hw := Text.unitWidth_pos c
    rw [after_append, Position.ofText_append]
    by_cases hc : c = '\n'
    · simp [after, advance, Position.advance, hc, ← ih.1]
    · simp only [after, List.foldl_cons, List.foldl_nil, advance, Position.advance, hc, if_false]
      exact ⟨ih.1, fun h => by omega⟩

theorem after_line {line : Text} (h : '\n' ∉ line) (p : Point) :
    p.after line = ⟨p.row, p.column + line.byteLength⟩ := by
  induction line generalizing p with
  | nil => rfl
  | cons c line ih =>
    have hc : c ≠ '\n' := fun hc => h (hc ▸ List.mem_cons_self)
    have ih := ih (fun hm => h (List.mem_cons_of_mem c hm)) (p.advance c)
    change (p.advance c).after line = _
    simpa [advance, hc, Nat.add_assoc] using ih

theorem exists_lineStart {t : Text} {b : Nat} (h : b ≤ t.byteLength) :
    ∃ lead rest, t = lead ++ rest ∧ Position.ofText lead = ⟨(t.positionAt b).line, 0⟩ ∧
      ofOffset t b = ⟨(t.positionAt b).line, b - lead.byteLength⟩ ∧ lead.byteLength ≤ b := by
  obtain ⟨rest, ht, hle, _⟩ := t.takeBytes_cases b
  obtain ⟨lead, line, hhead, hline, hlead⟩ := Position.exists_lineStart (t.takeBytes b)
  have hlen := congrArg Text.byteLength hhead
  rw [Text.byteLength_append] at hlen
  have hstart : after ⟨0, 0⟩ lead = ⟨(t.positionAt b).line, 0⟩ := by
    obtain ⟨hrow, hcolumn⟩ := after_ofText lead
    rw [hlead] at hrow hcolumn
    exact congrArg₂ Point.mk hrow (hcolumn rfl)
  refine ⟨lead, line ++ rest, ?_, hlead, ?_, by omega⟩
  · rw [← List.append_assoc, ← hhead]
    exact ht
  · simp only [ofOffset, Nat.min_eq_left h, hhead, after_append, hstart, after_line hline, Text.snap,
      Text.byteLength_append]
    congr 1
    omega

end Point

/-- The point of a byte, inside a scalar or not, is found by scanning the bytes before it.  Its row
is the line of the editor position of the byte, and the column takes the byte back to where this
line starts. -/
theorem points_keep_lines (t : Text) (b : Nat) (h : b ≤ t.byteLength) :
    let point := Point.ofOffset t b
    point = .ofBytes ((Utf8.encode t).take b) ∧
    ∃ p, t.positionOf b = .ok p ∧ point.row = p.line ∧ point.column ≤ b ∧
      t.offsetOf ⟨point.row, 0⟩ = .ok (b - point.column) ∧
      (t.byteLength < UInt32.size → p.line < UInt32.size ∧ p.character < UInt32.size) := by
  intro point
  obtain ⟨lead, rest, ht, hlead, hpoint, hle⟩ := Point.exists_lineStart h
  have hpoint : point = ⟨(t.positionAt b).line, b - lead.byteLength⟩ := hpoint
  have hoffset : t.offsetOf ⟨(t.positionAt b).line, 0⟩ = .ok lead.byteLength :=
    Text.offsetOf_eq_ok.2 ⟨lead, rest, ht, .inl hlead.symm, rfl⟩
  refine ⟨Point.ofOffset_eq_ofBytes t b, _, Text.positionOf_of_le h, ?_, ?_, ?_,
    fun hlen => Text.positionAt_fits hlen b⟩
  · rw [hpoint]
  · rw [hpoint]
    exact Nat.sub_le b _
  · rw [hpoint, hoffset, Nat.sub_sub_self hle]

/-- The byte lies inside the last scalar, after two line feeds. -/
theorem points_keep_lines_inside :
    7 ≤ Text.byteLength ['a', '\n', 'é', '\n', '😀'] ∧
    ∃ p, Text.positionOf ['a', '\n', 'é', '\n', '😀'] 7 = .ok p ∧ 2 = p.line ∧
      Text.offsetOf ['a', '\n', 'é', '\n', '😀'] ⟨2, 0⟩ = .ok 5 := by
  have hle : 7 ≤ Text.byteLength ['a', '\n', 'é', '\n', '😀'] := by decide
  obtain ⟨hscan, p, hp, hrow, _, hoffset, _⟩ := points_keep_lines _ 7 hle
  have hpoint : Point.ofOffset ['a', '\n', 'é', '\n', '😀'] 7 = ⟨2, 2⟩ := by decide
  rw [hpoint] at hrow hoffset
  exact ⟨hle, p, hp, hrow, hoffset⟩

end ModuleLens
