import Mathlib.Data.List.DropRight
import ModuleLens.Proofs.Text.Extents
import ModuleLens.Proofs.Text.Slices
import ModuleLens.Text.Class

/-! Stretches of a text.  A stretch is some text with the byte at which it starts; where it stands
in a larger text, its parts do so as well, and it ends where scalars start.  The lines of a text are
stretches of it, one after the other. -/

namespace ModuleLens

/-- A stretch of a text, and the byte at which it starts. -/
structure Stretch where
  start : Nat
  text : Text

namespace Stretch

def span (l : Stretch) : Span := ⟨l.start, l.start + l.text.byteLength⟩

def In (text : Text) (l : Stretch) : Prop :=
  ∃ before after, text = before ++ l.text ++ after ∧ l.start = before.byteLength

variable {text : Text} {l : Stretch}

theorem In.slice? (h : l.In text) : text.slice? l.span.start l.span.stop = some l.text := by
  obtain ⟨before, after, ht, hs⟩ := h
  refine Text.slice?_eq_some.2 ⟨before, after, ht, hs, ?_⟩
  rw [span, hs, Text.byteLength_append]

theorem In.sub (h : l.In text) {pre t post : Text} (ht : l.text = pre ++ t ++ post) :
    In text ⟨l.start + pre.byteLength, t⟩ := by
  obtain ⟨before, after, rfl, hs⟩ := h
  refine ⟨before ++ pre, post ++ after, ?_, ?_⟩
  · rw [ht]
    simp only [List.append_assoc]
  · rw [hs, Text.byteLength_append]

theorem In.start_boundary (h : l.In text) : text.Boundary l.span.start := by
  obtain ⟨before, after, ht, hs⟩ := h
  exact ⟨before, l.text ++ after, by rw [ht, List.append_assoc], hs⟩

theorem In.stop_boundary (h : l.In text) : text.Boundary l.span.stop := by
  obtain ⟨before, after, ht, hs⟩ := h
  refine ⟨before ++ l.text, after, ht, ?_⟩
  rw [span, hs, Text.byteLength_append]

/-- A stretch with white space around it is another one. -/
def Padded (l m : Stretch) : Prop :=
  ∃ lead trail, (∀ c ∈ lead, Text.isSpace c) ∧ (∀ c ∈ trail, Text.isSpace c) ∧
    m.text = lead ++ l.text ++ trail ∧ l.start = m.start + lead.byteLength

theorem Padded.in {m : Stretch} (h : l.Padded m) (hm : m.In text) : l.In text := by
  obtain ⟨lead, trail, -, -, ht, hs⟩ := h
  have hh := hm.sub ht
  rwa [← hs] at hh

theorem Padded.encloses {m : Stretch} (h : l.Padded m) : m.span.Encloses l.span := by
  obtain ⟨lead, trail, -, -, ht, hs⟩ := h
  have hlen := congrArg Text.byteLength ht
  rw [Text.byteLength_append, Text.byteLength_append] at hlen
  refine ⟨?_, Nat.le_add_right _ _, ?_⟩ <;> simp only [span] <;> omega

def isBlank (l : Stretch) : Bool := l.text.all Text.isSpace

def trimmed (l : Stretch) : Stretch :=
  ⟨l.start + Text.byteLength (l.text.takeWhile Text.isSpace), Text.trim l.text⟩

theorem padded_trimmed (l : Stretch) : l.trimmed.Padded l := by
  refine ⟨l.text.takeWhile Text.isSpace, (Text.trimStart l.text).rtakeWhile Text.isSpace,
    fun c hc => List.mem_takeWhile_imp hc, fun c hc => List.mem_rtakeWhile_imp hc, ?_, rfl⟩
  have hright : Text.trim l.text ++ (Text.trimStart l.text).rtakeWhile Text.isSpace =
      Text.trimStart l.text := List.rdropWhile_append_rtakeWhile
  rw [List.append_assoc, trimmed, hright]
  exact List.takeWhile_append_dropWhile.symm

/-- A stretch that is not empty and does not end in white space. -/
def Tight (l : Stretch) : Prop := l.text ≠ [] ∧ ∀ c ∈ l.text.getLast?, Text.isSpace c = false

theorem tight_trimmed {l : Stretch} (h : l.isBlank = false) : l.trimmed.Tight := by
  have hne : Text.trim l.text ≠ [] := by
    intro hnil
    have hright : ∀ c ∈ Text.trimStart l.text, Text.isSpace c := List.rdropWhile_eq_nil_iff.1 hnil
    have hsplit : l.text.takeWhile Text.isSpace ++ Text.trimStart l.text = l.text :=
      List.takeWhile_append_dropWhile
    have hall : l.text.all Text.isSpace := by
      rw [← hsplit, List.all_append, Bool.and_eq_true, List.all_eq_true, List.all_eq_true]
      exact ⟨fun c hc => List.mem_takeWhile_imp hc, hright⟩
    rw [isBlank, hall] at h
    cases h
  refine ⟨hne, fun c hc => ?_⟩
  have hlast := List.rdropWhile_last_not Text.isSpace (Text.trimStart l.text) hne
  rw [Option.mem_def, trimmed, List.getLast?_eq_some_getLast hne, Option.some.injEq] at hc
  rw [← hc]
  exact Bool.eq_false_iff.2 hlast

/-- Lines, the first of which starts at a byte; a line feed follows all but the last one. -/
def linesFrom : Nat → List Text → List Stretch
  | _, [] => []
  | b, l :: ls => ⟨b, l⟩ :: linesFrom (b + l.byteLength + 1) ls

def lines (t : Text) : List Stretch := linesFrom 0 t.lines

theorem linesFrom_in {b : Nat} {ls : List Text} (h : In text ⟨b, ['\n'].intercalate ls⟩) :
    (∀ l ∈ linesFrom b ls, l.In text) ∧
      (Stretch.mk b (['\n'].intercalate ls)).span.Holds ((linesFrom b ls).map span) := by
  induction ls generalizing b with
  | nil => exact ⟨nofun, nofun, .nil⟩
  | cons l ls ih =>
    cases ls with
    | nil =>
      rw [List.intercalate_singleton] at h ⊢
      exact ⟨fun m hm => List.mem_singleton.1 hm ▸ h,
        Span.holds_singleton (Nat.le_add_right _ _)⟩
    | cons m ls =>
      rw [List.intercalate_cons_cons] at h ⊢
      have hfirst : l ++ ['\n'] ++ ['\n'].intercalate (m :: ls) =
          [] ++ l ++ (['\n'] ++ ['\n'].intercalate (m :: ls)) := List.append_assoc l _ _
      have hrest : In text ⟨b + l.byteLength + 1, ['\n'].intercalate (m :: ls)⟩ := by
        have hh := h.sub (List.append_nil _).symm
        rwa [Text.byteLength_append, ← Nat.add_assoc] at hh
      obtain ⟨hin, hholds⟩ := ih hrest
      refine ⟨List.forall_mem_cons.2 ⟨h.sub hfirst, hin⟩, ?_⟩
      have hline : (Stretch.mk b l).span.Holds [(Stretch.mk b l).span] :=
        Span.holds_singleton (Nat.le_add_right _ _)
      refine (hline.append hholds (Nat.le_add_right _ _) (Nat.le_add_right _ _)
        (Nat.le_succ _)).widen (Nat.le_refl _) (Nat.le_of_eq ?_)
      simp only [span, Text.byteLength_append, Nat.add_assoc]
      rfl

/-- The lines of a text stand in it, one after the other. -/
theorem lines_in (t : Text) :
    (∀ l ∈ lines t, l.In t) ∧ (Stretch.mk 0 t).span.Holds ((lines t).map span) := by
  have hjoin : ['\n'].intercalate t.lines = t := List.intercalate_splitOn '\n'
  have hin : In t ⟨0, ['\n'].intercalate t.lines⟩ := by
    rw [hjoin]
    exact ⟨[], [], (List.append_nil t).symm, rfl⟩
  have hh := linesFrom_in hin
  rwa [hjoin] at hh

end Stretch

end ModuleLens
