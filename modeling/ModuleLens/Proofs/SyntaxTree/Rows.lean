import ModuleLens.Proofs.Node.Nesting

/-! Trees that fit a text: children lie in their parents, one after the other, and every span ends
where a scalar starts or the text ends.  Such trees are made from rows of trees that lie one after
the other in a stretch of the text. -/

namespace ModuleLens

namespace SyntaxTree

structure Fits (text : Text) (t : SyntaxTree) : Prop where
  nested : t.Nested
  ends : ∀ s ∈ t.subtrees, text.Boundary s.span.start ∧ text.Boundary s.span.stop

/-- The spans of the named nodes without children have a property. -/
def Leaves (p : Span → Prop) (t : SyntaxTree) : Prop :=
  ∀ s ∈ t.subtrees, s.head.named → s.children = [] → p s.span

/-- Trees that fit a text and lie one after the other in a span of it. -/
structure Row (text : Text) (p : Span → Prop) (s : Span) (ts : List SyntaxTree) : Prop where
  start : text.Boundary s.start
  stop : text.Boundary s.stop
  ordered : s.start ≤ s.stop
  holds : s.Holds (ts.map span)
  fits : ∀ t ∈ ts, t.Fits text
  leaves : ∀ t ∈ ts, t.Leaves p

variable {text : Text} {p q : Span → Prop} {s u : Span} {ts us : List SyntaxTree}
  {head : SyntaxHead}

theorem mem_subtrees_node {t : SyntaxTree} :
    t ∈ (node head ts).subtrees ↔ t = node head ts ∨ ∃ c ∈ ts, t ∈ c.subtrees := by
  rw [subtrees_eq, List.mem_cons, List.mem_flatMap]
  rfl

namespace Row

theorem nil (hstart : text.Boundary s.start) (hstop : text.Boundary s.stop)
    (h : s.start ≤ s.stop) : Row text p s [] :=
  ⟨hstart, hstop, h, ⟨nofun, .nil⟩, nofun, nofun⟩

theorem node (h : Row text p s ts) (hs : head.span = s) (hp : ts = [] → head.named → p s) :
    Row text p s [.node head ts] := by
  subst hs
  refine ⟨h.start, h.stop, h.ordered, Span.holds_singleton h.ordered, fun t ht => ?_,
    fun t ht c hc hn hcs => ?_⟩
  · rw [List.mem_singleton.1 ht]
    refine ⟨fun c hc => ?_, fun c hc => ?_⟩
    · rcases mem_subtrees_node.1 hc with rfl | ⟨d, hd, hc⟩
      · exact h.holds
      · exact (h.fits d hd).nested c hc
    · rcases mem_subtrees_node.1 hc with rfl | ⟨d, hd, hc⟩
      · exact ⟨h.start, h.stop⟩
      · exact (h.fits d hd).ends c hc
  · rw [List.mem_singleton.1 ht] at hc
    rcases mem_subtrees_node.1 hc with rfl | ⟨d, hd, hc⟩
    · exact hp hcs hn
    · exact h.leaves d hd c hc hn hcs

theorem branch {t : SyntaxTree} (h : Row text p s (t :: ts)) (hs : head.span = s) :
    Row text p s [.node head (t :: ts)] :=
  h.node hs fun hnone => absurd hnone (List.cons_ne_nil t ts)

theorem leaf (hstart : text.Boundary s.start) (hstop : text.Boundary s.stop)
    (h : s.start ≤ s.stop) (hs : head.span = s) (hp : head.named → p s) :
    Row text p s [.node head []] :=
  (nil hstart hstop h).node hs fun _ => hp

theorem append (h : Row text p s ts) (h' : Row text p u us) (hsu : s.stop ≤ u.start) :
    Row text p ⟨s.start, u.stop⟩ (ts ++ us) := by
  refine ⟨h.start, h'.stop, Nat.le_trans h.ordered (Nat.le_trans hsu h'.ordered), ?_,
    fun t ht => ?_, fun t ht => ?_⟩
  · rw [List.map_append]
    exact h.holds.append h'.holds h.ordered h'.ordered hsu
  · exact (List.mem_append.1 ht).elim (h.fits t) (h'.fits t)
  · exact (List.mem_append.1 ht).elim (h.leaves t) (h'.leaves t)

theorem widen (h : Row text p s ts) (hstart : text.Boundary u.start) (hstop : text.Boundary u.stop)
    (hs : u.start ≤ s.start) (hu : s.stop ≤ u.stop) : Row text p u ts :=
  ⟨hstart, hstop, Nat.le_trans hs (Nat.le_trans h.ordered hu), h.holds.widen hs hu, h.fits,
    h.leaves⟩

theorem extend (h : Row text p s ts) {b : Nat} (hstop : text.Boundary b) (hb : s.stop ≤ b) :
    Row text p ⟨s.start, b⟩ ts :=
  h.widen h.start hstop (Nat.le_refl _) hb

theorem tighten (h : Row text p s ts) {t : SyntaxTree} (ht : ts.getLast? = some t) :
    Row text p ⟨s.start, t.span.stop⟩ ts := by
  have hlast : (ts.map span).getLast? = some t.span := by rw [List.getLast?_map, ht]; rfl
  have hmem := List.mem_of_getLast? ht
  have hin := h.holds.1 t.span (List.mem_map_of_mem hmem)
  refine ⟨h.start, ?_, Nat.le_trans hin.1 hin.2.1, h.holds.tighten hlast, h.fits, h.leaves⟩
  refine ((h.fits t hmem).ends t ?_).2
  rw [subtrees_eq]
  exact List.mem_cons_self

theorem imp (h : Row text p s ts) (hpq : ∀ v, p v → q v) : Row text q s ts :=
  ⟨h.start, h.stop, h.ordered, h.holds, h.fits,
    fun t ht c hc hn hcs => hpq _ (h.leaves t ht c hc hn hcs)⟩

theorem single {t : SyntaxTree} (h : Row text p s [t]) :
    t.Fits text ∧ s.Encloses t.span ∧ t.Leaves p :=
  ⟨h.fits t List.mem_cons_self, h.holds.1 t.span List.mem_cons_self,
    h.leaves t List.mem_cons_self⟩

end Row

end SyntaxTree

end ModuleLens
