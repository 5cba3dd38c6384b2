import ModuleLens.Node.Link
import ModuleLens.Node.Reach
import ModuleLens.Proofs.Sorting

/-! Drafts, node by node.  Every node of a draft is made in one way, so what making a node and giving
it another role preserve holds of every draft.  Numbering changes nothing but identities and
linking nothing but outcomes. -/

namespace ModuleLens

namespace Node

def nodes (n : Node) : List Node := n :: n.descendants

theorem descendants_eq (n : Node) : n.descendants = n.children.flatMap nodes := by
  obtain ⟨info, label, outcome, children⟩ := n
  rw [descendants_mk, Node.children]
  induction children with
  | nil => rfl
  | cons c cs ih => rw [underAll_cons, ih, List.flatMap_cons, nodes]

theorem mem_descendants {d n : Node} :
    d ∈ n.descendants ↔ ∃ c ∈ n.children, d = c ∨ d ∈ c.descendants := by
  rw [descendants_eq, List.mem_flatMap]
  simp only [nodes, List.mem_cons]

theorem mem_nodes {d n : Node} : d ∈ n.nodes ↔ d = n ∨ ∃ c ∈ n.children, d ∈ c.nodes := by
  rw [nodes, List.mem_cons, descendants_eq, List.mem_flatMap]

@[elab_as_elim]
theorem childInduction {motive : Node → Prop}
    (h : ∀ n, (∀ c ∈ n.children, motive c) → motive n) (n : Node) : motive n := by
  refine h n fun c hc => ?_
  have hs : sizeOf c < sizeOf n := by
    obtain ⟨info, label, outcome, children⟩ := n
    have hlt := List.sizeOf_lt_of_mem (show c ∈ children from hc)
    simp only [mk.sizeOf_spec]
    omega
  exact childInduction h c
termination_by sizeOf n
decreasing_by exact hs

end Node

namespace DraftContext

open Node

/-- What holds of every draft if it holds of the nodes that drafting makes from nodes of which it
holds. -/
structure Hereditary (ctx : DraftContext) (p : Node → Prop) : Prop where
  withRole : ∀ n role, p n → p (n.withRole role)
  make : ∀ span label cs, (∀ c ∈ cs, p c) → p (ctx.make span label cs)

/-- What holds of the draft of a part, and of those of its own parts. -/
def Carries (p : Node → Prop) (q : Part) : Prop := p q.node ∧ ∀ r ∈ q.parts, p r.node

variable {ctx : DraftContext} {p : Node → Prop}

namespace Hereditary

theorem pick (hp : Hereditary ctx p) (role : Role) (kinds : List String) {ps : List Part}
    (h : ∀ q ∈ ps, p q.node) : ∀ c ∈ ModuleLens.pick role kinds ps, p c := by
  intro c hc
  simp only [ModuleLens.pick, Option.mem_toList, Option.map_eq_some_iff] at hc
  obtain ⟨q, hq, rfl⟩ := hc
  exact hp.withRole _ _ (h q (List.mem_of_find?_eq_some hq))

theorem place (hp : Hereditary ctx p) (role : Role) {ps : List Part} (h : ∀ q ∈ ps, p q.node) :
    ∀ c ∈ ModuleLens.place role ps, p c := by
  intro c hc
  obtain ⟨q, hq, rfl⟩ := List.mem_map.1 hc
  exact hp.withRole _ _ (h q hq)

theorem pickAll (hp : Hereditary ctx p) (role : Role) (kind : String) {ps : List Part}
    (h : ∀ q ∈ ps, p q.node) : ∀ c ∈ ModuleLens.pickAll role kind ps, p c :=
  hp.place role fun q hq => h q (List.mem_filter.1 hq).1

theorem recovered (hp : Hereditary ctx p) {ps : Parts} (h : ∀ q ∈ ps.visible, p q.node) :
    ∀ c ∈ ps.recovered, p c :=
  hp.place .recovered fun q hq => h q (List.mem_filter.1 hq).1

theorem argumentsOf (hp : Hereditary ctx p) {q : Part} (h : Carries p q) :
    ∀ c ∈ DraftContext.argumentsOf q, p c := by
  intro c hc
  rw [DraftContext.argumentsOf] at hc
  split at hc
  · refine hp.place .argument (fun r hr => h.2 r ?_) c hc
    exact (List.mem_filter.1 (List.mem_filter.1 hr).1).1
  · rw [List.mem_singleton] at hc
    subst hc
    exact hp.withRole _ _ h.1

theorem superclass (hp : Hereditary ctx p) {ps : List Part} (h : ∀ q ∈ ps, Carries p q) :
    ∀ c ∈ DraftContext.superclass ps, p c := by
  intro c hc
  rw [DraftContext.superclass] at hc
  split at hc
  · cases hc
  · next q hq =>
    have hcarry := h q (List.mem_of_find?_eq_some hq)
    refine hp.pick .superclass ["type"] (fun r hr => hcarry.2 r ?_) c hc
    exact (List.mem_filter.1 (List.mem_filter.1 hr).1).1

theorem mem_leftOver {n : Nat} {ps : List Part} {q : Part} (h : q ∈ operands.leftOver n ps) :
    q ∈ ps := by
  fun_induction operands.leftOver n ps with
  | case1 => exact h
  | case2 n a ps _ ih | case3 a ps _ _ ih =>
    rcases List.mem_cons.1 h with rfl | h
    · exact List.mem_cons_self
    · exact List.mem_cons_of_mem a (ih h)
  | case4 a ps _ _ n ih | case5 n a ps _ _ ih => exact List.mem_cons_of_mem a (ih h)

theorem operands (hp : Hereditary ctx p) {ps : Parts} (h : ∀ q ∈ ps.visible, p q.node) :
    ∀ c ∈ ctx.operands ps, p c := by
  have hn (q : Part) (hq : q ∈ ps.named) : p q.node := h q (List.mem_filter.1 hq).1
  intro c hc
  simp only [DraftContext.operands, List.mem_append, List.mem_map, Option.mem_toList,
    Option.map_eq_some_iff] at hc
  rcases hc with ((⟨q, hq, rfl⟩ | ⟨q, hq, rfl⟩) | ⟨q, hq, rfl⟩) | ⟨q, hq, rfl⟩
  · exact hp.withRole _ _ (hn q (List.mem_of_mem_take hq))
  · exact hp.withRole _ _ (hp.make _ _ _ fun _ hd => absurd hd List.not_mem_nil)
  · exact hp.withRole _ _ (hn q (List.mem_of_mem_drop (List.mem_of_mem_take hq)))
  · exact hp.withRole _ _ (h q (mem_leftOver hq))

theorem childrenOf (hp : Hereditary ctx p) {ps : Parts} (hc : ∀ q ∈ ps.visible, Carries p q)
    (form : Form) : ∀ c ∈ ctx.childrenOf ps form, p c := by
  have h (q : Part) (hq : q ∈ ps.visible) : p q.node := (hc q hq).1
  have hn (q : Part) (hq : q ∈ ps.named) : p q.node := h q (List.mem_filter.1 hq).1
  have hl (kinds : List String) (q : Part) (hq : q ∈ leave kinds ps.named) : p q.node :=
    hn q (List.mem_of_mem_eraseP hq)
  have he (qs : List Part) (hqs : ∀ q ∈ qs, p q.node) (q : Part) (hq : q ∈ expressions qs) :
      p q.node := hqs q (List.mem_filter.1 hq).1
  have hb := he (ps.named.filter fun q => q.kind != "objectBody") fun q hq =>
    hn q (List.mem_filter.1 hq).1
  have hr := hp.recovered h
  have hpick (role : Role) (kinds : List String) := hp.pick role kinds hn
  have hall (role : Role) (kind : String) := hp.pickAll role kind hn
  have hplace (role : Role) (qs : List Part) (hqs : ∀ q ∈ qs, p q.node) := hp.place role hqs
  have hs := hp.superclass fun q (hq : q ∈ ps.named) => hc q (List.mem_filter.1 hq).1
  have ha (kinds : List String) (q : Part) (hq : q ∈ leave kinds ps.named) :=
    hp.argumentsOf (hc q (List.mem_filter.1 (List.mem_of_mem_eraseP hq)).1)
  intro c hc
  cases form
  case binaryExpression => exact hp.operands h c hc
  -- every other construct takes its children from the slots above, one after the other
  all_goals
    simp only [DraftContext.childrenOf, propertyChildren, entryChildren, List.mem_append,
      List.mem_flatMap, List.not_mem_nil] at hc
  all_goals grind [List.mem_of_mem_take, List.mem_of_mem_drop]

mutual

theorem draftPart (hp : Hereditary ctx p) : ∀ tree : SyntaxTree, Carries p (ctx.draftPart tree)
  | .node head children => by
    have hparts := draftAll hp children
    rw [DraftContext.draftPart]
    refine ⟨?_, fun r hr => (hparts r hr).1⟩
    dsimp only
    split
    · exact hp.make _ _ _ fun _ hd => absurd hd List.not_mem_nil
    · exact hp.make _ _ _ (hp.childrenOf (fun q hq => hparts q (List.mem_filter.1 hq).1) _)

theorem draftAll (hp : Hereditary ctx p) :
    ∀ trees : List SyntaxTree, ∀ q ∈ ctx.draftAll trees, Carries p q
  | [], _, h => nomatch h
  | t :: ts, q, h => by
    rw [DraftContext.draftAll] at h
    rcases List.mem_cons.1 h with rfl | h
    · exact draftPart hp t
    · exact draftAll hp ts q h

end

theorem draftModule (hp : Hereditary ctx p) (root : SyntaxTree) : p (ctx.draftModule root) := by
  have hc : ∀ q ∈ (Parts.ofList (ctx.draftAll root.children)).visible, Carries p q :=
    fun q hq => hp.draftAll root.children q (List.mem_filter.1 hq).1
  have hv := fun q hq => (hc q hq).1
  simp only [DraftContext.draftModule]
  split
  · exact hp.make _ _ _ (hp.childrenOf hc _)
  · refine hp.make _ _ _ fun c hc => ?_
    simp only [List.mem_append] at hc
    rcases hc with (hc | hc) | hc
    · exact hp.place .member (fun q hq => hv q (List.mem_filter.1 hq).1) c hc
    · exact hp.recovered hv c hc
    · split at hc
      · rw [List.mem_singleton] at hc
        subst hc
        exact hp.withRole _ _ (hp.make _ _ _ fun _ hd => absurd hd List.not_mem_nil)
      · cases hc

end Hereditary

end DraftContext

end ModuleLens
