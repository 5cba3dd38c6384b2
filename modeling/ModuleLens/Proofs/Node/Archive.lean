import ModuleLens.Outline
import ModuleLens.Proofs.Node.Linking
import ModuleLens.Proofs.Node.Reach

/-! Modules that are built one after the other.  Each is made by a build of its own, and behind its
imports are modules that were there before.  So identities tell apart the nodes of a module, and the
modules that its imports lead to. -/

namespace ModuleLens

namespace Node

/-- Identities tell apart the modules that imports lead to. -/
def Told (m : Node) : Prop := ∀ a b, Reaches m a → Reaches m b → a.id = b.id → a = b

/-- Identities tell apart the nodes of a module, and the modules that its imports lead to. -/
structure Identified (m : Node) : Prop where
  nodes : (m.nodes.map Node.id).Nodup
  told : m.Told

theorem Told.closed {m : Node} (h : m.Told) : Closed (Reaches m) :=
  ⟨fun ha hi => ha.tail hi, fun {a b} ha hb hi => h a b ha hb hi⟩

theorem Closed.told_of {p : Node → Prop} (h : Closed p) {m : Node} (hm : p m) : m.Told :=
  fun _ _ ha hb hi => h.told (h.reaches hm ha) (h.reaches hm hb) hi

/-- The modules of some builds, the last one first. -/
inductive Archive : List Node → Prop
  | empty : Archive []
  | build {ms : List Node} (h : Archive ms) (build depth : Nat) (root : SyntaxTree)
      (document : Document) (answers : Answers) (own : ∀ m ∈ ms, m.id.build ≠ build)
      (kept : ∀ (i : Nat) m, answers[i]? = some (.resolved m) → m ∈ ms) :
      Archive ((draftModule build root document depth).link answers :: ms)

theorem id_link (answers : Answers) (n : Node) : (n.link answers).id = n.id :=
  congrArg NodeInfo.id (info_link answers n)

theorem Archive.closed {ms : List Node} (h : Archive ms) : Closed (· ∈ ms) := by
  induction h with
  | empty => exact ⟨nofun, nofun⟩
  | @build ms h build depth root document answers own kept ih =>
    have hid : ((draftModule build root document depth).link answers).id.build = build := by
      rw [id_link, id_draftModule]
    -- What the new module imports was there before it, and nothing that was there has its build.
    refine ⟨fun {a b} ha hi => ?_, fun {a b} ha hb he => ?_⟩
    · rcases List.mem_cons.1 ha with rfl | ha
      · have hnone : ∀ d ∈ (draftModule build root document depth).descendants,
            d.outcome = none := fun d hd =>
          (draftModule_nodes build root document depth d (List.mem_cons_of_mem _ hd)).1
        obtain ⟨i, hi⟩ := mem_targets_link hnone hi
        exact List.mem_cons_of_mem _ (kept i b hi)
      · exact List.mem_cons_of_mem _ (ih.targets ha hi)
    · rcases List.mem_cons.1 ha with rfl | ha <;> rcases List.mem_cons.1 hb with rfl | hb
      · rfl
      · exact absurd (he ▸ hid) (own b hb)
      · exact absurd (he ▸ hid) (own a ha)
      · exact ih.told ha hb he

theorem Archive.nodup_ids {ms : List Node} (h : Archive ms) :
    ∀ m ∈ ms, (m.nodes.map Node.id).Nodup := by
  induction h with
  | empty => nofun
  | build _ build depth root document answers _ _ ih =>
    exact List.forall_mem_cons.2 ⟨ids_linked_nodup build depth root document answers, ih⟩

theorem Archive.identified {ms : List Node} (h : Archive ms) {m : Node} (hm : m ∈ ms) :
    m.Identified :=
  ⟨h.nodup_ids m hm, h.closed.told_of hm⟩

/-- A module whose imports are answered by what is asked for, with modules that were there. -/
theorem Archive.link {ms : List Node} (h : Archive ms) (build depth : Nat) (root : SyntaxTree)
    (document : Document) {answer : ImportEdge → Outcome Node}
    (own : ∀ m ∈ ms, m.id.build ≠ build) (kept : ∀ edge m, answer edge = .resolved m → m ∈ ms) :
    Archive (linkModule (draftModule build root document depth) answer :: ms) := by
  refine h.build build depth root document _ own fun i m hm => ?_
  rcases getElem?_answersFrom hm with hm | ⟨r, _, _, hr⟩
  · simp at hm
  · exact kept r.edge m hr

/-- The module of a text that is an outline. -/
@[irreducible]
def outlined (build depth : Nat) (uri : Uri) (text : Text) (answer : ImportEdge → Outcome Node) :
    Node :=
  linkModule (draftModule build (Outline.parse text) ⟨uri, none, text⟩ depth) answer

theorem id_outlined (build depth : Nat) (uri : Uri) (text : Text)
    (answer : ImportEdge → Outcome Node) :
    (outlined build depth uri text answer).id = ⟨build, 0⟩ := by
  rw [outlined, linkModule, id_link, id_draftModule]

theorem Archive.outline {ms : List Node} (h : Archive ms) (build depth : Nat) (uri : Uri)
    (text : Text) {answer : ImportEdge → Outcome Node} (own : ∀ m ∈ ms, m.id.build ≠ build)
    (kept : ∀ edge m, answer edge = .resolved m → m ∈ ms) :
    Archive (outlined build depth uri text answer :: ms) := by
  rw [outlined]
  exact h.link build depth _ _ own kept

end Node

end ModuleLens
