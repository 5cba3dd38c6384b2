import ModuleLens.Proofs.Node.Seats
import ModuleLens.Proofs.Node.Unidentified
import ModuleLens.Sketch

/-! Input that made no sense.  Of the pieces of wrong input that no other node hides, a module shows
those that a chain of slots leads to: a construct has seats for some of its rules, the rules that
find no seat are left out with everything below them, and so are the wrong parts of an argument
list, of an extends clause and of a leaf. -/

namespace ModuleLens

namespace SyntaxTree

mutual

/-- Where wrong input is that is neither below other wrong input nor below an absent node or a
comment. -/
def exposed : SyntaxTree → List Span
  | node head children =>
    if head.wrong then [head.span]
    else if head.absent || isCommentKind head.kind then [] else exposedAll children

def exposedAll : List SyntaxTree → List Span
  | [] => []
  | t :: ts => exposed t ++ exposedAll ts

end

theorem exposedAll_eq (ts : List SyntaxTree) : exposedAll ts = ts.flatMap exposed := by
  induction ts with
  | nil => rfl
  | cons t ts ih => rw [exposedAll, ih, List.flatMap_cons]

theorem exposed_of_plain {t : SyntaxTree} (hw : t.head.wrong = false) (hv : t.isVisible) :
    t.exposed = t.children.flatMap exposed := by
  obtain ⟨head, children⟩ := t
  simp only [isVisible, kind, SyntaxTree.head, Bool.and_eq_true, Bool.not_eq_true'] at hw hv
  simp [exposed, exposedAll_eq, SyntaxTree.children, hw, hv]

/-- Where wrong input is that a chain of seats leads to. -/
def kept (t : SyntaxTree) : List Span :=
  if t.head.wrong then [t.span]
  else ((Form.ofKind t.kind).built t).attach.flatMap fun c => kept c.1
termination_by sizeOf t
decreasing_by exact Form.sizeOf_lt_of_mem_built c.2

theorem kept_of_wrong {t : SyntaxTree} (h : t.head.wrong) : t.kept = [t.span] := by
  rw [kept, if_pos h]

theorem kept_of_right {t : SyntaxTree} (h : t.head.wrong = false) :
    t.kept = ((Form.ofKind t.kind).built t).flatMap kept := by
  rw [kept]
  simp [h]

/-- Where wrong input is that a module shows: every rule of the root has a seat, and a root that is
wrong itself is shown as well unless it is called a module. -/
def keptInModule (root : SyntaxTree) : List Span :=
  (root.rules ++ root.strays).flatMap kept ++
    if root.head.wrong && root.kind != "module" then [root.span] else []

end SyntaxTree

namespace DraftContext

open Node SyntaxTree

variable (ctx : DraftContext)

theorem kept_eq (t : SyntaxTree) :
    t.kept.map ctx.scale.extent = ctx.ownAt unidentifiedAt t ++
      if t.head.wrong then []
      else ((Form.ofKind t.kind).built t).flatMap fun c => c.kept.map ctx.scale.extent := by
  cases hw : t.head.wrong with
  | true =>
    rw [kept_of_wrong hw, ownAt, ctx.drafted_of_wrong hw]
    rfl
  | false =>
    have hown : ctx.ownAt unidentifiedAt t = [] := by
      rw [ownAt, ctx.drafted_of_right hw, construct]
      cases Form.ofKind t.kind <;> rfl
    rw [hown, kept_of_right hw, List.map_flatMap]
    rfl

/-- The unidentified nodes of a module stand where the input is wrong that is kept. -/
theorem shown_draftModule (root : SyntaxTree) :
    (ctx.draftModule root).unidentified.Perm (root.keptInModule.map ctx.scale.extent) := by
  rw [unidentified_eq, keptInModule, List.map_append, List.map_flatMap]
  refine (ctx.gather_draftModule (fun _ _ => rfl) ctx.kept_eq root).trans (.of_eq ?_)
  rw [show unidentifiedAt .module (ctx.scale.extent root.span) = [] from rfl, List.nil_append]
  congr 1
  split <;> rfl

end DraftContext

namespace SyntaxTree

theorem built_exposed (form : Form) (t : SyntaxTree) :
    ((form.built t).flatMap exposed).Subperm (t.children.flatMap exposed) := by
  refine form.flatMap_built_subperm (fun r hr _ => ?_) t
  rw [isRule, Bool.and_eq_true, Bool.and_eq_true, Bool.not_eq_true'] at hr
  rw [exposed_of_plain hr.2.1 hr.1]

theorem kept_subperm {t : SyntaxTree} (h : t.isVisible) : t.kept.Subperm t.exposed := by
  cases hw : t.head.wrong with
  | true =>
    rw [kept_of_wrong hw]
    obtain ⟨head, children⟩ := t
    rw [exposed, if_pos (show head.wrong = true from hw)]
    exact .refl _
  | false =>
    rw [kept_of_right hw, exposed_of_plain hw h]
    refine (flatMap_subperm fun c hc => ?_).trans (built_exposed (.ofKind t.kind) t)
    exact kept_subperm (Form.isVisible_of_mem_built hc)
termination_by sizeOf t
decreasing_by exact Form.sizeOf_lt_of_mem_built hc

end SyntaxTree

open Node

/-- Every exposed piece of wrong input is shown once: as many unidentified nodes and as many reports
of unexpected input have its range as there are such pieces. -/
def Node.ShowsWrong (module : Node) (text : Text) (root : SyntaxTree) : Prop :=
  ∀ e ∈ root.exposed.map (Extent.ofSpan text),
    module.unidentified.count e = (root.exposed.map (Extent.ofSpan text)).count e ∧
      module.unexpected.count e = (root.exposed.map (Extent.ofSpan text)).count e

instance (module : Node) (text : Text) (root : SyntaxTree) :
    Decidable (module.ShowsWrong text root) :=
  inferInstanceAs (Decidable (∀ e ∈ root.exposed.map (Extent.ofSpan text), _))

/-- Reports of unexpected input come from the unidentified nodes, and those stand where the input is
wrong that is kept.  So all exposed wrong input is shown exactly when all of it is kept. -/
theorem shows_wrong_iff_kept (build depth : Nat) (root : SyntaxTree) (document : Document)
    (answers : Answers) :
    ((draftModule build root document depth).link answers).unexpected =
      ((draftModule build root document depth).link answers).unidentified ∧
    ((draftModule build root document depth).link answers).unidentified.Perm
      (root.keptInModule.map (Extent.ofSpan document.text)) ∧
    (root.isVisible → root.head.wrong = false →
      root.keptInModule.Subperm root.exposed ∧
      (((draftModule build root document depth).link answers).ShowsWrong document.text root ↔
        root.exposed.Perm root.keptInModule)) := by
  let module := (draftModule build root document depth).link answers
  have hmodule : module.unidentified.Perm
      (root.keptInModule.map (Extent.ofSpan document.text)) := by
    have hscale : (Scale.of document.text).extent = Extent.ofSpan document.text :=
      funext (Scale.extent_eq _)
    rw [unidentified_link, draftModule, unidentified_number, ← hscale]
    exact DraftContext.shown_draftModule ⟨document, depth, .of document.text⟩ root
  refine ⟨unexpected_eq _, hmodule, fun hv hw => ?_⟩
  have hsub : root.keptInModule.Subperm root.exposed := by
    rw [SyntaxTree.keptInModule, hw, SyntaxTree.exposed_of_plain hw hv]
    simp only [Bool.false_and, Bool.false_eq_true, if_false, List.append_nil]
    refine (flatMap_subperm fun c hc => SyntaxTree.kept_subperm ?_).trans
      (subperm_flatMap root.rules_append_strays _)
    rcases List.mem_append.1 hc with hc | hc
    · exact (Bool.and_eq_true_iff.1 (List.mem_filter.1 hc).2).1
    · exact (Bool.and_eq_true_iff.1 (List.mem_filter.1 hc).2).1
  refine ⟨hsub, fun hshow => ?_, fun hkept e _ => ?_⟩
  · have hback : (root.exposed.map (Extent.ofSpan document.text)).Subperm
        (root.keptInModule.map (Extent.ofSpan document.text)) := by
      rw [List.subperm_ext_iff]
      intro e he
      rw [← (hshow e he).1]
      exact Nat.le_of_eq (hmodule.count_eq e)
    have hlen : root.exposed.length ≤ root.keptInModule.length := by
      simpa using hback.length_le
    exact (hsub.perm_of_length_le hlen).symm
  · have hcount := (hmodule.trans (hkept.symm.map _)).count_eq e
    exact ⟨hcount, (unexpected_eq module).symm ▸ hcount⟩

/-- A property whose value is a call, with a wrong word after it and some wrong words in its
argument list. -/
def callSketch (words : List Text) : Sketch :=
  let wrong (word : Text) : Sketch := .wrong [.named "identifier" word]
  .ofMembers [.spaced "classProperty" [
    .named "identifier" "x".toList, .token "=".toList,
    .spaced "methodCallExpr" [.named "identifier" "f".toList,
      .spaced "argumentList" (.token "(".toList :: words.map wrong ++ [.token ")".toList])],
    wrong "bad".toList]]

def callTree (words : List Text) : SyntaxTree := (callSketch words).layout.2

def callDocument (words : List Text) : Document :=
  ⟨⟨"file:///call.pkl".toList, by decide⟩, some 1, (callSketch words).layout.1⟩

def callModule (words : List Text) : Node :=
  (draftModule 0 (callTree words) (callDocument words) 0).link {}

theorem shows_wrong_iff_kept_call : (callTree []).isVisible ∧ (callTree []).head.wrong = false ∧
    (callTree []).exposed = [⟨10, 13⟩] ∧ (callTree []).exposed.Perm (callTree []).keptInModule := by
  have hv : (callTree []).isVisible := by decide +kernel
  have hw : (callTree []).head.wrong = false := by decide +kernel
  have hshow : (callModule []).ShowsWrong (callDocument []).text (callTree []) := by decide +kernel
  obtain ⟨_, _, hiff⟩ := shows_wrong_iff_kept 0 0 (callTree []) (callDocument []) {}
  exact ⟨hv, hw, by decide +kernel, (hiff hv hw).2.1 hshow⟩

theorem call_hides_wrong : (callTree ["oops".toList]).isVisible ∧
    (callTree ["oops".toList]).head.wrong = false ∧
    ⟨8, 12⟩ ∈ (callTree ["oops".toList]).exposed ∧
    Extent.ofSpan (callDocument ["oops".toList]).text ⟨8, 12⟩ ∉
      (callModule ["oops".toList]).unidentified ∧
    ¬ (callModule ["oops".toList]).ShowsWrong (callDocument ["oops".toList]).text
      (callTree ["oops".toList]) := by
  decide +kernel

end ModuleLens
