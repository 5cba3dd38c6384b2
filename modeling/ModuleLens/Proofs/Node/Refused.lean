import ModuleLens.Proofs.Node.Included
import ModuleLens.Proofs.Node.Nesting

/-! Modules whose imports all fail.  What such a module reports can be read off its draft, node by
node: what a construct reports itself, and then what its parts report.  Parts that start one after
the other are reported in that order, whatever slots they fill. -/

namespace ModuleLens

/-- The problems of an import clause if there is no module behind it. -/
def ImportClause.refused (clause : ImportClause) : List Problem :=
  Node.problemIf clause.conflict .conflictingKeywords ++
    match clause.path with
    | none => [.missingPath]
    | some path => Node.problemIf (!clause.conflict) (.moduleNotFound path)

namespace Node

def faults (n : Node) : List Problem :=
  match n.label with
  | .importClause clause => clause.refused
  | _ => n.problems

/-- What a node of a draft reports itself if imports fail. -/
def ownReports (n : Node) : List (Extent × String) := n.faults.map fun p => (n.range, p.message)

def reports (n : Node) : List (Extent × String) := n.nodes.flatMap ownReports

theorem reports_eq (n : Node) : n.reports = n.ownReports ++ n.children.flatMap reports := by
  have hbelow : n.descendants.flatMap ownReports = n.children.flatMap reports := by
    rw [descendants_eq, List.flatMap_assoc]
    rfl
  rw [reports, nodes, List.flatMap_cons, hbelow]

theorem reports_withRole (role : Role) (n : Node) : (n.withRole role).reports = n.reports := by
  rw [reports_eq, reports_eq]
  cases n
  rfl

theorem reports_bare (ns : List Node) :
    (ns.map bare).flatMap reports = ns.flatMap reports := by
  rw [List.flatMap_map]
  simp only [bare, reports_withRole]

theorem roles_numberAll (build next : Nat) (cs : List Node) :
    (numberAll build next cs).1.map role = cs.map role := by
  induction cs generalizing next with
  | nil => rfl
  | cons c cs ih => simp only [numberAll, List.map_cons, role_number, ih]

theorem has_eq (n : Node) (role : Role) :
    n.has role = (n.children.map Node.role).contains role := by
  rw [has, List.contains_eq_any_beq, List.any_map]
  congr 1
  funext c
  exact BEq.comm

theorem ownReports_congr {m n : Node} (hlabel : m.label = n.label) (hrange : m.range = n.range)
    (hroles : m.children.map role = n.children.map role) : m.ownReports = n.ownReports := by
  have hhas (role : Role) : m.has role = n.has role := by rw [has_eq, has_eq, hroles]
  have hproblems : m.problems = n.problems := by
    simp only [problems, propertyProblems, entryProblems, hhas, hlabel]
  rw [ownReports, ownReports, faults, faults, hlabel, hrange, hproblems]

mutual

theorem reports_number (build : Nat) :
    ∀ (next : Nat) (n : Node), (number build next n).1.reports = n.reports
  | next, mk info label outcome children => by
    have hcs := reports_numberAll build (next + 1) children
    have hown : (number build next (mk info label outcome children)).1.ownReports =
        (mk info label outcome children).ownReports :=
      ownReports_congr rfl rfl (roles_numberAll build (next + 1) children)
    rw [reports_eq, hown, reports_eq (mk info label outcome children)]
    exact congrArg _ hcs

theorem reports_numberAll (build : Nat) :
    ∀ (next : Nat) (cs : List Node),
      (numberAll build next cs).1.flatMap reports = cs.flatMap reports
  | _, [] => rfl
  | next, c :: cs => by
    simp only [numberAll, List.flatMap_cons]
    rw [reports_number build next c, reports_numberAll build _ cs]

end

/-- An import that was not found reports what a draft says it does, and so does every other node
that has no outcome. -/
theorem ownDiagnostics_refused {d n : Node} (hlabel : d.label = n.label)
    (hrange : d.range = n.range) (hroles : d.children.map role = n.children.map role)
    (houtcome : d.outcome = n.edge?.map fun _ => .notFound) (below : List Diagnostic) :
    (d.ownDiagnostics below).map (fun e => (e.range, e.message)) = n.ownReports := by
  rw [← ownReports_congr hlabel hrange hroles, ownReports, ownDiagnostics, faults]
  rw [edge?, clause?] at houtcome
  rw [List.map_map]
  cases hl : d.label with
  | importClause clause =>
    rw [← hlabel, hl] at houtcome
    obtain ⟨kind, path, conflict⟩ := clause
    rw [houtcome]
    cases path <;> cases conflict <;> rfl
  | _ =>
    rw [List.map_map]
    rfl

end Node

open Node

section

variable (build depth : Nat) (root : SyntaxTree) (document : Document)

theorem outcome_refused {d : Node} (hd : d ∈ (draftModule build root document depth).nodes) :
    (d.link (answersFrom (fun _ => .notFound) {}
      (draftModule build root document depth).requests)).outcome =
        d.edge?.map fun _ => .notFound := by
  rw [outcome_link, (draftModule_nodes build root document depth d hd).1, Option.or_none]
  cases he : d.edge? with
  | some edge =>
    have hr := mem_requests_of_mem_nodes hd (ownRequest_of_edge? he)
    exact getElem?_answers build root document depth hr
  | none =>
    refine Option.eq_none_iff_forall_ne_some.2 fun o ho => ?_
    rcases getElem?_answersFrom ho with h | ⟨r, hr, hi, _⟩
    · simp at h
    · -- The node that asked has the identity of this one, so it is this one, which asks nothing.
      obtain ⟨e, hmem, hre⟩ := mem_requests hr
      have hed : e = d :=
        number_injective build 0 _ e hmem d hd ((mem_ownRequest hre).symm.trans hi)
      rw [hed, ownRequest, ← edge?, he] at hre
      cases hre

/-- A module whose imports all fail reports what its draft says. -/
theorem diagnostics_refused :
    (linkModule (draftModule build root document depth) fun _ => .notFound).diagnostics.map
        (fun e => (e.range, e.message)) =
      (DraftContext.draftModule ⟨document, depth, .of document.text⟩ root).reports := by
  let answers := answersFrom (fun _ => .notFound) {}
    (draftModule build root document depth).requests
  have hroles (d : Node) : (d.link answers).children.map role = d.children.map role := by
    rw [children_link, List.map_map]
    exact List.map_congr_left fun c _ => congrArg NodeInfo.role (info_link answers c)
  have hnode {d : Node} (hd : d ∈ (draftModule build root document depth).nodes) :
      (d.link answers).shallowDiagnostics.map (fun e => (e.range, e.message)) = d.ownReports :=
    ownDiagnostics_refused (label_link answers d) (congrArg NodeInfo.range (info_link answers d))
      (hroles d) (outcome_refused build depth root document hd) _
  change ((draftModule build root document depth).link answers).diagnostics.map _ = _
  rw [diagnostics_eq, nodes_link, List.flatMap_map, List.map_flatMap]
  exact (List.flatMap_congr fun d hd => hnode hd).trans (reports_number build 0 _)

end

namespace DraftContext

open SyntaxTree

variable (ctx : DraftContext) {span : Span} {label : Label} {cs ds : List Node} {t : SyntaxTree}
  {ts : List SyntaxTree}

theorem sorted_eq (hcs : (cs.map bare).Perm ds)
    (hds : ds.Pairwise fun a b => a.range.bytes.start < b.range.bytes.start) :
    (sortBy inOrder cs).map bare = ds := by
  have hperm := ((sortBy_perm inOrder cs).map bare).trans hcs
  have hnodup : (ds.map fun d => d.range.bytes.start).Nodup :=
    List.pairwise_map.2 (hds.imp Nat.ne_of_lt)
  have hsorted : ((sortBy inOrder cs).map bare).Pairwise fun a b => a.range.InOrder b.range := by
    refine List.pairwise_map.2 ((pairwise_inOrder cs).imp fun {a b} hab => ?_)
    rw [range_bare, range_bare]
    exact inOrder_iff.1 hab
  have horder : ds.Pairwise fun a b => a.range.InOrder b.range := hds.imp Or.inl
  -- Two nodes in either order start at one byte, and the starts differ.
  refine List.Perm.eq_of_pairwise (fun a b ha hb hab hba => ?_) hsorted horder hperm
  refine List.inj_on_of_nodup_map hnodup (hperm.mem_iff.1 ha) hb ?_
  rw [Extent.InOrder] at hab hba
  omega

theorem reports_make (hcs : (cs.map bare).Perm (ts.map ctx.drafted))
    (hts : ts.Pairwise fun a b => (ctx.rangeOf a).bytes.start < (ctx.rangeOf b).bytes.start) :
    (ctx.make span label cs).reports =
      (ctx.make span label cs).ownReports ++ ts.flatMap fun t => (ctx.drafted t).reports := by
  have horder : (ts.map ctx.drafted).Pairwise fun a b =>
      a.range.bytes.start < b.range.bytes.start := by
    refine List.pairwise_map.2 (hts.imp fun {a b} hab => ?_)
    rwa [range_drafted, range_drafted]
  rw [reports_eq]
  change _ ++ (sortBy inOrder cs).flatMap reports = _
  rw [← reports_bare, sorted_eq hcs horder, List.flatMap_map]

/-- A construct without operators reports its faults, and then what its parts do. -/
theorem reports_drafted (hw : t.head.wrong = false)
    (hsigns : (Form.ofKind t.kind).signs t = [])
    (hbuilt : ((Form.ofKind t.kind).built t).Perm ts)
    (hts : ts.Pairwise fun a b => (ctx.rangeOf a).bytes.start < (ctx.rangeOf b).bytes.start) :
    (ctx.drafted t).reports =
      (ctx.drafted t).ownReports ++ ts.flatMap fun c => (ctx.drafted c).reports := by
  have hcs := ctx.childrenOf_perm (.ofKind t.kind) t
  rw [hsigns, List.map_nil, List.append_nil] at hcs
  rw [ctx.drafted_of_right hw, construct]
  exact ctx.reports_make (hcs.trans (hbuilt.map ctx.drafted)) hts

theorem reports_sign (t : SyntaxTree) : (ctx.sign t).reports = [] := rfl

theorem reports_of_silent (hw : t.head.wrong = false)
    (hbuilt : (Form.ofKind t.kind).built t = ts) (h : ∀ c ∈ ts, (ctx.drafted c).reports = []) :
    (ctx.drafted t).reports = (ctx.drafted t).ownReports := by
  have hcs := ctx.childrenOf_perm (.ofKind t.kind) t
  rw [hbuilt] at hcs
  rw [ctx.drafted_of_right hw, construct, reports_eq]
  -- No child reports anything, so it does not matter how they are sorted.
  refine List.append_right_eq_self.2 ?_
  change (sortBy inOrder _).flatMap reports = []
  rw [← reports_bare, List.flatMap_eq_nil_iff]
  intro n hn
  have hperm := ((sortBy_perm inOrder _).map bare).trans hcs
  rcases List.mem_append.1 (hperm.mem_iff.1 hn) with hn | hn
  · obtain ⟨c, hc, rfl⟩ := List.mem_map.1 hn
    exact h c hc
  · obtain ⟨c, _, rfl⟩ := List.mem_map.1 hn
    exact ctx.reports_sign c

theorem ownReports_drafted (t : SyntaxTree) : (ctx.drafted t).ownReports =
    (ctx.drafted t).faults.map fun p => (ctx.rangeOf t, p.message) := by
  rw [ownReports, range_drafted]

end DraftContext

end ModuleLens
