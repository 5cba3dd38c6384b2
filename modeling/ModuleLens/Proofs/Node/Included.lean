import ModuleLens.Proofs.Node.Diagnostics
import ModuleLens.Proofs.Node.Levels
import ModuleLens.Sketch

/-! Diagnostics across imports.  A built module reports what its nodes find, node by node; an import
that was followed reports what the module behind it does, told at the import.  A message that was
told at an import is known by how it begins, and is passed on as it is: so however long the chain
of imports, a message names the last path on the way, and the place in the module it is about. -/

namespace ModuleLens

namespace Diagnostic

/-- A message with the path of its module and its place there, counted from one. -/
def told (path : Text) (e : Diagnostic) : String :=
  let start := e.range.positions.start
  includedMessage path (start.line + 1) (start.character + 1) e.message

/-- What a message becomes where its module is imported. -/
def retold (path : Text) (e : Diagnostic) : String :=
  if includedNotice <+: e.message.toList then e.message else e.told path

theorem told_begins (path : Text) (e : Diagnostic) : includedNotice <+: (e.told path).toList :=
  includedMessage_begins _ _ _ _

theorem carried_message (path : Text) (e : Diagnostic) :
    (e.carried path).message = e.retold path := by
  obtain ⟨range, finding⟩ := e
  cases finding with
  | own problem => exact (if_neg problem.message_not_included).symm
  | included q line column problem =>
    exact (if_pos (includedMessage_begins q line column problem.message)).symm

end Diagnostic

namespace Node

variable {m n d t : Node} {path : Text} {e : Diagnostic}

/-- What a node reports whatever is behind it. -/
def ownErrors (n : Node) : List Diagnostic := n.ownDiagnostics []

/-- An import by a path that was followed to a module. -/
def Follows (d : Node) (path : Text) (t : Node) : Prop :=
  (∃ kind, d.edge? = some ⟨kind, path⟩) ∧ d.target? = some t

theorem range_ownDiagnostics {below : List Diagnostic} (h : e ∈ n.ownDiagnostics below) :
    e.range = n.range := by
  obtain ⟨finding, _, rfl⟩ := List.mem_map.1 h
  rfl

theorem own_of_mem_ownErrors (h : e ∈ n.ownErrors) : ∃ p, e.finding = .own p := by
  obtain ⟨finding, hf, rfl⟩ := List.mem_map.1 h
  split at hf
  · rcases List.mem_append.1 hf with hf | hf
    · obtain ⟨p, _, rfl⟩ := List.mem_map.1 hf
      exact ⟨p, rfl⟩
    · split at hf
      · exact ⟨_, List.mem_singleton.1 hf⟩
      · split at hf
        case h_1 | h_5 => cases hf
        all_goals exact ⟨_, List.mem_singleton.1 hf⟩
  · obtain ⟨p, _, rfl⟩ := List.mem_map.1 hf
    exact ⟨p, rfl⟩

theorem ownErrors_unmarked (h : e ∈ n.ownErrors) : ¬ includedNotice <+: e.message.toList := by
  obtain ⟨p, hp⟩ := own_of_mem_ownErrors h
  rw [Diagnostic.message, hp]
  exact p.message_not_included

theorem shallowDiagnostics_of_open (h : d.target? = none) : d.shallowDiagnostics = d.ownErrors := by
  have hnone (m : Node) : d.outcome ≠ some (.resolved m) := by
    intro hm
    rw [target?_eq_some.2 hm] at h
    cases h
  have hbelow : outcomeDiagnostics d.outcome = [] := by
    cases ho : d.outcome with
    | none => rfl
    | some o =>
      cases o with
      | resolved m => exact absurd ho (hnone m)
      | _ => rfl
  rw [shallowDiagnostics, hbelow, ownErrors]

theorem clause_of_edge? {edge : ImportEdge} (h : d.edge? = some edge) :
    ∃ clause, d.label = .importClause clause ∧ clause.conflict = false ∧
      clause.path = some edge.path := by
  obtain ⟨clause, hc, he⟩ := Option.bind_eq_some_iff.1 h
  rw [ImportClause.edge?] at he
  split at he
  · cases he
  · next hconflict =>
    obtain ⟨path, hp, rfl⟩ := Option.map_eq_some_iff.1 he
    refine ⟨clause, ?_, Bool.eq_false_iff.2 hconflict, hp⟩
    rw [clause?] at hc
    split at hc
    · next hl => rw [hl, Option.some.inj hc]
    · cases hc

theorem Follows.ownDiagnostics_eq (h : d.Follows path t) (below : List Diagnostic) :
    d.ownDiagnostics below = below.map fun e => ⟨d.range, e.carried path⟩ := by
  obtain ⟨⟨kind, hedge⟩, ht⟩ := h
  obtain ⟨clause, hl, hconflict, hpath⟩ := clause_of_edge? hedge
  have ho := target?_eq_some.1 ht
  simp only [ownDiagnostics, hl, ho, importFindings, hconflict, hpath, problemIf]
  simp

theorem Follows.shallowDiagnostics_eq (h : d.Follows path t) :
    d.shallowDiagnostics = t.diagnostics.map fun e => ⟨d.range, e.carried path⟩ := by
  rw [shallowDiagnostics, h.ownDiagnostics_eq, target?_eq_some.1 h.2]
  rfl

/-- A module that is built from a tree, with built modules behind its imports. -/
inductive Built : Node → Prop
  | link (build depth : Nat) (root : SyntaxTree) (document : Document) (answers : Answers)
      (asked : ∀ (i : Nat), answers[i]?.isSome →
        ∃ r ∈ (draftModule build root document depth).requests, r.index = i)
      (built : ∀ (i : Nat) m, answers[i]? = some (.resolved m) → Built m) :
      Built ((draftModule build root document depth).link answers)

/-- An import of a linked draft that leads to a module was followed, by a request with an answer. -/
theorem followed_link {build depth : Nat} {root : SyntaxTree} {document : Document}
    {answers : Answers}
    (asked : ∀ (i : Nat), answers[i]?.isSome →
      ∃ r ∈ (draftModule build root document depth).requests, r.index = i)
    (hd : d ∈ ((draftModule build root document depth).link answers).nodes)
    (ht : d.target? = some t) :
    (∃ path, d.Follows path t) ∧ ∃ i : Nat, answers[i]? = some (.resolved t) := by
  obtain ⟨e, he, rfl⟩ := mem_nodes_link.1 hd
  have ho := target?_eq_some.1 ht
  rw [outcome_link, (draftModule_nodes build root document depth e he).1, Option.or_none] at ho
  obtain ⟨r, hr, hi⟩ := asked e.id.index (Option.isSome_iff_exists.2 ⟨_, ho⟩)
  obtain ⟨f, hf, hrf⟩ := mem_requests hr
  have hfe : f = e :=
    number_injective build 0 _ f hf e he ((mem_ownRequest hrf).symm.trans hi)
  subst hfe
  refine ⟨?_, _, ho⟩
  cases hedge : f.edge? with
  | none =>
    rw [ownRequest, ← edge?, hedge] at hrf
    cases hrf
  | some edge =>
    have hlink : (f.link answers).edge? = some edge := by
      rw [edge?, clause?, label_link, ← clause?, ← edge?, hedge]
    exact ⟨edge.path, ⟨edge.kind, hlink⟩, ht⟩

theorem Built.follows (h : m.Built) (hd : d ∈ m.nodes) (ht : d.target? = some t) :
    ∃ path, d.Follows path t := by
  obtain ⟨build, depth, root, document, answers, asked, _⟩ := h
  exact (followed_link asked hd ht).1

/-- From an import of a module a chain of imports, the last one by a path, leads to another
module. -/
inductive Leads : Node → Node → Text → Node → Prop
  | last {m d t : Node} {path : Text} (hd : d ∈ m.nodes) (h : d.Follows path t) :
      Leads m d path t
  | onward {m d t c u : Node} {path q : Text} (hd : d ∈ m.nodes) (h : d.Follows q t)
      (hl : Leads t c path u) : Leads m d path u

/-- An error of a module's own, which no import told. -/
def Owns (m : Node) (e : Diagnostic) : Prop :=
  (∃ n ∈ m.nodes, e ∈ n.ownErrors) ∧ ¬ includedNotice <+: e.message.toList

theorem owns_of_mem (hn : n ∈ m.nodes) (he : e ∈ n.ownErrors) : m.Owns e :=
  ⟨⟨n, hn, he⟩, ownErrors_unmarked he⟩

/-- A message as an import of a module tells it: one of a module's own errors, at the end of a
chain of imports. -/
def Includes (m : Node) (range : Extent) (message : String) : Prop :=
  ∃ d path t e, Leads m d path t ∧ d.range = range ∧ t.Owns e ∧ message = e.told path

def Reports (m : Node) (range : Extent) (message : String) : Prop :=
  ∃ e ∈ m.diagnostics, e.range = range ∧ e.message = message

theorem Includes.begins {range : Extent} {message : String} (h : m.Includes range message) :
    includedNotice <+: message.toList := by
  obtain ⟨_, path, _, e, _, _, _, rfl⟩ := h
  exact e.told_begins path

theorem mem_diagnostics : e ∈ m.diagnostics ↔ ∃ d ∈ m.nodes, e ∈ d.shallowDiagnostics := by
  rw [diagnostics_eq, List.mem_flatMap]

theorem ownErrors_subset (n : Node) : n.ownErrors ⊆ n.shallowDiagnostics := by
  have hfindings (clause : ImportClause) (below : List Diagnostic) :
      importFindings clause n.outcome [] ⊆ importFindings clause n.outcome below := by
    rw [importFindings, importFindings]
    refine List.append_subset.2 ⟨List.subset_append_left _ _, fun f hf => ?_⟩
    refine List.mem_append_right _ ?_
    cases hp : clause.path with
    | none => rwa [hp] at hf
    | some path =>
      simp only [hp] at hf ⊢
      split at hf
      case h_5 => cases hf
      all_goals exact hf
  refine List.map_subset _ ?_
  split
  · exact hfindings _ _
  · exact List.Subset.refl _

theorem Owns.mem_diagnostics (h : m.Owns e) : e ∈ m.diagnostics := by
  obtain ⟨⟨n, hn, he⟩, _⟩ := h
  exact Node.mem_diagnostics.2 ⟨n, hn, n.ownErrors_subset he⟩

theorem Follows.reports (h : d.Follows path t) (hd : d ∈ m.nodes) (he : e ∈ t.diagnostics) :
    m.Reports d.range (e.retold path) := by
  refine ⟨⟨d.range, e.carried path⟩, mem_diagnostics.2 ⟨d, hd, ?_⟩, rfl, e.carried_message path⟩
  rw [h.shallowDiagnostics_eq]
  exact List.mem_map_of_mem he

theorem Leads.reports {c u : Node} (h : Leads m c path u) (he : u.Owns e) :
    m.Reports c.range (e.told path) := by
  induction h with
  | last hd hf =>
    have hh := hf.reports hd he.mem_diagnostics
    rwa [Diagnostic.retold, if_neg he.2] at hh
  | onward hd hf _ ih =>
    obtain ⟨f, hmem, _, hmessage⟩ := ih he
    have hh := hf.reports hd hmem
    rwa [Diagnostic.retold, hmessage, if_pos (e.told_begins _)] at hh

theorem Built.owns_or_includes (h : m.Built) (he : e ∈ m.diagnostics) :
    m.Owns e ∨ m.Includes e.range e.message := by
  induction h generalizing e with
  | link build depth root document answers asked _ ih =>
    obtain ⟨d, hd, he⟩ := mem_diagnostics.1 he
    cases ht : d.target? with
    | none =>
      rw [shallowDiagnostics_of_open ht] at he
      exact .inl (owns_of_mem hd he)
    | some t =>
      -- The module behind the import is one of the answers, so the induction reaches it.
      obtain ⟨⟨path, hf⟩, i, hi⟩ := followed_link asked hd ht
      rw [hf.shallowDiagnostics_eq] at he
      obtain ⟨f, hmem, rfl⟩ := List.mem_map.1 he
      have hmessage : Diagnostic.message ⟨d.range, f.carried path⟩ = f.retold path :=
        f.carried_message path
      rw [hmessage]
      rcases ih i t hi hmem with hown | hincludes
      · refine .inr ⟨d, path, t, f, .last hd hf, rfl, hown, ?_⟩
        rw [Diagnostic.retold, if_neg hown.2]
      · have hbegins := hincludes.begins
        obtain ⟨c, q, u, g, hleads, _, hg, hm⟩ := hincludes
        refine .inr ⟨d, q, u, g, .onward hd hf hleads, rfl, hg, ?_⟩
        rw [Diagnostic.retold, if_pos hbegins, hm]

theorem Built.reports_iff (h : m.Built) {range : Extent} {message : String} :
    m.Reports range message ↔
      (∃ e, m.Owns e ∧ e.range = range ∧ e.message = message) ∨ m.Includes range message := by
  constructor
  · rintro ⟨e, he, rfl, rfl⟩
    rcases h.owns_or_includes he with hown | hincludes
    · exact .inl ⟨e, hown, rfl, rfl⟩
    · exact .inr hincludes
  · rintro (⟨e, hown, hrange, hmessage⟩ | ⟨d, path, t, e, hleads, rfl, hown, rfl⟩)
    · exact ⟨e, hown.mem_diagnostics, hrange, hmessage⟩
    · exact hleads.reports hown

theorem built_linkModule {answer : ImportEdge → Outcome Node} (build depth : Nat)
    (root : SyntaxTree) (document : Document)
    (h : ∀ edge m, answer edge = .resolved m → m.Built) :
    (linkModule (draftModule build root document depth) answer).Built := by
  have hanswer {i : Nat} {o : Outcome Node}
      (ho : (answersFrom answer {} (draftModule build root document depth).requests)[i]? = some o) :
      ∃ r ∈ (draftModule build root document depth).requests, r.index = i ∧ answer r.edge = o := by
    rcases getElem?_answersFrom ho with hh | hh
    · simp at hh
    · exact hh
  refine .link build depth root document _ (fun i hi => ?_) fun i m hm => ?_
  · obtain ⟨o, ho⟩ := Option.isSome_iff_exists.1 hi
    obtain ⟨r, hr, hri, _⟩ := hanswer ho
    exact ⟨r, hr, hri⟩
  · obtain ⟨r, _, _, hr⟩ := hanswer hm
    exact h r.edge m hr

/-- What a module reports: the findings of its nodes one after the other, each at a node; at a node
that was followed, the report of the module behind it; and so, in the end, errors of its own and
errors that the modules own to which its imports lead. -/
structure Accounted (m : Node) : Prop where
  silent : m.report? = none ↔ (m :: m.descendants).flatMap shallowDiagnostics = []
  listed : ∀ ds, m.report? = some ds → ds = (m :: m.descendants).flatMap shallowDiagnostics
  placed : ∀ ds, m.report? = some ds → ∀ e ∈ ds, ∃ d ∈ m :: m.descendants, e.range = d.range
  followed : ∀ d ∈ m :: m.descendants, ∀ t, d.target? = some t → ∃ path, d.Follows path t ∧
    d.shallowDiagnostics.map (fun e => (e.range, e.message)) =
      (t.report?.getD []).map fun e => (d.range, e.retold path)
  unfolded : ∀ range message,
    (∃ ds, m.report? = some ds ∧ ∃ e ∈ ds, e.range = range ∧ e.message = message) ↔
      (∃ e, m.Owns e ∧ e.range = range ∧ e.message = message) ∨ m.Includes range message

theorem report?_eq (m : Node) :
    m.report? = if m.diagnostics = [] then none else some m.diagnostics := by
  rw [report?]
  split
  · next h => rw [h, if_pos rfl]
  · next h => rw [h, if_neg (List.cons_ne_nil _ _)]

theorem report?_getD (m : Node) : m.report?.getD [] = m.diagnostics := by
  rw [report?_eq]
  split
  · next h => exact h.symm
  · rfl

theorem diagnostics_of_report? {ds : List Diagnostic} (h : m.report? = some ds) :
    ds = m.diagnostics := by
  rw [← report?_getD, h, Option.getD_some]

end Node

open Node

theorem built_accounted {m : Node} (h : m.Built) : m.Accounted := by
  have hall : m.diagnostics = (m :: m.descendants).flatMap shallowDiagnostics := diagnostics_eq m
  refine ⟨?_, fun ds hds => (diagnostics_of_report? hds).trans hall, fun ds hds e he => ?_,
    fun d hd t ht => ?_, fun range message => ?_⟩
  · rw [report?_eq, ← hall]
    split
    · next hnone => exact iff_of_true rfl hnone
    · next hsome => exact iff_of_false (Option.some_ne_none _) hsome
  · rw [diagnostics_of_report? hds] at he
    obtain ⟨d, hd, he⟩ := mem_diagnostics.1 he
    exact ⟨d, hd, range_ownDiagnostics he⟩
  · obtain ⟨path, hf⟩ := h.follows hd ht
    refine ⟨path, hf, ?_⟩
    rw [hf.shallowDiagnostics_eq, report?_getD, List.map_map]
    exact List.map_congr_left fun e _ => congrArg (Prod.mk d.range) (e.carried_message path)
  · refine Iff.trans ?_ h.reports_iff
    constructor
    · rintro ⟨ds, hds, e, he, hh⟩
      exact ⟨e, diagnostics_of_report? hds ▸ he, hh⟩
    · rintro ⟨e, he, hh⟩
      refine ⟨m.diagnostics, ?_, e, he, hh⟩
      rw [report?_eq, if_neg (List.ne_nil_of_mem he)]

def sourceOf (sketch : Sketch) : Document :=
  ⟨⟨"file:///chain.pkl".toList, by decide⟩, some 1, sketch.layout.1⟩

def importSketch (literal : String) : Sketch :=
  .ofMembers [.spaced "importClause" [.token "import".toList,
    .named "stringConstant" literal.toList]]

def brokenSketch : Sketch :=
  .ofMembers [.spaced "classProperty" [.named "identifier" "ok".toList, .token "=".toList,
      .named "intLiteral" "1".toList],
    .spaced "classProperty" [.named "identifier" "broken".toList]]

def brokenModule : Node :=
  linkModule (draftModule 2 brokenSketch.layout.2 (sourceOf brokenSketch) 2) fun _ => .notFound

def importerOf (literal : String) (build depth : Nat) (m : Node) : Node :=
  linkModule (draftModule build (importSketch literal).layout.2 (sourceOf (importSketch literal))
    depth) fun _ => .resolved m

/-- A module that imports one that imports one with a fault on its second line. -/
def chainModule : Node :=
  importerOf "\"mid.pkl\"" 0 0 (importerOf "\"leaf.pkl\"" 1 1 brokenModule)

theorem built_accounted_chain : chainModule.Built ∧ chainModule.Accounted ∧
    (chainModule.report?.getD []).map (fun e => (e.range.bytes, e.message)) =
      [(⟨0, 16⟩, "Error in included file leaf.pkl:2:1: Provide property type or value.")] := by
  have hbroken : brokenModule.Built := built_linkModule 2 2 _ _ nofun
  have himporter {m : Node} (hm : m.Built) (literal : String) (build depth : Nat) :
      (importerOf literal build depth m).Built := by
    refine built_linkModule build depth _ _ fun _ t ht => ?_
    cases ht
    exact hm
  have hchain : chainModule.Built := himporter (himporter hbroken _ 1 1) _ 0 0
  exact ⟨hchain, built_accounted hchain, by decide +kernel⟩

end ModuleLens
