import ModuleLens.Proofs.Linker.Recursion
import ModuleLens.Proofs.Node.Reach

/-! Remembered products that are out of date.  Recursion with a memory gives what plain recursion
gives exactly if every remembered product that it meets is the one that would be made now.  A
product goes out of date only if the build of it asks for a location at which something else is
read now; and if a module could be had at that location, a chain of imports leads there. -/

namespace ModuleLens

open Node

namespace ImportEnv

/-- Following the imports of a document at a depth comes to a remembered product, before it comes to
any other on the way. -/
inductive Meets (env : ImportEnv) (memory : Edition → Option Product) :
    SyntaxTree → Document → Nat → Document → Nat → Product → Prop where
  | here {tree : SyntaxTree} {importing document : Document} {depth : Nat} {r : Request}
      {p : Product} (hl : depth < env.maxDepth)
      (hr : r ∈ (draftModule 0 tree importing depth).requests)
      (hd : env.catalog.lookup importing.uri r.edge.path = .ok document)
      (hm : memory (document.edition (depth + 1)) = some p) :
      Meets env memory tree importing depth document (depth + 1) p
  | later {tree tree' : SyntaxTree} {importing document d : Document} {depth n : Nat} {r : Request}
      {p : Product} (hl : depth < env.maxDepth)
      (hr : r ∈ (draftModule 0 tree importing depth).requests)
      (hd : env.catalog.lookup importing.uri r.edge.path = .ok document)
      (hm : memory (document.edition (depth + 1)) = none)
      (hs : env.source document = .tree tree')
      (h : Meets env memory tree' document (depth + 1) d n p) :
      Meets env memory tree importing depth d n p

/-- The building of a document at a depth asks for what stands at a location. -/
inductive Asks (env : ImportEnv) (uri : Uri) : SyntaxTree → Document → Nat → Prop where
  | here {tree : SyntaxTree} {importing : Document} {depth : Nat} {r : Request}
      (hl : depth < env.maxDepth) (hr : r ∈ (draftModule 0 tree importing depth).requests)
      (hu : env.catalog.locate importing.uri r.edge.path = .ok uri) :
      Asks env uri tree importing depth
  | later {tree tree' : SyntaxTree} {importing document : Document} {depth : Nat} {r : Request}
      (hl : depth < env.maxDepth) (hr : r ∈ (draftModule 0 tree importing depth).requests)
      (hd : env.catalog.lookup importing.uri r.edge.path = .ok document)
      (hs : env.source document = .tree tree') (h : Asks env uri tree' document (depth + 1)) :
      Asks env uri tree importing depth

variable {env env' : ImportEnv} {memory : Edition → Option Product}

theorem plainOutcome_followWith_of_le {memory' : Edition → Option Product} {depth : Nat}
    (h : env.maxDepth ≤ depth) (importing : Document) (edge : ImportEdge) :
    plainOutcome (env.followWith memory importing depth edge) =
      plainOutcome (env.followWith memory' importing depth edge) := by
  rw [followWith_of_le h, followWith_of_le h]

theorem directProduct_eq (env : ImportEnv) (document : Document) (depth : Nat) :
    env.directProduct document depth =
      env.productBy (env.direct document depth) document depth :=
  productWith_of_none rfl

theorem productBy_failed {f : ImportEdge → Outcome Node} {document : Document}
    (h : env.source document = .failed) (depth : Nat) :
    env.productBy f document depth = .failed := by
  rw [productBy, h]

theorem productBy_tree {f : ImportEdge → Outcome Node} {tree : SyntaxTree}
    {document : Document} (h : env.source document = .tree tree) (depth : Nat) :
    env.productBy f document depth =
      .module (linkModule (draftModule 0 tree document depth) f) := by
  rw [productBy, h]

theorem Product.outcome_plain_iff {p q : Product} :
    plainOutcome p.outcome = plainOutcome q.outcome ↔ p.plain = q.plain := by
  rw [Product.plainOutcome_outcome, Product.plainOutcome_outcome]
  exact ⟨Product.outcome_inj, congrArg _⟩

/-- With a memory a module comes out as without one exactly if every remembered product that is met
is the one that would be made now. -/
theorem plain_followWith_iff (hr : env.Regular) (tree : SyntaxTree) (importing : Document)
    (depth : Nat) :
    (linkModule (draftModule 0 tree importing depth)
        (env.followWith memory importing depth)).plain =
        (linkModule (draftModule 0 tree importing depth) (env.direct importing depth)).plain ↔
      ∀ d n p, env.Meets memory tree importing depth d n p →
        p.plain = (env.directProduct d n).plain := by
  -- by induction on the levels that are left; on the last one nothing is met
  obtain ⟨levels, hl⟩ : ∃ levels, levels = env.maxDepth - depth := ⟨_, rfl⟩
  induction levels generalizing tree importing depth with
  | zero =>
    have hle : env.maxDepth ≤ depth := by omega
    refine ⟨fun _ d n p hm => ?_, fun _ => ?_⟩
    · cases hm with
      | here hl => omega
      | later hl => omega
    · rw [plain_linkModule_iff]
      exact fun r _ => plainOutcome_followWith_of_le hle importing r.edge
  | succ levels ih =>
    have hlt : depth < env.maxDepth := by omega
    -- the statement one level deeper, said of products
    have hnext {tree : SyntaxTree} {document : Document} (hs : env.source document = .tree tree) :
        (env.productBy (env.followWith memory document (depth + 1)) document (depth + 1)).plain =
            (env.directProduct document (depth + 1)).plain ↔
          ∀ d n p, env.Meets memory tree document (depth + 1) d n p →
            p.plain = (env.directProduct d n).plain := by
      rw [← ih tree document (depth + 1) (by omega), directProduct_eq, productBy_tree hs,
        productBy_tree hs]
      exact ⟨Product.module.inj, congrArg _⟩
    rw [plain_linkModule_iff]
    simp only [followWith_of_lt hlt, direct]
    constructor
    · intro h d n p hm
      cases hm with
      | here hl hr hd hm =>
        have hh := h _ hr
        simp only [hd, Product.outcome_plain_iff, productWith_of_some hm] at hh
        exact hh
      | later hl hr hd hm hs hmeet =>
        have hh := h _ hr
        simp only [hd, Product.outcome_plain_iff, productWith_of_none hm] at hh
        exact (hnext hs).1 hh d n p hmeet
    · intro h r hm
      cases hd : env.catalog.lookup importing.uri r.edge.path with
      | error e => rfl
      | ok document =>
        simp only [Product.outcome_plain_iff]
        cases hk : memory (document.edition (depth + 1)) with
        | some p =>
          rw [productWith_of_some hk]
          exact h _ _ _ (.here hlt hm hd hk)
        | none =>
          rw [productWith_of_none hk]
          rcases hr.parses document with hs | ⟨tree', hs⟩
          · rw [productWith_of_none rfl, productBy_failed hs, productBy_failed hs]
          · exact (hnext hs).2 fun d n p hmeet => h d n p (.later hlt hm hd hk hs hmeet)

theorem plain_entryWith_iff (hr : env.Regular) (tree : SyntaxTree) (document : Document) :
    (env.entryWith memory tree document).plain = (env.directEntry tree document).plain ↔
      ∀ d n p, env.Meets memory tree document 0 d n p → p.plain = (env.directProduct d n).plain :=
  plain_followWith_iff hr tree document 0

def Has (env : ImportEnv) (uri : Uri) : Prop :=
  ∃ document tree, env.catalog.read uri = .ok document ∧ env.source document = .tree tree

theorem imports_of_plain {tree tree' : SyntaxTree} {importing document : Document} {depth : Nat}
    {r : Request} (hl : depth < env.maxDepth)
    (hm : r ∈ (draftModule 0 tree importing depth).requests)
    (hd : env.catalog.lookup importing.uri r.edge.path = .ok document)
    (hs : env.source document = .tree tree') {n : Node}
    (hn : n.plain =
      (linkModule (draftModule 0 tree importing depth) (env.direct importing depth)).plain) :
    ∃ t, Imports n t ∧ t.plain = (linkModule (draftModule 0 tree' document (depth + 1))
      (env.direct document (depth + 1))).plain := by
  have ha : env.direct importing depth r.edge = .resolved (linkModule
      (draftModule 0 tree' document (depth + 1)) (env.direct document (depth + 1))) := by
    rw [direct, followWith_of_lt hl, hd]
    change (env.directProduct document (depth + 1)).outcome = _
    rw [directProduct_eq, productBy_tree hs]
    rfl
  have ht := List.mem_map_of_mem (f := plain)
    (mem_targets_linkModule 0 tree importing depth hm ha)
  rw [← targets_plain, ← hn, targets_plain] at ht
  exact List.mem_map.1 ht

/-- If the building of a module asks for a location at which a module can be had, a chain of imports
leads there. -/
theorem Asks.reaches (hr : env.Regular) {uri : Uri} (hu : env.Has uri) {tree : SyntaxTree}
    {importing : Document} {depth : Nat} (h : env.Asks uri tree importing depth) {n : Node}
    (hn : n.plain =
      (linkModule (draftModule 0 tree importing depth) (env.direct importing depth)).plain) :
    ∃ t, Imports n t ∧ ∃ m, Reaches t m ∧ m.uri = uri := by
  induction h generalizing n with
  | @here tree importing depth r hl hm hloc =>
    obtain ⟨document, tree', hread, hs⟩ := hu
    have hd : env.catalog.lookup importing.uri r.edge.path = .ok document := by
      rw [Catalog.lookup, hloc]
      exact hread
    obtain ⟨t, ht, hp⟩ := imports_of_plain hl hm hd hs hn
    refine ⟨t, ht, t, .refl, ?_⟩
    have hdoc := congrArg Node.document hp
    rw [document_plain, document_plain, linkModule, Node.document, Node.document, info_link] at hdoc
    have hroot := (draftModule_nodes 0 tree' document (depth + 1) _ List.mem_cons_self).2.1
    rw [Node.uri, Node.document, hdoc]
    exact (congrArg Document.uri hroot).trans (hr.located _ _ hread)
  | later hl hm hd hs _ ih =>
    obtain ⟨t, ht, hp⟩ := imports_of_plain hl hm hd hs hn
    obtain ⟨t', ht', m, hr, hu⟩ := ih hp
    exact ⟨t, ht, m, .head ht' hr, hu⟩

structure AgreeBut (uri : Uri) (env env' : ImportEnv) : Prop where
  locate : env'.catalog.locate = env.catalog.locate
  source : env'.source = env.source
  maxDepth : env'.maxDepth = env.maxDepth
  read : ∀ u, u ≠ uri → env'.catalog.read u = env.catalog.read u

theorem AgreeBut.lookup {uri u : Uri} {path : Text} (h : AgreeBut uri env env')
    (hu : env.catalog.locate u path ≠ .ok uri) :
    env'.catalog.lookup u path = env.catalog.lookup u path := by
  rw [Catalog.lookup, Catalog.lookup, h.locate]
  split
  · next w hw => exact h.read w fun hwu => hu (hwu ▸ hw)
  · rfl

theorem plain_direct_congr (hr : env.Regular) {uri : Uri} (h : AgreeBut uri env env')
    (tree : SyntaxTree) (importing : Document) (depth : Nat)
    (ha : ¬ env.Asks uri tree importing depth) :
    (linkModule (draftModule 0 tree importing depth) (env'.direct importing depth)).plain =
      (linkModule (draftModule 0 tree importing depth) (env.direct importing depth)).plain := by
  obtain ⟨levels, hl⟩ : ∃ levels, levels = env.maxDepth - depth := ⟨_, rfl⟩
  rw [plain_linkModule_iff]
  induction levels generalizing tree importing depth with
  | zero =>
    intro r _
    have hle : env.maxDepth ≤ depth := by omega
    rw [direct, direct, followWith_of_le hle, followWith_of_le (h.maxDepth ▸ hle), h.maxDepth]
  | succ levels ih =>
    intro r hm
    have hlt : depth < env.maxDepth := by omega
    have hlook := h.lookup fun hu => ha (.here hlt hm hu)
    simp only [direct, followWith_of_lt hlt, followWith_of_lt (h.maxDepth ▸ hlt), hlook]
    cases hd : env.catalog.lookup importing.uri r.edge.path with
    | error e => rfl
    | ok document =>
      have hn (e : ImportEnv) : e.productWith nothing document (depth + 1) =
          e.productBy (e.direct document (depth + 1)) document (depth + 1) :=
        productWith_of_none rfl
      simp only [Product.outcome_plain_iff, hn]
      rcases hr.parses document with hs | ⟨tree', hs⟩
      · rw [productBy_failed hs, productBy_failed (h.source ▸ hs)]
      · rw [productBy_tree hs, productBy_tree (h.source ▸ hs)]
        refine congrArg Product.module ?_
        rw [plain_linkModule_iff]
        exact ih tree' document (depth + 1) (fun hn => ha (.later hlt hm hd hs hn)) (by omega)

/-- What an edition stands for does not depend on what is read at a location, unless it is of that
location or its building asks for it. -/
theorem Fits.congr (hr : env.Regular) {uri : Uri} (h : AgreeBut uri env env') {k : Edition}
    {p : Product} (hf : env.Fits nothing k p) (hk : k.uri ≠ uri)
    (ha : ∀ d tree, env.catalog.read k.uri = .ok d → d.text = k.text →
      env.source d = .tree tree → ¬ env.Asks uri tree d k.depth) :
    env'.Fits nothing k p := by
  intro d hd ht
  rw [h.read k.uri hk] at hd
  rw [hf d hd ht, productWith_of_none rfl, productWith_of_none rfl]
  rcases hr.parses d with hs | ⟨tree, hs⟩
  · rw [productBy_failed hs, productBy_failed (h.source ▸ hs)]
  · rw [productBy_tree hs, productBy_tree (h.source ▸ hs)]
    exact congrArg Product.module (plain_direct_congr hr h tree d k.depth (ha d tree hd ht hs)).symm

end ImportEnv

end ModuleLens
