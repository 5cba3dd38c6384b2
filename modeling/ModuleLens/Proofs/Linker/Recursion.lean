import ModuleLens.Linker
import ModuleLens.Proofs.Catalog
import ModuleLens.Proofs.Node.Linking

/-! Following imports by plain recursion.  An import is looked up, and its module is made with its
own imports followed in the same way, one level deeper, up to the depth limit; there is no store and
no one to wait for.  Recursion can also be given a memory of products that it takes as they are:
without one it is the direct way to build a module. -/

namespace ModuleLens

open Node

def Document.edition (document : Document) (depth : Nat) : Edition :=
  ⟨depth, document.uri, document.text⟩

def Product.plain : Product → Product
  | module node => module node.plain
  | failed => failed

theorem Product.plainOutcome_outcome (p : Product) : plainOutcome p.outcome = p.plain.outcome := by
  cases p <;> rfl

theorem Product.outcome_inj {p q : Product} (h : p.outcome = q.outcome) : p = q := by
  cases p <;> cases q <;> simp_all [outcome]

namespace ImportEnv

/-- What a catalog and a module source are relied on for: the document read at a location is of
that location, and the source gives a tree or says that there is none. -/
structure Regular (env : ImportEnv) : Prop where
  located : env.catalog.Honest
  parses : ∀ document, env.source document = .failed ∨ ∃ tree, env.source document = .tree tree

theorem Regular.read {env : ImportEnv} (h : env.Regular) {importing : Uri} {path : Text}
    {document : Document} (hd : env.catalog.lookup importing path = .ok document) :
    env.catalog.read document.uri = .ok document := by
  rw [Catalog.lookup] at hd
  split at hd
  · rwa [h.located _ _ hd]
  · cases hd

def productBy (env : ImportEnv) (answer : ImportEdge → Outcome Node) (document : Document)
    (depth : Nat) : Product :=
  match env.source document with
  | .tree tree => .module (linkModule (draftModule 0 tree document depth) answer)
  | _ => .failed

/-- Follows an import with `levels` more levels allowed.  A product that is remembered is taken as
it is, any other one is made. -/
def followWithAt (env : ImportEnv) (memory : Edition → Option Product) :
    Nat → Document → Nat → ImportEdge → Outcome Node
  | 0, _, _, _ => .tooDeep env.maxDepth
  | levels + 1, importing, depth, edge =>
    match env.catalog.lookup importing.uri edge.path with
    | .error _ => .notFound
    | .ok document =>
      ((memory (document.edition (depth + 1))).getD
        (env.productBy (followWithAt env memory levels document (depth + 1)) document
          (depth + 1))).outcome

def followWith (env : ImportEnv) (memory : Edition → Option Product) (importing : Document)
    (depth : Nat) (edge : ImportEdge) : Outcome Node :=
  env.followWithAt memory (env.maxDepth - depth) importing depth edge

/-- The product of a document: the one that is remembered, or the one that is made. -/
def productWith (env : ImportEnv) (memory : Edition → Option Product) (document : Document)
    (depth : Nat) : Product :=
  (memory (document.edition depth)).getD
    (env.productBy (env.followWith memory document depth) document depth)

def nothing : Edition → Option Product := fun _ => none

def direct (env : ImportEnv) : Document → Nat → ImportEdge → Outcome Node := env.followWith nothing

def directProduct (env : ImportEnv) : Document → Nat → Product := env.productWith nothing

def entryWith (env : ImportEnv) (memory : Edition → Option Product) (tree : SyntaxTree)
    (document : Document) : Node :=
  linkModule (draftModule 0 tree document 0) (env.followWith memory document 0)

def directEntry (env : ImportEnv) : SyntaxTree → Document → Node := env.entryWith nothing

theorem followWith_of_le {env : ImportEnv} {depth : Nat} (h : env.maxDepth ≤ depth)
    (memory : Edition → Option Product) (importing : Document) (edge : ImportEdge) :
    env.followWith memory importing depth edge = .tooDeep env.maxDepth := by
  rw [followWith, Nat.sub_eq_zero_of_le h, followWithAt]

theorem followWith_of_lt {env : ImportEnv} {depth : Nat} (h : depth < env.maxDepth)
    (memory : Edition → Option Product) (importing : Document) (edge : ImportEdge) :
    env.followWith memory importing depth edge =
      match env.catalog.lookup importing.uri edge.path with
      | .error _ => .notFound
      | .ok document => (env.productWith memory document (depth + 1)).outcome := by
  have hl : env.maxDepth - depth = env.maxDepth - (depth + 1) + 1 := by omega
  rw [followWith, hl, followWithAt]
  rfl

theorem productWith_of_none {env : ImportEnv} {memory : Edition → Option Product}
    {document : Document} {depth : Nat} (h : memory (document.edition depth) = none) :
    env.productWith memory document depth =
      env.productBy (env.followWith memory document depth) document depth := by
  rw [productWith, h, Option.getD_none]

theorem productWith_of_some {env : ImportEnv} {memory : Edition → Option Product}
    {document : Document} {depth : Nat} {p : Product}
    (h : memory (document.edition depth) = some p) : env.productWith memory document depth = p := by
  rw [productWith, h, Option.getD_some]

/-- Whether a product is the one that an edition stands for. -/
def Fits (env : ImportEnv) (memory : Edition → Option Product) (edition : Edition)
    (product : Product) : Prop :=
  ∀ document, env.catalog.read edition.uri = .ok document → document.text = edition.text →
    product.plain = (env.productWith memory document edition.depth).plain

theorem Regular.fits {env : ImportEnv} (h : env.Regular) {memory : Edition → Option Product}
    {importing : Uri} {path : Text} {document : Document}
    (hd : env.catalog.lookup importing path = .ok document) {depth : Nat} {product : Product}
    (hp : product.plain = (env.productWith memory document depth).plain) :
    env.Fits memory (document.edition depth) product := by
  intro other ho _
  have hh := h.read hd
  rw [show (document.edition depth).uri = document.uri from rfl, hh] at ho
  cases ho
  exact hp

theorem fits_of_memory {env : ImportEnv} (h : env.Regular) {memory : Edition → Option Product}
    {edition : Edition} {product : Product} (hm : memory edition = some product) :
    env.Fits memory edition product := by
  intro document hd ht
  have he : document.edition edition.depth = edition := by
    rw [Document.edition, h.located _ _ hd, ht]
  rw [productWith_of_some (he ▸ hm)]

end ImportEnv

end ModuleLens
