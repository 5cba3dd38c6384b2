import ModuleLens.Proofs.Linker.Coherence
import ModuleLens.Proofs.Node.Archive

/-! Forgetting a document, whatever is stored.  A slot that is pending stays; of the others those go
that are of the document or hold a module from which imports lead to it.  The search for such
imports comes to each module once, so it ends on every graph of modules. -/

namespace ModuleLens

open Node Relation

namespace Linker

/-- Whether a slot is spared when a document is forgotten. -/
inductive Spared (uri : Uri) (key : Edition) : Slot Product → Prop
  | pending : Spared uri key .pending
  | failed (h : key.uri ≠ uri) : Spared uri key (.ready .failed)
  | apart {m : Node} (h : key.uri ≠ uri) (hm : ¬ ∃ t, TransGen Imports m t ∧ t.uri = uri) :
      Spared uri key (.ready (.module m))

theorem Coherent.told {l : Linker} (h : l.Coherent) {key : Edition} {m : Node}
    (hm : l.modules.get? key = some (.ready (.module m))) : m.Told :=
  h.closed.told_of (h.holds hm)

theorem reach_targets_sound {m t : Node} (h : t ∈ reach m.targets) : TransGen Imports m t := by
  obtain ⟨a, ha, hr⟩ := reaches_of_mem_reachFrom h
  exact TransGen.head'_iff.2 ⟨a, ha, hr⟩

theorem mem_reach_targets {m : Node} (h : m.Told) {t : Node} :
    t ∈ reach m.targets ↔ TransGen Imports m t := by
  refine ⟨reach_targets_sound, fun ht => ?_⟩
  obtain ⟨a, ha, hr⟩ := TransGen.head'_iff.1 ht
  exact (mem_reach h.closed fun b hb => .single hb).2 ⟨a, ha, hr⟩

theorem leadsTo_iff_transGen {m : Node} (h : m.Told) (uri : Uri) :
    m.leadsTo uri ↔ ∃ t, TransGen Imports m t ∧ t.uri = uri := by
  simp only [leadsTo, List.any_eq_true, decide_eq_true_eq, mem_reach_targets h]

theorem spared_module {uri : Uri} {key : Edition} {m : Node} :
    Spared uri key (.ready (.module m)) ↔
      key.uri ≠ uri ∧ ¬ ∃ t, TransGen Imports m t ∧ t.uri = uri := by
  refine ⟨fun h => ?_, fun h => .apart h.1 h.2⟩
  cases h with
  | apart hu hm => exact ⟨hu, hm⟩

theorem survives_iff {uri : Uri} {key : Edition} {product : Product}
    (h : ∀ m, product = .module m → m.Told) :
    survives uri key product ↔ Spared uri key (.ready product) := by
  cases product with
  | failed =>
    rw [survives, decide_eq_true_eq]
    refine ⟨.failed, fun hs => ?_⟩
    cases hs
    assumption
  | module m =>
    have hleads := leadsTo_iff_transGen (h m rfl) uri
    simp only [survives, Bool.and_eq_true, decide_eq_true_eq, Bool.not_eq_true']
    rw [← Bool.not_eq_true, hleads, spared_module]

end Linker

open Linker

/-- Forgetting a document keeps the slots that are pending, and with what is in them those of other
documents that hold no module from which a chain of imports leads to the document; it does nothing
else.  The search from a module visits modules behind its imports only, each once. -/
theorem forget_keeps_iff {l : Linker} (hd : Table.Distinct l.modules)
    (h : ∀ key m, l.modules.get? key = some (.ready (.module m)) → m.Told) (uri : Uri) :
    (∀ key slot, (l.forget uri).modules.get? key = some slot ↔
      l.modules.get? key = some slot ∧ Spared uri key slot) ∧
    l.forget uri = { l with modules := (l.forget uri).modules } ∧
    ∀ m : Node, ((reach m.targets).map Node.id).Nodup ∧
      ∀ t ∈ reach m.targets, TransGen Imports m t := by
  refine ⟨fun key slot => ?_, rfl, fun m => ⟨nodup_reach _, fun t => reach_targets_sound⟩⟩
  cases slot with
  | pending =>
    rw [forget, SharedStore.get?_prune_eq_pending hd]
    exact ⟨fun hk => ⟨hk, .pending⟩, And.left⟩
  | ready product =>
    rw [forget, SharedStore.get?_prune_eq_ready hd]
    refine and_congr_right fun hk => survives_iff fun m hm => ?_
    exact h key m (hm ▸ hk)

def leafEdition : Edition := ⟨1, ⟨"file:///leaf.pkl".toList, by decide⟩, []⟩

def borrowerEdition : Edition :=
  ⟨1, ⟨"file:///borrower.pkl".toList, by decide⟩, "import \"leaf.pkl\"".toList⟩

def strangerEdition : Edition := ⟨1, ⟨"file:///stranger.pkl".toList, by decide⟩, []⟩

def moduleOf (build : Nat) (edition : Edition) (answer : ImportEdge → Outcome Node) : Node :=
  outlined build edition.depth edition.uri edition.text answer

def leafModule : Node := moduleOf 0 leafEdition fun _ => .notFound

def borrowerModule : Node := moduleOf 1 borrowerEdition fun _ => .resolved leafModule

theorem archive_borrowing : Archive [borrowerModule, leafModule] := by
  have hleaf : Archive [leafModule] :=
    Archive.empty.outline 0 _ _ _ nofun fun _ m hm => nomatch hm
  refine hleaf.outline 1 _ _ _ (fun m hm => ?_) fun _ m hm => ?_
  · rw [List.mem_singleton.1 hm, leafModule, moduleOf, id_outlined]
    exact Nat.zero_ne_one
  · injection hm with hm
    exact List.mem_singleton.2 hm.symm

theorem borrower_imports_leaf : Imports borrowerModule leafModule := by
  have hasks : (draftModule 1 (Outline.parse borrowerEdition.text)
      ⟨borrowerEdition.uri, none, borrowerEdition.text⟩ borrowerEdition.depth).requests ≠ [] := by
    decide +kernel
  obtain ⟨r, hr⟩ := List.exists_mem_of_ne_nil _ hasks
  rw [borrowerModule, moduleOf, outlined]
  exact mem_targets_linkModule 1 _ _ _ hr rfl

theorem uri_leafModule : leafModule.uri = leafEdition.uri := by
  decide +kernel

/-- A module, one that imports it, a document that did not parse, and a module that is still
being made. -/
def storing (leaf borrower : Node) : Linker :=
  { modules := ⟨[(leafEdition, .ready (.module leaf)),
      (borrowerEdition, .ready (.module borrower)), (strangerEdition, .ready .failed),
      ({ leafEdition with depth := 2 }, .pending)]⟩ }

theorem module_of_storing {leaf borrower : Node} {key : Edition} {m : Node}
    (h : (storing leaf borrower).modules.get? key = some (.ready (.module m))) :
    m ∈ [borrower, leaf] := by
  obtain ⟨e, he, hm⟩ := Option.map_eq_some_iff.1 h
  have hmem := List.mem_of_find?_eq_some he
  simp only [storing, List.mem_cons, List.not_mem_nil, or_false] at hmem
  rcases hmem with rfl | rfl | rfl | rfl <;> cases hm
  · exact List.mem_cons_of_mem _ List.mem_cons_self
  · exact List.mem_cons_self

theorem distinct_storing (leaf borrower : Node) :
    Table.Distinct (storing leaf borrower).modules := by
  change [leafEdition, borrowerEdition, strangerEdition, { leafEdition with depth := 2 }].Nodup
  decide

theorem get?_storing (leaf borrower : Node) :
    (storing leaf borrower).modules.get? strangerEdition = some (.ready .failed) ∧
      (storing leaf borrower).modules.get? { leafEdition with depth := 2 } = some .pending :=
  ⟨rfl, rfl⟩

/-- When the imported document is forgotten, the importer goes as well. -/
theorem forget_keeps_iff_borrowing :
    Table.Distinct (storing leafModule borrowerModule).modules ∧
    (∀ key m, (storing leafModule borrowerModule).modules.get? key =
      some (.ready (.module m)) → m.Told) ∧
    ((storing leafModule borrowerModule).forget leafEdition.uri).modules.get? borrowerEdition ≠
      some (.ready (.module borrowerModule)) ∧
    ((storing leafModule borrowerModule).forget leafEdition.uri).modules.get? strangerEdition =
      some (.ready .failed) ∧
    ((storing leafModule borrowerModule).forget leafEdition.uri).modules.get?
      { leafEdition with depth := 2 } = some .pending := by
  have hd := distinct_storing leafModule borrowerModule
  have htold : ∀ key m, (storing leafModule borrowerModule).modules.get? key =
      some (.ready (.module m)) → m.Told :=
    fun key m hm => (archive_borrowing.identified (module_of_storing hm)).told
  obtain ⟨hkeeps, _⟩ := forget_keeps_iff hd htold leafEdition.uri
  obtain ⟨hstranger, hpending⟩ := get?_storing leafModule borrowerModule
  refine ⟨hd, htold, fun hk => ?_,
    (hkeeps _ _).2 ⟨hstranger, .failed (by decide)⟩, (hkeeps _ _).2 ⟨hpending, .pending⟩⟩
  obtain ⟨_, hm⟩ := spared_module.1 ((hkeeps _ _).1 hk).2
  exact hm ⟨leafModule, .single borrower_imports_leaf, uri_leafModule⟩

end ModuleLens
