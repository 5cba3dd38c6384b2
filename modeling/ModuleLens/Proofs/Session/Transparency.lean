import ModuleLens.Proofs.Session.Calls

/-! When stored modules can be told from fresh ones.  A call of a session gives what it would give
with nothing stored exactly if every stored product that it meets is the one that would be made
now.  Stored products stay up to date as long as no call leaves one behind that is of the document
of the call or whose building asks for it.  Forgetting the modules that lead to the document does
not see to that: it is done before the new snapshot is current, so modules built in the call itself
stay, and a module that asked for the document in vain does not lead to it. -/

namespace ModuleLens

open Node

namespace Session

/-- What is stored and not forgotten when a call begins to build. -/
def survivors (s : Session) (call : Call) : Edition → Option Product :=
  (s.linker.forget call.uri).memory

/-- Every stored product that a call meets is the one that would be made now. -/
def MeetsCurrent (env : SessionEnv) (s : Session) (call : Call) : Prop :=
  ∀ tree document, s.basis? env call = some (tree, document) → ∀ d n p,
    (s.importEnv env).Meets (s.survivors call) tree document 0 d n p →
      p.plain = ((s.importEnv env).directProduct d n).plain

/-- The building of an edition does not ask for a location. -/
def Ignores (env : SessionEnv) (s : Session) (k : Edition) (uri : Uri) : Prop :=
  ∀ d tree, (s.importEnv env).catalog.read k.uri = .ok d → d.text = k.text →
    env.source d = .tree tree → ¬ (s.importEnv env).Asks uri tree d k.depth

/-- A call leaves nothing behind that it puts out of date: if it changes the snapshot of its
document, then what is made in it is neither of the document nor asks for it, and what stays did
not ask for the document in vain. -/
structure Tidy (env : SessionEnv) (s : Session) (call : Call) : Prop where
  made : (s.serve env call).2.document? call.uri ≠ s.document? call.uri →
    ∀ k p, (s.serve env call).2.linker.modules.get? k = some (.ready p) →
      s.survivors call k ≠ some p → k.uri ≠ call.uri ∧ s.Ignores env k call.uri
  vain : (s.serve env call).2.document? call.uri ≠ s.document? call.uri →
    (s.importEnv env).Has call.uri ∨
      ∀ k p, s.survivors call k = some p → s.Ignores env k call.uri

def TidyAll (env : SessionEnv) : Session → List Call → Prop
  | _, [] => True
  | s, call :: calls => s.Tidy env call ∧ TidyAll env (s.serve env call).2 calls

variable {env : SessionEnv} {s s' : Session}

theorem agreeBut (env : SessionEnv) {uri : Uri}
    (h : ∀ u, u ≠ uri → s'.document? u = s.document? u) :
    ImportEnv.AgreeBut uri (s.importEnv env) (s'.importEnv env) := by
  refine ⟨rfl, rfl, rfl, fun u hu => ?_⟩
  simp only [importEnv, Catalog.shadowedBy, h u hu]

/-- What is up to date and not forgotten with a document does not ask for it, if a module could be
had there: it would lead there. -/
theorem ignores_of_has (hr : env.Regular) (h : s.Sound)
    (hf : s.linker.Faithful (s.importEnv env) ImportEnv.nothing) {uri : Uri}
    (hu : (s.importEnv env).Has uri) {k : Edition} {p : Product}
    (hk : (s.linker.forget uri).modules.get? k = some (.ready p)) : s.Ignores env k uri := by
  intro d tree hd ht hs ha
  have hp := hf.fits (Linker.get?_forget h.quiet.coherent hk).1 d hd ht
  rw [ImportEnv.productWith_of_none rfl, ImportEnv.productBy_tree hs] at hp
  cases p with
  | failed => cases hp
  | module n =>
    obtain ⟨t, hi, m, hm, hmu⟩ := ha.reaches (h.regular hr) hu (Product.module.inj hp)
    have hn := (h.quiet.coherent.forget uri).holds hk
    exact ((Linker.holds_forget h.quiet.coherent).1 hn).2 m (.head hi hm) hmu

theorem Tidy.current (hr : env.Regular) (h : s.Sound) {call : Call} (ht : s.Tidy env call)
    (hc : s.linker.Faithful (s.importEnv env) ImportEnv.nothing)
    (hd : ∀ u, u ≠ call.uri → (s.serve env call).2.document? u = s.document? u)
    (hf : (s.serve env call).2.linker.Faithful (s.importEnv env) ImportEnv.nothing) :
    (s.serve env call).2.linker.Faithful ((s.serve env call).2.importEnv env)
      ImportEnv.nothing := by
  by_cases hu : (s.serve env call).2.document? call.uri = s.document? call.uri
  · -- nothing is read otherwise than before
    have hdoc : (s.serve env call).2.document? = s.document? := by
      funext u
      by_cases hu' : u = call.uri
      · rw [hu', hu]
      · exact hd u hu'
    have he : (s.serve env call).2.importEnv env = s.importEnv env := by
      rw [importEnv, importEnv, hdoc]
    rw [he]
    exact hf
  · -- every product that is there now has nothing to do with the document
    refine ⟨fun hk => (nomatch hk), fun {k p} hk => ?_⟩
    have hi : k.uri ≠ call.uri ∧ s.Ignores env k call.uri := by
      by_cases hs : s.survivors call k = some p
      · have hs' := Linker.memory_eq_some.1 hs
        refine ⟨(Linker.get?_forget h.quiet.coherent hs').2, ?_⟩
        rcases ht.vain hu with hhas | hv
        · exact ignores_of_has hr h hc hhas hs'
        · exact hv k p hs
      · exact ht.made hu k p hk hs
    exact (hf.fits hk).congr (h.regular hr) (agreeBut env hd) hi.1 hi.2

theorem current_serve (hr : env.Regular) (h : s.Sound)
    (hf : s.linker.Faithful (s.importEnv env) ImportEnv.nothing) {call : Call}
    (ht : s.Tidy env call) :
    (s.serve env call).2.linker.Faithful ((s.serve env call).2.importEnv env)
      ImportEnv.nothing := by
  have hff := hf.forget h.quiet.coherent.distinct call.uri
  have hcur := ht.current hr h hf
  rcases serve_cases hr h call with ⟨_, _, _, s', hb⟩ | ⟨_, s', hs, _, hl, hd⟩ | ⟨s', hs, _, hl, hd⟩
  · rw [hb.serve] at hcur ⊢
    exact hcur (fun u hu => (hb.documents u).trans (if_neg hu)) (hb.recalls _ hff).1
  · rw [hs] at hcur ⊢
    exact hcur (fun u _ => congrFun hd u) (show s'.linker.Faithful _ _ from hl ▸ hf)
  · rw [hs] at hcur ⊢
    exact hcur (fun u hu => (hd u).trans (if_neg hu)) (show s'.linker.Faithful _ _ from hl ▸ hff)

theorem current_after (hr : env.Regular) (h : s.Sound)
    (hf : s.linker.Faithful (s.importEnv env) ImportEnv.nothing) {calls : List Call}
    (ht : TidyAll env s calls) :
    (s.after env calls).linker.Faithful ((s.after env calls).importEnv env)
      ImportEnv.nothing := by
  induction calls generalizing s with
  | nil => exact hf
  | cons call calls ih => exact ih (h.serve hr call) (current_serve hr h hf ht.1) ht.2

theorem faithful_start (h : Session.start env = .ok s) :
    s.linker.Faithful (s.importEnv env) ImportEnv.nothing := by
  have hm := (start_sound h).2.1
  refine ⟨fun hk => (nomatch hk), fun hk => ?_⟩
  rw [hm] at hk
  cases hk

/-- A call with nothing stored gives what comes of building on the spot. -/
theorem serve_emptied (hr : env.Regular) (h : s.Sound) {call : Call} {tree : SyntaxTree}
    {document : Document} (he : s.basis? env call = some (tree, document)) :
    ∃ module, (s.emptied.serve env call).1 = some (.ok (.done module)) ∧
      module.plain = ((s.importEnv env).directEntry tree document).plain := by
  have he : s.emptied.basis? env call = some (tree, document) := he
  obtain ⟨module, s', hb⟩ := exists_built hr h.emptied he
  have hf : (s.emptied.linker.forget call.uri).Faithful (s.emptied.importEnv env)
      ImportEnv.nothing := by
    have hh := Linker.faithful_memory (h.emptied.regular hr) (s.emptied.linker.forget call.uri)
    rwa [show s.emptied.linker = s.linker.emptied from rfl, Linker.memory_forget_emptied] at hh
  exact ⟨module, congrArg Prod.fst hb.serve, (hb.recalls _ hf).2⟩

/-- What is stored makes no difference to a call exactly if what is met of it is up to date. -/
theorem Built.plain_iff (hr : env.Regular) (h : s.Sound) {call : Call} {tree : SyntaxTree}
    {document : Document} {module : Node} (hb : s.Built env call tree document module s') :
    module.plain = ((s.importEnv env).directEntry tree document).plain ↔
      s.MeetsCurrent env call := by
  rw [(hb.recalls _ (Linker.faithful_memory (h.regular hr) _)).2,
    ImportEnv.plain_entryWith_iff (h.regular hr)]
  refine ⟨fun hm t d hbasis => ?_, fun hm => hm tree document hb.basis⟩
  rw [hb.basis] at hbasis
  cases hbasis
  exact hm

end Session

open Session

/-- A call gives what it would give with nothing stored exactly if the stored products that it meets
are up to date, and so it does after every history of tidy calls. -/
theorem transparent_iff_meets_current {env : SessionEnv} (hr : env.Regular) {s₀ : Session}
    (h₀ : Session.start env = .ok s₀) (calls : List Call) (call : Call) {fate : Fate Node}
    (hok : ((s₀.after env calls).serve env call).1 = some (.ok fate)) :
    ∃ module module₀, fate = .done module ∧
      ((s₀.after env calls).emptied.serve env call).1 = some (.ok (.done module₀)) ∧
      (module.plain = module₀.plain ↔ (s₀.after env calls).MeetsCurrent env call) ∧
      (TidyAll env s₀ calls → module.plain = module₀.plain) := by
  have hs := (start_sound h₀).1
  have h := hs.after hr calls
  obtain ⟨tree, document, module, s', rfl, hb⟩ := exists_built_of_ok hr h hok
  obtain ⟨module₀, hserve₀, hplain₀⟩ := serve_emptied hr h hb.basis
  refine ⟨module, module₀, rfl, hserve₀, ?_, fun ht => ?_⟩
  · rw [hplain₀]
    exact hb.plain_iff hr h
  · have hcur := current_after hr hs (faithful_start h₀) ht
    rw [hplain₀, (hb.recalls _ (hcur.forget h.quiet.coherent.distinct call.uri)).2]
    rfl

namespace Reopening

def env : SessionEnv :=
  .ofFiles ⟨[("file:///b.pkl".toList, "import \"a.pkl\"\n".toList)]⟩

def uri : Uri := entryUri

def document (version : Int) : Document := ⟨uri, some version, "import \"b.pkl\"\n".toList⟩

def file : Document := ⟨⟨"file:///b.pkl".toList, by decide⟩, none, "import \"a.pkl\"\n".toList⟩

def opening (version : Int) : Call := .openDocument uri version (document version).text

def start : Session := { linker := .ofWorkers env.settings.workers }

theorem regular : env.Regular := SessionEnv.regular_ofFiles _

theorem start_eq : Session.start env = .ok start := start_ofFiles _

theorem basis?_opening (s : Session) (version : Int) :
    s.basis? env (opening version) =
      some (Outline.parseStrict (document version).text, document version) :=
  basis?_ofFiles _ s uri version _

def outlook (n : Node) : List (Edition × Nat) :=
  n.targets.map fun t => (t.edition, t.targets.length)

theorem outlook_congr {m n : Node} (h : m.plain = n.plain) : outlook m = outlook n := by
  refine map_targets_congr h fun t => ?_
  rw [targets_plain, List.length_map]
  cases t
  rfl

theorem built_once : ∃ module, start.Built env (opening 1)
    (Outline.parseStrict (document 1).text) (document 1) module (start.after env [opening 1]) := by
  obtain ⟨module, s', hb⟩ := exists_built regular (start_sound start_eq).1 (basis?_opening start 1)
  have hafter : start.after env [opening 1] = s' := by
    rw [after, List.foldl_cons, hb.serve]
    rfl
  exact ⟨module, hafter ▸ hb⟩

theorem stored_once : ∃ t, (start.after env [opening 1]).linker.Holds t ∧
    t.edition = file.edition 1 ∧ t.targets = [] := by
  obtain ⟨module, hb⟩ := built_once
  have hf := (faithful_start start_eq).forget (start_sound start_eq).1.quiet.coherent.distinct uri
  have hp := outlook_congr (hb.recalls _ hf).2
  have hd : outlook ((start.importEnv env).directEntry (Outline.parseStrict (document 1).text)
      (document 1)) = [(file.edition 1, 0)] := by decide +kernel
  rw [show (start.importEnv env).entryWith ImportEnv.nothing = (start.importEnv env).directEntry
    from rfl, hd] at hp
  obtain ⟨t, ht, heq⟩ := List.mem_map.1 (hp ▸ List.mem_singleton_self _ :
    (file.edition 1, 0) ∈ outlook module)
  exact ⟨t, hb.stored t ht, (Prod.mk.inj heq).1, List.length_eq_zero_iff.1 (Prod.mk.inj heq).2⟩

theorem document?_once (u : Uri) : (start.after env [opening 1]).document? u =
    if u = uri then some (document 1) else none := by
  obtain ⟨module, hb⟩ := built_once
  exact hb.documents u

def shadowed : ImportEnv where
  catalog := env.catalog.shadowedBy fun u => if u = uri then some (document 1) else none
  source := env.source
  maxDepth := env.settings.maxImportDepth.toNat

theorem importEnv_once : (start.after env [opening 1]).importEnv env = shadowed := by
  rw [importEnv, shadowed, funext document?_once]

def imports : Product → Nat
  | .module n => n.targets.length
  | .failed => 0

theorem not_meetsCurrent_once :
    ¬ (start.after env [opening 1]).MeetsCurrent env (opening 2) := by
  let s := start.after env [opening 1]
  intro hcur
  have h : s.Sound := (start_sound start_eq).1.after regular [opening 1]
  obtain ⟨t, ht, hed, hnone⟩ := stored_once
  have hsurvives : (s.linker.forget uri).Holds t := by
    refine (Linker.holds_forget h.quiet.coherent).2 ⟨ht, fun m hm => ?_⟩
    rcases Relation.ReflTransGen.cases_head hm with rfl | ⟨t', ht', _⟩
    · have hu : t.uri = file.uri := congrArg Edition.uri hed
      rw [hu]
      decide
    · rw [Imports, hnone] at ht'
      cases ht'
  have hmem : s.survivors (opening 2) (file.edition 1) = some (.module t) :=
    Linker.memory_eq_some.2 (hed ▸ hsurvives)
  have hcur := hcur _ _ (basis?_opening s 2)
  rw [importEnv_once] at hcur
  have hreq : (⟨1, ⟨.plain, "b.pkl".toList⟩⟩ : Request) ∈
      (draftModule 0 (Outline.parseStrict (document 2).text) (document 2) 0).requests := by
    decide +kernel
  have hmeet : shadowed.Meets (s.survivors (opening 2)) (Outline.parseStrict (document 2).text)
      (document 2) 0 file 1 (.module t) := .here (by decide) hreq rfl hmem
  have hcount := congrArg Reopening.imports (hcur file 1 (.module t) hmeet)
  have hnow : Reopening.imports (shadowed.directProduct file 1).plain = 1 := by decide +kernel
  rw [hnow, Product.plain, Reopening.imports, targets_plain, hnone] at hcount
  cases hcount

/-- The document that is opened a second time, unchanged, imports the file as it was when the
document was not open: the file's own import of the document leads nowhere, though the document is
there. -/
theorem reopened_not_transparent : ∃ s₀ module module₀, Session.start env = .ok s₀ ∧
    ((s₀.after env [opening 1]).serve env (opening 2)).1 = some (.ok (.done module)) ∧
    ((s₀.after env [opening 1]).emptied.serve env (opening 2)).1 = some (.ok (.done module₀)) ∧
    module.plain ≠ module₀.plain := by
  have h := (start_sound start_eq).1.after regular [opening 1]
  obtain ⟨module, s', hb⟩ := exists_built regular h (basis?_opening _ 2)
  obtain ⟨module₀, hserve₀, hplain₀⟩ := serve_emptied regular h hb.basis
  refine ⟨start, module, module₀, start_eq, congrArg Prod.fst hb.serve, hserve₀, fun heq => ?_⟩
  rw [hplain₀] at heq
  exact not_meetsCurrent_once ((hb.plain_iff regular h).1 heq)

theorem transparent_iff_meets_current_reopening : env.Regular ∧ Session.start env = .ok start ∧
    ∃ fate, ((start.after env [opening 1]).serve env (opening 2)).1 = some (.ok fate) ∧
      ∃ module module₀, fate = .done module ∧
        ((start.after env [opening 1]).emptied.serve env (opening 2)).1 =
          some (.ok (.done module₀)) ∧
        (module.plain = module₀.plain ↔
          (start.after env [opening 1]).MeetsCurrent env (opening 2)) := by
  obtain ⟨trees, hserve⟩ := serve_basis (basis?_opening (start.after env [opening 1]) 2)
  have hok := congrArg Prod.fst hserve
  obtain ⟨module, module₀, hfate, hs₀, hiff, _⟩ :=
    transparent_iff_meets_current regular start_eq [opening 1] (opening 2) hok
  exact ⟨regular, start_eq, _, hok, module, module₀, hfate, hs₀, hiff⟩

end Reopening

end ModuleLens
