import ModuleLens.Proofs.Session.Transparency

/-! Which texts the modules of open documents are built from.  A call reads every other open
document from its snapshot, but its own document as it was before the call: the snapshot that is
replaced, or the file.  So the modules that a call leads to are built from the open texts exactly
if the document does not lead to itself with another text and no stored module with another text is
met. -/

namespace ModuleLens

open Node

namespace Session

def Shadowed (s : Session) (module : Node) : Prop :=
  ∀ m d, Reaches module m → s.document? m.uri = some d → m.document.text = d.text

/-- The text that was read at a location before a call is the one that is open after it. -/
def Unmoved (env : SessionEnv) (s s' : Session) (uri : Uri) : Prop :=
  ∃ d d', (s.importEnv env).catalog.read uri = .ok d ∧ s'.document? uri = some d' ∧
    d.text = d'.text

/-- The stored modules that a module leads to, those that lead to a location apart, have the open
texts. -/
def MeetsShadowed (s : Session) (uri : Uri) (module : Node) : Prop :=
  ∀ m d, Reaches module m → (s.linker.forget uri).Holds m → s.document? m.uri = some d →
    m.document.text = d.text

def StoresShadowed (s : Session) : Prop :=
  ∀ k p d, s.linker.modules.get? k = some (.ready p) → s.document? k.uri = some d → k.text = d.text

variable {env : SessionEnv} {s s' : Session}

theorem read_of_document? {u : Uri} {d : Document} (h : s.document? u = some d) :
    (s.importEnv env).catalog.read u = .ok d := by
  simp only [importEnv, Catalog.shadowedBy, h]

theorem StoresShadowed.serve (hr : env.Regular) (h : s.Sound) (hsh : s.StoresShadowed)
    {call : Call} (ht : s.Tidy env call) : (s.serve env call).2.StoresShadowed := by
  have hold {k : Edition} {p : Product} {d : Document}
      (hk : (s.linker.forget call.uri).modules.get? k = some (.ready p))
      (hd : k.uri ≠ call.uri → s.document? k.uri = some d) : k.text = d.text := by
    obtain ⟨hk, hne⟩ := Linker.get?_forget h.quiet.coherent hk
    exact hsh k p d hk (hd hne)
  have hmade := ht.made
  rcases serve_cases hr h call with ⟨_, document, _, s', hb⟩ | ⟨_, s', hs, _, hl, hdoc⟩ |
    ⟨s', hs, _, hl, hdoc⟩
  · rw [hb.serve] at hmade ⊢
    have hdoc := hb.documents
    intro k p d hk hd
    rcases hb.grows.read hk with hk' | ⟨d', hread, htext⟩
    · exact hold hk' fun hne => by rwa [hdoc, if_neg hne] at hd
    · by_cases hu : s'.document? k.uri = s.document? k.uri
      · rw [hu] at hd
        rw [read_of_document? hd] at hread
        cases hread
        exact htext.symm
      · -- only the snapshot of the document of the call has changed
        have hku : k.uri = call.uri := Decidable.by_contra fun hne => hu (by rw [hdoc, if_neg hne])
        by_cases hold' : s.survivors call k = some p
        · exact hold (Linker.memory_eq_some.1 hold') fun hne => (hne hku).elim
        · exact ((hmade (hku ▸ hu) k p hk hold').1 hku).elim
  · rw [hs]
    intro k p d hk hd
    exact hsh k p d (hl ▸ hk) (hdoc ▸ hd)
  · rw [hs]
    intro k p d hk hd
    have hk : s'.linker.modules.get? k = _ := hk
    rw [hl] at hk
    exact hold hk fun hne => by rwa [hdoc, if_neg hne] at hd

theorem StoresShadowed.after (hr : env.Regular) (h : s.Sound) (hsh : s.StoresShadowed)
    {calls : List Call} (ht : TidyAll env s calls) : (s.after env calls).StoresShadowed := by
  induction calls generalizing s with
  | nil => exact hsh
  | cons call calls ih => exact ih (h.serve hr call) (hsh.serve hr h ht.1) ht.2

theorem StoresShadowed.meets (h : s.Sound) (hsh : s.StoresShadowed) (uri : Uri) (module : Node) :
    s.MeetsShadowed uri module := by
  intro m d _ hm hd
  exact hsh m.edition (.module m) d ((Linker.holds_forget h.quiet.coherent).1 hm).1 hd

theorem StoresShadowed.start (h : Session.start env = .ok s) : s.StoresShadowed := by
  intro k p d hk _
  rw [(start_sound h).2.1] at hk
  cases hk

section Built

variable {call : Call} {tree : SyntaxTree} {document : Document} {module : Node}

theorem Built.document?_self (hb : s.Built env call tree document module s') :
    s'.document? call.uri = some document :=
  (hb.documents _).trans (if_pos rfl)

theorem Built.document?_of_holds (hb : s.Built env call tree document module s') (h : s.Sound)
    {m : Node} (hm : (s.linker.forget call.uri).Holds m) :
    s'.document? m.uri = s.document? m.uri :=
  (hb.documents _).trans (if_neg (Linker.get?_forget h.quiet.coherent hm).2)

/-- A module behind an import was stored before the call, or it is of a text that was read. -/
theorem Built.reaches (hb : s.Built env call tree document module s') {t m : Node}
    (ht : Imports module t) (hm : Reaches t m) : (s.linker.forget call.uri).Holds m ∨
      ∃ d, (s.importEnv env).catalog.read m.uri = .ok d ∧ d.text = m.document.text :=
  hb.grows.read (hb.sound.quiet.coherent.closed.reaches (hb.stored t ht) hm)

theorem Built.leadsTo (hb : s.Built env call tree document module s') :
    module.leadsTo call.uri ↔ ∃ t, Imports module t ∧ ∃ m, Reaches t m ∧ m.uri = call.uri :=
  hb.sound.quiet.coherent.leadsTo hb.stored

theorem Built.unmoved (hb : s.Built env call tree document module s') (h : s.Sound)
    (hsh : s'.Shadowed module) (hl : module.leadsTo call.uri) : s.Unmoved env s' call.uri := by
  obtain ⟨t, ht, m, hm, hu⟩ := hb.leadsTo.1 hl
  have htext := hsh m document (.head ht hm) (hu ▸ hb.document?_self)
  rcases hb.reaches ht hm with hhold | ⟨d, hread, hd⟩
  · exact absurd hu (Linker.get?_forget h.quiet.coherent hhold).2
  · exact ⟨d, document, hu ▸ hread, hb.document?_self, hd.trans htext⟩

theorem Built.shadowed (hb : s.Built env call tree document module s') (h : s.Sound)
    (hmove : module.leadsTo call.uri → s.Unmoved env s' call.uri)
    (hmeet : s.MeetsShadowed call.uri module) : s'.Shadowed module := by
  intro m d hm hd
  rcases Relation.ReflTransGen.cases_head hm with rfl | ⟨t, ht, htm⟩
  · have hu : module.uri = call.uri := (congrArg Edition.uri hb.edition).trans hb.uri
    rw [hu, hb.document?_self] at hd
    cases hd
    exact congrArg Edition.text hb.edition
  · rcases hb.reaches ht htm with hhold | ⟨d', hread, hd'⟩
    · exact hmeet m d hm hhold ((hb.document?_of_holds h hhold).symm.trans hd)
    · by_cases hu : m.uri = call.uri
      · -- the document leads to itself: what was read for it before the call
        obtain ⟨d₁, d₂, hread₁, hd₂, heq⟩ := hmove (hb.leadsTo.2 ⟨t, ht, m, htm, hu⟩)
        rw [hu] at hread hd
        rw [hread₁] at hread
        rw [hd₂] at hd
        cases hread
        cases hd
        exact hd'.symm.trans heq
      · rw [hb.documents, if_neg hu] at hd
        rw [read_of_document? hd] at hread
        cases hread
        exact hd'.symm

end Built

end Session

open Session

/-- The modules that a call leads to are built from the open texts exactly if the document of the
call does not lead to itself with another text and no stored module with another text is met; after
a history of tidy calls none is. -/
theorem shadowed_iff_unmoved {env : SessionEnv} (hr : env.Regular) {s₀ s' : Session}
    (h₀ : Session.start env = .ok s₀) (calls : List Call) (call : Call) {fate : Fate Node}
    (hok : (s₀.after env calls).serve env call = (some (.ok fate), s')) :
    ∃ module, fate = .done module ∧
      (s'.Shadowed module ↔
        (module.leadsTo call.uri → (s₀.after env calls).Unmoved env s' call.uri) ∧
        (s₀.after env calls).MeetsShadowed call.uri module) ∧
      (TidyAll env s₀ calls → (s₀.after env calls).MeetsShadowed call.uri module) := by
  have hs := (start_sound h₀).1
  have h := hs.after hr calls
  obtain ⟨tree, document, module, s₁, rfl, hb⟩ := exists_built_of_ok hr h (congrArg Prod.fst hok)
  rw [hb.serve] at hok
  cases hok
  refine ⟨module, rfl, ⟨fun hsh => ⟨hb.unmoved h hsh, fun m d hm hhold hd => ?_⟩,
    fun hh => hb.shadowed h hh.1 hh.2⟩, fun ht => ?_⟩
  · exact hsh m d hm ((hb.document?_of_holds h hhold).trans hd)
  · have hstores := (StoresShadowed.start h₀).after hr hs ht
    exact hstores.meets h call.uri module

namespace SelfImport

def env : SessionEnv := .ofFiles ⟨[("file:///a.pkl".toList, "x = 1\n".toList)]⟩

def uri : Uri := entryUri

def text : Text := "import \"a.pkl\"\n".toList

def opening : Call := .openDocument uri 1 text

def start : Session := { linker := .ofWorkers env.settings.workers }

theorem regular : env.Regular := SessionEnv.regular_ofFiles _

theorem start_eq : Session.start env = .ok start := start_ofFiles _

/-- The module that is returned leads to one that is built from the text on disk, though the
document is open. -/
theorem self_import_not_shadowed : ∃ s₀ s' module m d, Session.start env = .ok s₀ ∧
    s₀.serve env opening = (some (.ok (.done module)), s') ∧ Reaches module m ∧
    s'.document? m.uri = some d ∧ m.document.text ≠ d.text := by
  have hs := (start_sound start_eq).1
  obtain ⟨module, s', hb⟩ := exists_built regular hs (basis?_ofFiles _ start uri 1 text)
  have hf := (faithful_start start_eq).forget hs.quiet.coherent.distinct uri
  have hp := map_targets_congr (hb.recalls _ hf).2 document_plain
  have hnow : ((Session.importEnv env start).entryWith ImportEnv.nothing
      (Outline.parseStrict text) ⟨uri, some 1, text⟩).targets.map Node.document =
        [⟨uri, none, "x = 1\n".toList⟩] := by decide +kernel
  rw [hnow] at hp
  obtain ⟨m, hmem, hdocument⟩ := List.mem_map.1 (hp ▸ List.mem_singleton_self _ :
    (⟨uri, none, "x = 1\n".toList⟩ : Document) ∈ module.targets.map Node.document)
  have hu : m.uri = uri := congrArg Document.uri hdocument
  refine ⟨start, s', module, m, ⟨uri, some 1, text⟩, start_eq, hb.serve, .single hmem, ?_, ?_⟩
  · rw [hu]
    exact hb.document?_self
  · rw [hdocument]
    decide

theorem shadowed_iff_unmoved_self_import : env.Regular ∧ Session.start env = .ok start ∧
    ∃ fate s', start.serve env opening = (some (.ok fate), s') ∧
      ∃ module, fate = .done module ∧
        (s'.Shadowed module ↔
          (module.leadsTo uri → start.Unmoved env s' uri) ∧ start.MeetsShadowed uri module) := by
  obtain ⟨trees, hserve⟩ := serve_basis (basis?_ofFiles _ start uri 1 text)
  obtain ⟨module, hfate, hiff, _⟩ :=
    shadowed_iff_unmoved regular start_eq [] opening hserve
  exact ⟨regular, start_eq, _, _, hserve, module, hfate, hiff⟩

end SelfImport

end ModuleLens
