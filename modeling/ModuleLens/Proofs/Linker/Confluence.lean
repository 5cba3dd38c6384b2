import ModuleLens.Outline.Engine
import ModuleLens.Proofs.Linker.Progress
import ModuleLens.Proofs.Linker.Service
import ModuleLens.Session

/-! Every schedule builds the same module.  However the steps of the calling thread and of the
workers are interleaved, an entry document comes out as if its imports had been followed one after
the other without store and workers, and the module source is asked for each edition at most once.
No interleaving gets stuck before the calling thread has come back. -/

namespace ModuleLens

open Node

namespace ImportEnv

/-- The build of an entry document with every module made on the spot. -/
def directBuild (env : ImportEnv) (document : Document) : Except EngineError Node :=
  match env.source document with
  | .tree tree => .ok (env.directEntry tree document)
  | _ => .error (.noTree document.uri)

end ImportEnv

variable {env : ImportEnv} {memory : Edition → Option Product}
  {origin : Option SyntaxTree → Document → Prop} {l : Linker}

namespace Caller

def result? : Caller → Option (Except EngineError Node)
  | built _ _ module => some (.ok module)
  | failed document => some (.error (.noTree document.uri))
  | _ => none

def isEntry : Caller → Bool
  | resolving .. | resolved .. | unwound => false
  | _ => true

theorem exists_result {caller : Caller} (he : caller.isEntry) (ho : caller.isOver) :
    ∃ result, caller.result? = some result := by
  cases caller with
  | built tree document module => exact ⟨_, rfl⟩
  | failed document => exact ⟨_, rfl⟩
  | resolved importing depth edge outcome => cases he
  | unwound => cases he
  | _ => cases ho

theorem Step.isEntry {due : Nat → Outcome Node → Prop} {deed : Deed} {a a' : Caller}
    {l l' : Linker} (h : Step env deed a l a' l') (hcalm : deed.isCalm)
    (hs : a.Sound env memory origin due l.tickets) (ha : a.isEntry) : a'.isEntry := by
  cases h with
  | readUnwound document => cases hcalm
  | followUnwound entry r rs => exact hs.2.2.elim
  | resolve importing depth edge h => cases ha
  | resolved importing depth edge outcome => cases ha
  | resolveUnwound importing depth edge => cases ha
  | _ => rfl

end Caller

namespace Linker

theorem Faithful.congr {l' : Linker} (h : l.Faithful env memory) (hm : l'.modules = l.modules) :
    l'.Faithful env memory :=
  ⟨fun hk => hm ▸ h.keeps hk, fun hk => h.fits (hm ▸ hk)⟩

theorem Faithful.forget (h : l.Faithful env ImportEnv.nothing) (hd : Table.Distinct l.modules)
    (uri : Uri) : (l.forget uri).Faithful env ImportEnv.nothing :=
  ⟨fun hk => (nomatch hk), fun hk => h.fits ((SharedStore.get?_prune_eq_ready hd).1 hk).1⟩

theorem faithful_ofWorkers (env : ImportEnv) (workers : Nat) :
    (ofWorkers workers).Faithful env ImportEnv.nothing :=
  ⟨(nomatch ·), (nomatch ·)⟩

theorem Quiet.sound (hq : l.Quiet) (he : l.queue = []) (hf : l.Faithful env memory)
    {caller : Caller}
    (hc : caller.Sound env memory origin (fun _ _ => True) l.tickets) :
    Crew.Sound env memory origin (fun _ _ => True) ⟨l, [], [caller]⟩ := by
  refine ⟨hf, fun job hj => ?_, fun {t r} ht => ?_, fun a ha => ?_⟩
  · simp [he] at hj
  · obtain ⟨hlt, o, ho⟩ := hq.replies ht
    exact ⟨hlt, o, ho, trivial⟩
  · rw [List.mem_singleton] at ha
    exact ha ▸ hc

theorem buildEntry_spec (hr : env.Regular) (hq : l.Quiet) (he : l.queue = [])
    (document : Document) :
    ∃ caller result l', caller.result? = some result ∧
      l.buildEntry env document = (result.map .done, l') ∧
      l'.Quiet ∧ l'.queue = [] ∧ l.Grows env l' ∧
      (∀ module, result = .ok module → Makes document 0 (l.drafts + 1) l' (.module module)) ∧
      Crew.Calmly env ⟨l, [], [.reading document]⟩ ⟨l', [], [caller]⟩ := by
  have hg : l.Grows env (l.noteCall document.uri) :=
    (Grows.refl env l).congr rfl rfl (Nat.le_refl _) (Nat.le_succ _)
  have hqn : (l.noteCall document.uri).Quiet :=
    hq.congr rfl (Nat.le_succ _) rfl rfl rfl (Nat.le_refl _)
  rcases hr.parses document with hs | ⟨tree, hs⟩
  · refine ⟨.failed document, .error (.noTree document.uri), l.noteCall document.uri, rfl, ?_, hqn,
      he, hg, fun _ h => (nomatch h), Crew.calmly_call (.readFailed l hs) rfl⟩
    rw [buildEntry, hs]
    rfl
  · obtain ⟨module, l', hb, hq', he', hg', hm, hrun⟩ := buildEntryTree_spec hr hqn he tree document
    refine ⟨.built tree document module, .ok module, l', rfl, ?_, hq', he', hg.trans hg',
      fun m hm' => ?_, (Crew.calmly_call (.read l hs) rfl).trans hrun⟩
    · rw [buildEntry, hs]
      simp only [hb]
      rfl
    · cases hm'
      exact hm

end Linker

namespace Crew

/-- The entry documents of a crew that builds one document through the module source. -/
def Reads (env : ImportEnv) (document : Document) (tree? : Option SyntaxTree) (d : Document) :
    Prop :=
  d = document ∧ env.source document = (tree?.map Reading.tree).getD .failed

theorem reading_sound (env : ImportEnv) (memory : Edition → Option Product) (document : Document)
    (bound : Nat) :
    (Caller.reading document).Sound env memory (Reads env document) (fun _ _ => True) bound :=
  ⟨fun _ hs => ⟨rfl, hs⟩, fun hs => ⟨rfl, hs⟩⟩

theorem result_plain {due : Nat → Outcome Node → Prop} {bound : Nat} {document : Document}
    {caller : Caller} {result : Except EngineError Node}
    (h : caller.Sound env ImportEnv.nothing (Reads env document) due bound)
    (hr : caller.result? = some result) :
    result.map plain = (env.directBuild document).map plain := by
  cases caller with
  | built tree d module =>
    cases hr
    obtain ⟨⟨rfl, hs⟩, hp⟩ := h
    rw [ImportEnv.directBuild, hs]
    exact congrArg Except.ok hp
  | failed d =>
    cases hr
    obtain ⟨rfl, hs⟩ := h
    rw [ImportEnv.directBuild, hs]
    rfl
  | _ => cases hr

theorem Run.entry (hr : env.Regular) {due : Nat → Outcome Node → Prop} {start c : Crew}
    {deeds : List Deed} (h : Run env start deeds c) (hcalm : ∀ deed ∈ deeds, deed.isCalm)
    (hs : start.Sound env memory origin due) {a : Caller} (ha : start.callers = [a])
    (he : a.isEntry) : ∃ b, c.callers = [b] ∧ b.isEntry := by
  induction h with
  | refl => exact ⟨a, ha, he⟩
  | @tail deeds c c' deed h s ih =>
    have hd (d : Deed) (hm : d ∈ deeds) := hcalm d (List.mem_cons_of_mem _ hm)
    obtain ⟨b, hb, hbe⟩ := ih hd
    obtain ⟨due', hsound⟩ := h.sound hr hd hs
    cases s with
    | @call _ b₁ b' l l' active pre post hstep =>
      obtain ⟨rfl, hb⟩ | ⟨_, hb⟩ := List.append_eq_singleton_iff.1 hb
      · cases hb
        have hs₁ := hsound.callers _ List.mem_cons_self
        exact ⟨b', rfl, hstep.isEntry (hcalm _ List.mem_cons_self) hs₁ hbe⟩
      · cases hb
    | take active callers hi hq => exact ⟨b, hb, hbe⟩
    | work ticket pre post callers h => exact ⟨b, hb, hbe⟩
    | reply l ticket result pre post callers => exact ⟨b, hb, hbe⟩

theorem manned_ofWorkers (env : ImportEnv) (workers : Nat) :
    Manned env workers ⟨.ofWorkers workers, [], []⟩ :=
  ⟨fun job hj => absurd hj List.not_mem_nil,
    ⟨fun e he => absurd he List.not_mem_nil, fun k hk => by cases hk⟩,
    fun t ht => absurd ht (Nat.not_lt_zero t), rfl⟩

theorem Manned.arrive {workers : Nat} {c : Crew} (h : c.Manned env workers) {a : Caller}
    (ha : ∀ e, a.errand? = some e → e.Reliable env) :
    Manned env workers { c with callers := a :: c.callers } := by
  obtain ⟨hall, hpend⟩ := h.covered
  have hmem (e : Errand (Outcome Node)) : e ∈ errands { c with callers := a :: c.callers } ↔
      a.errand? = some e ∨ e ∈ c.errands := by
    simp only [errands, filterMap_cons_toList, List.mem_append, Option.mem_toList]
    exact or_left_comm
  refine ⟨h.queue, ⟨fun e he => ?_, fun k hk => ?_⟩, h.replies, h.workers⟩
  · rcases (hmem e).1 he with he | he
    · exact ha e he
    · exact hall e he
  · obtain ⟨e, he, hk⟩ := hpend k hk
    exact ⟨e, (hmem e).2 (.inr he), hk⟩

theorem once_reading (workers : Nat) (document : Document) :
    Once [] ⟨.ofWorkers workers, [], [.reading document]⟩ := by
  refine ⟨fun job hj => (nomatch hj), fun job hj => (nomatch hj), fun a ha => ?_, ?_,
    fun k hk => ?_⟩
  · rw [List.mem_singleton] at ha
    subst ha
    trivial
  · simp [asking, Caller.asks]
  · simp only [asking, Caller.asks, List.filterMap_nil, List.filterMap_cons, List.nil_append,
      List.append_nil, List.mem_singleton] at hk
    subst hk
    exact .inl rfl

end Crew

open Crew

/-- From an empty store, every interleaving in which no wait takes too long and no build is thrown
out asks the module source for an edition at most once, can go on until the calling thread comes
back, and comes back with what comes of building on the spot.  One of the interleavings is the
build itself. -/
theorem build_schedule_independent (hr : env.Regular) {workers : Nat} (hw : 0 < workers)
    (document : Document) :
    (∀ deeds c, Run env ⟨.ofWorkers workers, [], [.reading document]⟩ deeds c →
      (∀ deed ∈ deeds, deed.isCalm) →
      (deeds.filterMap Deed.asked?).Nodup ∧
      (∀ caller ∈ c.callers, ∀ result, caller.result? = some result →
        result.map plain = (env.directBuild document).map plain) ∧
      ∃ c' caller result, Calmly env c c' ∧ c'.callers = [caller] ∧
        caller.result? = some result) ∧
    ∃ c caller result, Calmly env ⟨.ofWorkers workers, [], [.reading document]⟩ c ∧
      c.callers = [caller] ∧ caller.result? = some result ∧
      (Linker.ofWorkers workers).buildEntry env document = (result.map .done, c.linker) := by
  have hq := Linker.quiet_ofWorkers hw
  have hs := hq.sound rfl (Linker.faithful_ofWorkers env workers)
    (reading_sound env ImportEnv.nothing document 0)
  refine ⟨fun deeds c hrun hcalm => ?_, ?_⟩
  · obtain ⟨due, hsound⟩ := hrun.sound hr hcalm hs
    have honce := hrun.once hr hcalm hs (once_reading workers document)
    refine ⟨(List.nodup_append.1 honce.nodup).2.1, fun caller hm result hres => ?_, ?_⟩
    · exact result_plain (hsound.callers caller hm) hres
    · have hfirst : Manned env workers ⟨.ofWorkers workers, [], [.reading document]⟩ :=
        (manned_ofWorkers env workers).arrive fun e he => (nomatch he)
      have hm := hrun.manned hr hcalm hfirst
      obtain ⟨c', hgo, hover⟩ := completes hr hw hsound hm
      obtain ⟨deeds', hcalm', hrun'⟩ := hgo
      obtain ⟨b, hb, hbe⟩ := hrun.entry hr hcalm hs rfl rfl
      obtain ⟨caller, hc, hce⟩ := hrun'.entry hr hcalm' hsound hb hbe
      obtain ⟨result, hres⟩ := Caller.exists_result hce (hover caller (by simp [hc]))
      exact ⟨c', caller, result, ⟨deeds', hcalm', hrun'⟩, hc, hres⟩
  · obtain ⟨caller, result, l', hres, hb, _, _, _, _, hrun⟩ :=
      Linker.buildEntry_spec hr hq rfl document
    exact ⟨⟨l', [], [caller]⟩, caller, result, hrun, rfl, hres, hb⟩

theorem regular_sourceOf {catalog : Catalog} (h : catalog.Honest) (engine : Engine)
    (maxDepth : Nat) : ImportEnv.Regular ⟨catalog, SessionEnv.sourceOf engine, maxDepth⟩ := by
  refine ⟨h, fun document => ?_⟩
  simp only [SessionEnv.sourceOf]
  split
  · next tree _ => exact .inr ⟨tree, rfl⟩
  · exact .inl rfl

/-- Two modules that import a third one. -/
def diamond : ImportEnv where
  catalog := .ofFiles {} ⟨[
    ("file:///b.pkl".toList, "import \"d.pkl\"\n".toList),
    ("file:///c.pkl".toList, "import \"d.pkl\"\n".toList),
    ("file:///d.pkl".toList, "x = 1\n".toList)]⟩
  source := SessionEnv.sourceOf (Outline.engine 14)
  maxDepth := 3

def entryUri : Uri := ⟨"file:///a.pkl".toList, by decide⟩

def diamondEntry : Document :=
  ⟨entryUri, some 1, "import \"b.pkl\"\nimport \"c.pkl\"\n".toList⟩

theorem build_schedule_independent_diamond : diamond.Regular ∧ 0 < 2 ∧
    ∃ deeds c caller result, Run diamond ⟨.ofWorkers 2, [], [.reading diamondEntry]⟩ deeds c ∧
      c.callers = [caller] ∧ caller.result? = some result ∧
      (deeds.filterMap Deed.asked?).Nodup ∧
      result.map plain = (diamond.directBuild diamondEntry).map plain := by
  have hr : diamond.Regular := regular_sourceOf (Catalog.honest_ofFiles _ _) _ _
  obtain ⟨hall, c, caller, result, ⟨deeds, hcalm, hrun⟩, hc, hres, _⟩ :=
    build_schedule_independent hr (show 0 < 2 by decide) diamondEntry
  obtain ⟨hn, hp, _⟩ := hall deeds c hrun hcalm
  have hmem : caller ∈ c.callers := by simp [hc]
  exact ⟨hr, by decide, deeds, c, caller, result, hrun, hc, hres, hn, hp caller hmem result hres⟩

end ModuleLens
