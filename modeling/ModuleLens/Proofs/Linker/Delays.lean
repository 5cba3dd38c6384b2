import ModuleLens.Proofs.Linker.Turns
import ModuleLens.Proofs.Node.Delays

/-! What delays leave behind.  Threads may be thrown out anywhere and waits may take too long.  A
build that is thrown out leaves nothing behind, but an import that is given up becomes part of the
importing module, which is kept as if nothing had happened.  A module that is kept is right exactly
if no import was given up in it or behind its imports. -/

namespace ModuleLens

open Node

variable {env : ImportEnv} {late : Prop}

namespace Product

def Late : Product → Prop
  | module node => node.Late
  | failed => False

def Fair (late : Prop) (p q : Product) : Prop := p.plain = q.plain ∨ late ∧ p.Late

theorem Fair.outcome {p q : Product} (h : p.Fair late q) : p.outcome.Fair late q.outcome := by
  rcases h with h | ⟨hl, hp⟩
  · left
    rw [plainOutcome_outcome, plainOutcome_outcome, h]
  · right
    cases p with
    | module node => exact ⟨hl, hp⟩
    | failed => exact hp.elim

theorem late_of_plain {p q : Product} (h : p.plain = q.plain) (hp : p.Late) : q.Late := by
  cases p with
  | failed => exact hp.elim
  | module m =>
    cases q with
    | failed => cases h
    | module n => exact Node.late_of_plain (Product.module.inj h) hp

end Product

namespace ImportEnv

/-- A product is the one that an edition stands for, or a delay has left its mark in it. -/
def FairAt (env : ImportEnv) (late : Prop) (k : Edition) (p : Product) : Prop :=
  ∃ document, env.catalog.read k.uri = .ok document ∧ document.text = k.text ∧
    p.Fair late (env.directProduct document k.depth)

theorem not_late_direct (env : ImportEnv) (importing : Document) (depth : Nat)
    (edge : ImportEdge) : ¬ (env.direct importing depth edge).Late := by
  obtain ⟨levels, hl⟩ : ∃ levels, levels = env.maxDepth - depth := ⟨_, rfl⟩
  induction levels generalizing importing depth edge with
  | zero =>
    rw [direct, followWith_of_le (by omega)]
    exact id
  | succ levels ih =>
    rw [direct, followWith_of_lt (by omega)]
    cases env.catalog.lookup importing.uri edge.path with
    | error e => exact id
    | ok document =>
      have hnext (edge : ImportEdge) := ih document (depth + 1) edge (by omega)
      change ¬ (Product.outcome (productBy ..)).Late
      rw [productBy]
      split
      · exact not_late_linkModule _ document (depth + 1) hnext 0
      · exact id

theorem not_late_directProduct (env : ImportEnv) (document : Document) (depth : Nat) :
    ¬ (env.directProduct document depth).Late := by
  rw [directProduct, productWith_of_none rfl, productBy]
  split
  · exact not_late_linkModule _ document depth (env.not_late_direct document depth) 0
  · exact id

end ImportEnv

namespace Errand

variable {α β : Type}

/-- An errand that comes to a result with `Q`, if to any, and fills slots with right or late
products, whatever such products it finds, wherever builds are thrown out, and also if waits take
too long in case that `late` holds. -/
def Fair (env : ImportEnv) (late : Prop) (Q : α → Prop) : Errand α → Prop
  | finished (some a) => Q a
  | finished none => True
  | hung => True
  | load importing path next => Fair env late Q (next (env.catalog.lookup importing path))
  | call document _ next => ∀ build,
      Fair env late Q (next (env.source document) build) ∧ Fair env late Q (next .unwinds build)
  | claim k next =>
    (∀ product, env.FairAt late k product → Fair env late Q (next (.found product))) ∧
      Fair env late Q (next .granted) ∧ (late → Fair env late Q (next .expired))
  | publish k product next => env.FairAt late k product ∧ Fair env late Q next
  | abandon _ next => Fair env late Q next

theorem Fair.bind {P : α → Prop} {Q : β → Prop} {k : Option α → Errand β} {e : Errand α}
    (h : Fair env late P e) (hnone : Fair env late Q (k none))
    (hsome : ∀ a, P a → Fair env late Q (k (some a))) : Fair env late Q (e.bind k) := by
  induction e with
  | finished result =>
    cases result with
    | none => exact hnone
    | some a => exact hsome a h
  | hung => trivial
  | load importing path next ih => exact ih _ h
  | call document depth next ih =>
    exact fun build => ⟨ih _ _ (h build).1, ih _ _ (h build).2⟩
  | claim k next ih =>
    exact ⟨fun product hp => ih _ (h.1 product hp), ih _ h.2.1, fun hl => ih _ (h.2.2 hl)⟩
  | publish k product next ih => exact ⟨h.1, ih h.2⟩
  | abandon k next ih => exact ih h

theorem fair_answerAll {f : ImportEdge → Outcome Node}
    {answer : ImportEdge → Errand (Outcome Node)}
    (h : ∀ edge, Fair env late (fun o => o.Fair late (f edge)) (answer edge)) {all : List Request}
    (rs : List Request) (hsub : ∀ r ∈ rs, r ∈ all) {a b : Answers}
    (hab : Answers.Fair late all a b) :
    Fair env late (fun c => Answers.Fair late all c (answersFrom f b rs))
      (answerAll answer a rs) := by
  induction rs generalizing a b with
  | nil => exact hab
  | cons r rs ih =>
    refine (h r.edge).bind trivial fun o ho => ?_
    exact ih (fun s hs => hsub s (List.mem_cons_of_mem r hs))
      (hab.insert (hsub r List.mem_cons_self) ho)

theorem fair_make (hr : env.Regular) {f : ImportEdge → Outcome Node}
    {answer : ImportEdge → Errand (Outcome Node)}
    (h : ∀ edge, Fair env late (fun o => o.Fair late (f edge)) (answer edge))
    (document : Document) (depth build : Nat) :
    Fair env late (fun p => p.Fair late (env.productBy f document depth))
      (make answer document depth (env.source document) build) := by
  rcases hr.parses document with hs | ⟨tree, hs⟩
  · simp only [hs, make, ImportEnv.productBy, Fair]
    exact .inl rfl
  · simp only [hs, make, ImportEnv.productBy]
    refine (fair_answerAll h _ (fun _ hm => hm) (b := {}) fun i => .inl rfl).bind trivial
      fun a ha => ?_
    rcases fair_link_draftModule tree document depth build 0 ha with hp | hl
    · rw [requests_draftModule build 0] at hp
      exact .inl (congrArg Product.module hp)
    · exact .inr hl

theorem fair_followAt (hr : env.Regular) (levels : Nat) (importing : Document) (depth : Nat)
    (edge : ImportEdge) (hl : levels = env.maxDepth - depth) :
    Fair env late (fun o => o.Fair late (env.direct importing depth edge))
      (followAt env.maxDepth levels importing depth edge) := by
  induction levels generalizing importing depth edge with
  | zero =>
    rw [ImportEnv.direct, ImportEnv.followWith_of_le (by omega)]
    exact .inl rfl
  | succ levels ih =>
    rw [ImportEnv.direct, ImportEnv.followWith_of_lt (by omega)]
    simp only [followAt, Fair]
    cases hd : env.catalog.lookup importing.uri edge.path with
    | error e => exact .inl rfl
    | ok document =>
      have hread := hr.read hd
      -- the product is found, or it is made, or the wait for it is given up
      refine ⟨fun product hp => ?_, fun build => ⟨?_, trivial⟩, fun hlate => .inr ⟨hlate, trivial⟩⟩
      · obtain ⟨other, hother, _, hp⟩ := hp
        rw [show env.catalog.read document.uri = .ok other from hother] at hread
        cases hread
        exact hp.outcome
      · have hmake := fair_make hr
          (fun edge => ih document (depth + 1) edge (by omega)) document (depth + 1) build
        refine hmake.bind trivial fun product hp => ?_
        exact ⟨⟨document, hread, rfl, hp⟩, hp.outcome⟩

def IsFair (env : ImportEnv) (late : Prop) (e : Errand α) : Prop := ∃ Q, e.Fair env late Q

theorem fair_follow (hr : env.Regular) (late : Prop) (importing : Document) (depth : Nat)
    (edge : ImportEdge) : (follow env.maxDepth importing depth edge).IsFair env late :=
  ⟨_, fair_followAt hr _ importing depth edge rfl⟩

theorem fair_dismissed (env : ImportEnv) (late : Prop) (e : Errand α) :
    e.dismissed.IsFair env late := by
  refine ⟨fun _ => True, ?_⟩
  rw [dismissed]
  induction e.held with
  | nil => trivial
  | cons k held ih => exact ih

end Errand

def Linker.Fair (env : ImportEnv) (late : Prop) (l : Linker) : Prop :=
  ∀ {k product}, l.modules.get? k = some (.ready product) → env.FairAt late k product

theorem Errand.Step.fair {α : Type} {deed : Deed} {e e' : Errand α} {l l' : Linker}
    (h : Step env deed e l e' l') (hd : deed = .expired → late) (he : e.IsFair env late)
    (hl : l.Fair env late) : e'.IsFair env late ∧ l'.Fair env late := by
  obtain ⟨Q, he⟩ := he
  cases h with
  | load importing path next => exact ⟨⟨Q, he⟩, hl⟩
  | call document depth next => exact ⟨⟨Q, (he _).1⟩, hl⟩
  | unwind document depth next => exact ⟨⟨Q, (he _).2⟩, hl⟩
  | found next h => exact ⟨⟨Q, he.1 _ (hl h)⟩, hl⟩
  | @granted k _ next h =>
    refine ⟨⟨Q, he.2.1⟩, fun {j product} hj => hl ?_⟩
    by_cases hjk : j = k
    · simp [Table.get?_insert, hjk] at hj
    · simpa [Table.get?_insert, hjk] using hj
  | expire next h => exact ⟨⟨Q, he.2.2 (hd rfl)⟩, hl⟩
  | publish k product next =>
    refine ⟨⟨Q, he.2⟩, fun {j other} hj => ?_⟩
    by_cases hjk : j = k
    · subst hjk
      have hp : product = other := by simpa [SharedStore.get?_publish] using hj
      exact hp ▸ he.1
    · exact hl (by simpa [SharedStore.get?_publish, hjk] using hj)
  | abandon k next =>
    refine ⟨⟨Q, he⟩, fun {j product} hj => hl ?_⟩
    by_cases hjk : j = k
    · simp [SharedStore.get?_abandon, hjk] at hj
    · simpa [SharedStore.get?_abandon, hjk] using hj

def Caller.Fair (env : ImportEnv) (late : Prop) (a : Caller) : Prop :=
  ∀ e, a.errand? = some e → e.IsFair env late

theorem Caller.fair_dismissed (env : ImportEnv) (late : Prop) (a : Caller) :
    a.dismissed.Fair env late := by
  intro e he
  cases a with
  | following entry r rs errand =>
    cases he
    exact Errand.fair_dismissed env late errand
  | resolving importing depth edge errand =>
    cases he
    exact Errand.fair_dismissed env late errand
  | _ => cases he

theorem Caller.Step.fair (hr : env.Regular) {deed : Deed} {a a' : Caller} {l l' : Linker}
    (h : Step env deed a l a' l') (hd : deed = .expired → late) (ha : a.Fair env late)
    (hl : l.Fair env late) : a'.Fair env late ∧ l'.Fair env late := by
  have hone {e : Errand (Outcome Node)} (he : e.IsFair env late) :
      ∀ d, some e = some d → d.IsFair env late := by
    intro d hd
    cases hd
    exact he
  cases h with
  | @inline entry r rs _ ht =>
    exact ⟨hone (Errand.fair_follow hr late entry.document 0 r.edge), hl⟩
  | follow entry r rs h =>
    obtain ⟨he, hl⟩ := h.fair hd (ha _ rfl) hl
    exact ⟨hone he, hl⟩
  | resolve importing depth edge h =>
    obtain ⟨he, hl⟩ := h.fair hd (ha _ rfl) hl
    exact ⟨hone he, hl⟩
  | _ => exact ⟨fun _ he => (nomatch he), hl⟩

namespace Crew

/-- Every slot is right or late, and whoever fills slots fills them so. -/
structure Fair (env : ImportEnv) (late : Prop) (c : Crew) : Prop where
  slots : c.linker.Fair env late
  queue : ∀ job ∈ c.linker.queue, job.errand.IsFair env late
  active : ∀ job ∈ c.active, job.errand.IsFair env late
  callers : ∀ a ∈ c.callers, a.Fair env late

theorem fair_begin (hr : env.Regular) (late : Prop) (workers : Nat) {callers : List Caller}
    (hb : ∀ a ∈ callers, a.Begins env) : Fair env late ⟨.ofWorkers workers, [], callers⟩ := by
  refine ⟨fun hk => (nomatch hk), fun job hj => absurd hj List.not_mem_nil,
    fun job hj => absurd hj List.not_mem_nil, fun a ha e he => ?_⟩
  have hbegin := hb a ha
  cases a with
  | resolving importing depth edge errand =>
    cases he
    cases hbegin
    exact Errand.fair_follow hr late importing depth edge
  | following entry r rs errand => exact hbegin.elim
  | _ => cases he

theorem Step.fair (hr : env.Regular) {deed : Deed} {c c' : Crew} (h : Step env deed c c')
    (hd : deed = .expired → late) (hc : c.Fair env late) : c'.Fair env late := by
  have hqueue (job : Job) (hm : job ∈ c'.linker.queue) : job.errand.IsFair env late := by
    rcases h.queued job hm with hm | ⟨document, edge, he⟩
    · exact hc.queue job hm
    · exact he ▸ Errand.fair_follow hr late document 0 edge
  cases h with
  | @call _ a a' l l' active pre post h =>
    obtain ⟨ha, hl⟩ := h.fair hr hd (hc.callers a (by simp)) hc.slots
    exact ⟨hl, hqueue, hc.active, forall_mem_replace hc.callers ha⟩
  | @take l job rest active callers hi hq =>
    refine ⟨hc.slots, hqueue, fun j hm => ?_, hc.callers⟩
    rcases List.mem_cons.1 hm with rfl | hm
    · exact hc.queue j (by simp [hq])
    · exact hc.active j hm
  | @work _ e e' l l' ticket pre post callers h =>
    obtain ⟨he, hl⟩ := h.fair hd (hc.active ⟨ticket, e⟩ (by simp)) hc.slots
    exact ⟨hl, hqueue, forall_mem_replace hc.active he, hc.callers⟩
  | reply l ticket result pre post callers =>
    exact ⟨hc.slots, hqueue, fun j hm => hc.active j (by grind), hc.callers⟩

theorem Throw.fair {c c' : Crew} (h : Throw c c') (hc : c.Fair env late) : c'.Fair env late := by
  cases h with
  | caller l active pre post a =>
    exact ⟨hc.slots, hc.queue, hc.active,
      forall_mem_replace hc.callers (Caller.fair_dismissed env late a)⟩
  | worker l ticket e pre post callers =>
    exact ⟨hc.slots, hc.queue,
      forall_mem_replace hc.active (Errand.fair_dismissed env late e), hc.callers⟩

/-- What a course of a crew preserves, if only waits that count as late are given up. -/
theorem Course.fair (hr : env.Regular) {start c : Crew} {deeds : List Deed}
    (h : Course env start deeds c) (hd : .expired ∈ deeds → late) (hc : start.Fair env late) :
    c.Fair env late := by
  induction h with
  | refl => exact hc
  | step _ s ih =>
    refine s.fair hr (fun he => hd (he ▸ List.mem_cons_self)) (ih fun hm => ?_)
    exact hd (List.mem_cons_of_mem _ hm)
  | throw _ s ih => exact s.fair (ih fun hm => hd (List.mem_cons_of_mem _ hm))

end Crew

open Crew

/-- However waits take too long and builds are thrown out: a product that is kept is the one that is
made on the spot exactly if no import was given up in it or behind its imports, and that needs a
wait that was given up. -/
theorem kept_right_iff_not_late (hr : env.Regular) {workers : Nat} {callers : List Caller}
    (hb : ∀ a ∈ callers, a.Begins env) {deeds : List Deed} {c : Crew}
    (h : Course env ⟨.ofWorkers workers, [], callers⟩ deeds c) {k : Edition} {product : Product}
    (hk : c.linker.modules.get? k = some (.ready product)) :
    ∃ document, env.catalog.read k.uri = .ok document ∧ document.text = k.text ∧
      (product.plain = (env.directProduct document k.depth).plain ↔ ¬ product.Late) ∧
      (product.Late → .expired ∈ deeds) := by
  obtain ⟨document, hread, htext, hfair⟩ := (h.fair hr id (fair_begin hr _ workers hb)).slots hk
  have hnot := env.not_late_directProduct document k.depth
  refine ⟨document, hread, htext, ⟨fun hp hl => hnot (Product.late_of_plain hp hl), fun hl => ?_⟩,
    fun hl => ?_⟩
  · exact hfair.resolve_right fun hh => hl hh.2
  · rcases hfair with hp | ⟨hexpired, _⟩
    · exact absurd (Product.late_of_plain hp hl) hnot
    · exact hexpired

def Crew.isAtRest (c : Crew) : Bool :=
  c.active.isEmpty && c.linker.queue.isEmpty && c.callers.all Caller.isOver

def Node.isGivenUp (n : Node) : Bool :=
  match n.outcome with
  | some .timedOut => true
  | _ => false

def Product.isMarked : Product → Bool
  | module node => node.descendants.any Node.isGivenUp
  | failed => false

theorem Product.late_of_isMarked {p : Product} (h : p.isMarked) : p.Late := by
  cases p with
  | failed => cases h
  | module node =>
    obtain ⟨d, hd, ho⟩ := List.any_eq_true.1 h
    refine ⟨node, .refl, d, hd, ?_⟩
    rw [isGivenUp] at ho
    split at ho
    · assumption
    · cases ho

/-- The first caller does not wait any longer for the shared module; then both come to an end. -/
def parting : List (Nat × Bool) :=
  meeting ++ (0, true) :: List.replicate 3 (0, false) ++ List.replicate 4 (1, false)

def parted : Crew := play diamond ⟨.ofWorkers 2, [], diamondCallers⟩ parting

theorem isAbsolute_importer : Uri.isAbsolute "file:///b.pkl".toList = true := by decide

def importerEdition : Edition :=
  ⟨1, ⟨"file:///b.pkl".toList, isAbsolute_importer⟩, "import \"d.pkl\"\n".toList⟩

theorem course_parted : ∃ deeds, Course diamond ⟨.ofWorkers 2, [], diamondCallers⟩ deeds parted :=
  course_play diamond _ parting

theorem parted_late : ∃ product,
    parted.linker.modules.get? importerEdition = some (.ready product) ∧ product.Late := by
  have h : (parted.linker.modules.value? importerEdition).any Product.isMarked := by decide +kernel
  obtain ⟨product, hk, hmarked⟩ := (Option.any_eq_true _ _).1 h
  exact ⟨product, SharedStore.value?_eq_some.1 hk, Product.late_of_isMarked hmarked⟩

/-- The import that the first caller gave up stays in the module that is kept, when both callers
have come back. -/
theorem parted_keeps_late : diamond.Regular ∧ (∀ a ∈ diamondCallers, a.Begins diamond) ∧
    ∃ deeds c k product document, Course diamond ⟨.ofWorkers 2, [], diamondCallers⟩ deeds c ∧
      c.isAtRest ∧ c.linker.modules.get? k = some (.ready product) ∧
      diamond.catalog.read k.uri = .ok document ∧ document.text = k.text ∧
      product.plain ≠ (diamond.directProduct document k.depth).plain := by
  have hrest : parted.isAtRest := by decide +kernel
  have hread : diamond.catalog.read importerEdition.uri =
      .ok ⟨importerEdition.uri, none, importerEdition.text⟩ := by rfl
  obtain ⟨deeds, hrun⟩ := course_parted
  obtain ⟨product, hk, hlate⟩ := parted_late
  refine ⟨regular_sourceOf (Catalog.honest_ofFiles _ _) _ _, diamondCallers_begin, deeds, parted,
    importerEdition, product, _, hrun, hrest, hk, hread, rfl, fun hp => ?_⟩
  exact diamond.not_late_directProduct _ _ (Product.late_of_plain hp hlate)

theorem kept_right_iff_not_late_parted : diamond.Regular ∧
    (∀ a ∈ diamondCallers, a.Begins diamond) ∧
    ∃ deeds c product, Course diamond ⟨.ofWorkers 2, [], diamondCallers⟩ deeds c ∧
      c.linker.modules.get? importerEdition = some (.ready product) ∧ product.Late ∧
      .expired ∈ deeds := by
  have hr : diamond.Regular := regular_sourceOf (Catalog.honest_ofFiles _ _) _ _
  obtain ⟨deeds, hrun⟩ := course_parted
  obtain ⟨product, hk, hlate⟩ := parted_late
  obtain ⟨_, _, _, _, hexpired⟩ := kept_right_iff_not_late hr diamondCallers_begin hrun hk
  exact ⟨hr, diamondCallers_begin, deeds, parted, product, hrun, hk, hlate, hexpired hlate⟩

end ModuleLens
