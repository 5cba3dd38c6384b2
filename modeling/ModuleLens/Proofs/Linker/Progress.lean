import ModuleLens.Proofs.Linker.Slots

/-! No interleaving gets stuck.  Of the threads that wait for a slot, the one at the deepest waits
for a thread that does not wait.  Every step but the beginning of a wait leaves less to do, so the
threads can always go on until every caller has come back. -/

namespace ModuleLens

open Node

variable {env : ImportEnv}

namespace Errand

variable {α : Type}

theorem Step.below {deed : Deed} {e e' : Errand α} {l l' : Linker} (h : Step env deed e l e' l') :
    Below e' e := by
  cases h <;> constructor

def Free (env : ImportEnv) (l : Linker) (e : Errand α) : Prop :=
  (∃ a, e = finished (some a)) ∨
    ∃ deed e' l', Step env deed e l e' l' ∧ deed.isCalm ∧ Below e' e

/-- An errand that is over or can go on with a deed of some kind. -/
def Able (env : ImportEnv) (kind : Deed → Prop) (l : Linker) (e : Errand α) : Prop :=
  (∃ result, e = finished result) ∨ ∃ deed e' l', Step env deed e l e' l' ∧ kind deed

theorem Free.able {e : Errand α} {l : Linker} (h : e.Free env l) :
    e.Able env (fun deed => deed.isCalm) l := by
  rcases h with ⟨a, rfl⟩ | ⟨deed, e', l', h, hc, _⟩
  · exact .inl ⟨some a, rfl⟩
  · exact .inr ⟨deed, e', l', h, hc⟩

theorem Reliable.free_or_waits {e : Errand α} (h : e.Reliable env) (l : Linker) :
    e.Free env l ∨ ∃ k next, e = claim k next ∧ l.modules.get? k = some .pending := by
  obtain ⟨floor, held, h⟩ := h
  cases e with
  | finished result =>
    cases result with
    | none => exact absurd rfl h.1
    | some a => exact .inl (.inl ⟨a, rfl⟩)
  | hung => exact h.elim
  | load importing path next =>
    exact .inl (.inr ⟨_, _, _, .load importing path next l, rfl, .load importing path next _⟩)
  | call document depth next =>
    exact .inl (.inr ⟨_, _, _, .call document depth next l, rfl, .call document depth next _ _⟩)
  | claim edition next =>
    cases hk : l.modules.get? edition with
    | none => exact .inl (.inr ⟨_, _, _, .granted next hk, rfl, .claim edition next _⟩)
    | some slot =>
      cases slot with
      | pending => exact .inr ⟨edition, next, rfl, hk⟩
      | ready product => exact .inl (.inr ⟨_, _, _, .found next hk, rfl, .claim edition next _⟩)
  | publish edition product next =>
    exact .inl (.inr ⟨_, _, _, .publish edition product next l, rfl, .publish edition product next⟩)
  | abandon edition next => exact h.elim

end Errand

namespace Lower

theorem middle {α : Type} {r : α → α → Prop} {a b : α} (h : r a b) (pre post : List α) :
    Lower r (pre ++ a :: post) (pre ++ b :: post) := by
  induction pre with
  | nil => exact .head post h
  | cons c pre ih => exact .tail c ih

theorem leaveOut {α : Type} {r : α → α → Prop} (a : α) (pre post : List α) :
    Lower r (pre ++ post) (pre ++ a :: post) := by
  induction pre with
  | nil => exact .drop a post
  | cons c pre ih => exact .tail c ih

end Lower

namespace Caller

/-- How far a calling thread is: the stage, what is left of it, and the errand it is at. -/
def rank : Caller → Nat × Nat × Errand (Outcome Node)
  | reading _ => (3, 0, .hung)
  | announcing _ edges _ => (2, edges.length, .hung)
  | collecting _ requests => (1, 2 * requests.length + 1, .hung)
  | following _ _ requests errand => (1, 2 * requests.length + 2, errand)
  | resolving _ _ _ errand => (1, 0, errand)
  | _ => (0, 0, .hung)

def Further : Caller → Caller → Prop :=
  InvImage (Prod.Lex (· < ·) (Prod.Lex (· < ·) Errand.Below)) rank

theorem further_wellFounded : WellFounded Further :=
  InvImage.wf _ (Prod.lex Nat.lt_wfRel (Prod.lex Nat.lt_wfRel ⟨_, ⟨Errand.acc_below⟩⟩)).wf

def isOver : Caller → Bool
  | built .. | failed _ | resolved .. | unwound => true
  | _ => false

theorem exists_step {a : Caller}
    (hr : ∀ document, a = .reading document →
      env.source document = .failed ∨ ∃ tree, env.source document = .tree tree)
    (he : a.errand? = none) (ho : a.isOver = false) (l : Linker) :
    (∃ deed a' l', Step env deed a l a' l' ∧ deed.isCalm ∧ Further a' a) ∨
      ∃ entry r rs ticket rest, a = .collecting entry (r :: rs) ∧
        Linker.takeTicket entry.tickets r.edge = some (ticket, rest) ∧
        l.replies[ticket]? = none := by
  cases a with
  | reading document =>
    left
    rcases hr document rfl with hs | ⟨tree, hs⟩
    · exact ⟨_, _, _, .readFailed l hs, rfl, .left _ _ (by decide)⟩
    · exact ⟨_, _, _, .read l hs, rfl, .left _ _ (by decide)⟩
  | announcing entry edges numbered =>
    left
    cases edges with
    | nil => exact ⟨_, _, _, .collect entry numbered l, rfl, .left _ _ (by decide)⟩
    | cons edge edges =>
      exact ⟨_, _, _, .announce entry edge edges numbered l, rfl,
        .right _ (.left _ _ (Nat.lt_succ_self _))⟩
  | collecting entry requests =>
    cases requests with
    | nil => exact .inl ⟨_, _, _, .link entry l, rfl, .left _ _ (by decide)⟩
    | cons r rs =>
      have hless {n : Nat} (hn : n ≤ 2 * rs.length + 2) : n < 2 * (r :: rs).length + 1 := by
        rw [List.length_cons]
        omega
      cases ht : Linker.takeTicket entry.tickets r.edge with
      | none =>
        exact .inl ⟨_, _, _, .inline rs l ht, rfl, .right _ (.left _ _ (hless (Nat.le_refl _)))⟩
      | some taken =>
        obtain ⟨ticket, rest⟩ := taken
        cases hrep : l.replies[ticket]? with
        | none => exact .inr ⟨entry, r, rs, ticket, rest, rfl, ht, hrep⟩
        | some reply =>
          have hlt := hless (Nat.le_succ (2 * rs.length + 1))
          cases reply with
          | none => exact .inl ⟨_, _, _, .lost rs ht hrep, rfl, .right _ (.left _ _ hlt)⟩
          | some outcome => exact .inl ⟨_, _, _, .reply rs ht hrep, rfl, .right _ (.left _ _ hlt)⟩
  | following entry r rs errand => cases he
  | resolving importing depth edge errand => cases he
  | _ => cases ho

theorem step_of_able {kind : Deed → Prop} {a : Caller} {e : Errand (Outcome Node)} {l : Linker}
    (he : a.errand? = some e) (h : e.Able env kind l) (hk : kind .quiet) :
    ∃ deed a' l', Step env deed a l a' l' ∧ kind deed ∧ Further a' a := by
  cases a with
  | following entry r rs e =>
    cases he
    rcases h with ⟨result, rfl⟩ | ⟨deed, e', l', h, hc⟩
    · cases result with
      | none => exact ⟨_, _, _, .followUnwound entry r rs l, hk, .left _ _ (by decide)⟩
      | some o =>
        exact ⟨_, _, _, .followed entry r rs o l, hk, .right _ (.left _ _ (Nat.lt_succ_self _))⟩
    · exact ⟨deed, _, l', .follow entry r rs h, hc, .right _ (.right _ h.below)⟩
  | resolving importing depth edge e =>
    cases he
    rcases h with ⟨result, rfl⟩ | ⟨deed, e', l', h, hc⟩
    · cases result with
      | none => exact ⟨_, _, _, .resolveUnwound importing depth edge l, hk, .left _ _ (by decide)⟩
      | some o => exact ⟨_, _, _, .resolved importing depth edge o l, hk, .left _ _ (by decide)⟩
    · exact ⟨deed, _, l', .resolve importing depth edge h, hc, .right _ (.right _ h.below)⟩
  | _ => cases he

end Caller

def Errand.reach {α : Type} : Errand α → Nat
  | claim k _ => k.depth
  | _ => 0

/-- Not all of some errands that cover the pending slots wait for one: the one that waits for the
deepest waits for another that holds it and is about to claim none. -/
theorem Covered.exists_free {l : Linker} {es : List (Errand (Outcome Node))}
    (h : Covered env l es) (hne : es ≠ []) : ∃ e ∈ es, e.Free env l := by
  refine Classical.byContradiction fun hno => ?_
  have hwait (e : Errand (Outcome Node)) (he : e ∈ es) :
      ∃ k next, e = .claim k next ∧ l.modules.get? k = some .pending := by
    rcases (h.1 e he).free_or_waits l with hfree | hwait
    · exact absurd ⟨e, he, hfree⟩ hno
    · exact hwait
  obtain ⟨d, hd⟩ : ∃ d, (es.map Errand.reach).max? = some d := by
    refine Option.ne_none_iff_exists'.1 fun hnone => hne ?_
    simpa using hnone
  obtain ⟨hmem, hmax⟩ := List.max?_eq_some_iff.1 hd
  obtain ⟨e, he, rfl⟩ := List.mem_map.1 hmem
  obtain ⟨k, next, rfl, hk⟩ := hwait e he
  obtain ⟨e', he', floor, held, hf, hkh⟩ := h.2 k hk
  obtain ⟨k', next', rfl, _⟩ := hwait e' he'
  have hlt := hf.2.1 k hkh
  have hle : k'.depth ≤ k.depth := hmax _ (List.mem_map_of_mem he')
  omega

namespace Crew

def Less : Crew → Crew → Prop :=
  InvImage (Prod.Lex (Lower Caller.Further) (Prod.Lex (· < ·) (Lower Errand.Below)))
    fun c => (c.callers, c.linker.queue.length, c.active.map Job.errand)

theorem less_wellFounded : WellFounded Less :=
  InvImage.wf _ (Prod.lex ⟨_, Lower.wellFounded Caller.further_wellFounded⟩
    (Prod.lex Nat.lt_wfRel ⟨_, Lower.wellFounded ⟨Errand.acc_below⟩⟩)).wf

theorem less_call {a a' : Caller} (h : Caller.Further a' a) (l l' : Linker) (active : List Job)
    (pre post : List Caller) :
    Less ⟨l', active, pre ++ a' :: post⟩ ⟨l, active, pre ++ a :: post⟩ :=
  .left _ _ (.middle h pre post)

theorem less_work {l l' : Linker} {active active' : List Job}
    (h : Lower Errand.Below (active'.map Job.errand) (active.map Job.errand))
    (hq : l'.queue = l.queue) (callers : List Caller) :
    Less ⟨l', active', callers⟩ ⟨l, active, callers⟩ := by
  change Prod.Lex _ _ (callers, l'.queue.length, _) (callers, l.queue.length, _)
  rw [hq]
  exact .right _ (.right _ h)

theorem less_take {l : Linker} {job : Job} {rest : List Job} (hq : l.queue = job :: rest)
    (active : List Job) (callers : List Caller) :
    Less ⟨{ l with idle := l.idle - 1, queue := rest }, job :: active, callers⟩
      ⟨l, active, callers⟩ := by
  refine .right _ (.left _ _ ?_)
  change rest.length < l.queue.length
  rw [hq]
  exact Nat.lt_succ_self _

theorem step_of_able {kind : Deed → Prop} {c : Crew} {e : Errand (Outcome Node)}
    (he : e ∈ c.errands) (hable : e.Able env kind c.linker) (hk : kind .quiet) :
    ∃ deed c', Step env deed c c' ∧ kind deed ∧ Less c' c := by
  obtain ⟨l, active, callers⟩ := c
  rcases List.mem_append.1 he with he | he
  · obtain ⟨⟨ticket, e⟩, hj, rfl⟩ := List.mem_map.1 he
    obtain ⟨pre, post, rfl⟩ := List.append_of_mem hj
    rcases hable with ⟨result, hresult⟩ | ⟨deed, e', l', h, hc⟩
    · cases hresult
      refine ⟨_, _, .reply l ticket result pre post callers, hk, less_work ?_ rfl callers⟩
      simp only [List.map_append, List.map_cons]
      exact .leaveOut _ _ _
    · refine ⟨deed, _, .work ticket pre post callers h, hc, less_work ?_ h.frame.1 callers⟩
      simp only [List.map_append, List.map_cons]
      exact .middle h.below _ _
  · obtain ⟨a, ha, hea⟩ := List.mem_filterMap.1 he
    obtain ⟨pre, post, rfl⟩ := List.append_of_mem ha
    obtain ⟨deed, a', l', h, hc, hf⟩ := Caller.step_of_able hea hable hk
    exact ⟨deed, _, .call active pre post h, hc, less_call hf l l' active pre post⟩

variable {memory : Edition → Option Product} {origin : Option SyntaxTree → Document → Prop}
  {due : Nat → Outcome Node → Prop} {workers : Nat} {c : Crew}

theorem exists_step (hr : env.Regular) (hw : 0 < workers) (hs : c.Sound env memory origin due)
    (hm : c.Manned env workers) {a : Caller} (ha : a ∈ c.callers) (ho : a.isOver = false) :
    ∃ deed c', Step env deed c c' ∧ deed.isCalm ∧ Less c' c := by
  by_cases hne : c.errands = []
  · -- no one is at an errand: the caller goes on, or a worker starts the job that it waits for
    obtain ⟨hactive, hcallers⟩ := List.append_eq_nil_iff.1 hne
    have hactive : c.active = [] := List.map_eq_nil_iff.1 hactive
    have he : a.errand? = none := by
      cases hq : a.errand? with
      | none => rfl
      | some e =>
        have hmem := List.mem_filterMap.2 ⟨a, ha, hq⟩
        rw [hcallers] at hmem
        cases hmem
    obtain ⟨l, active, callers⟩ := c
    cases hactive
    rcases Caller.exists_step (fun document _ => hr.parses document) he ho l with
      ⟨deed, a', l', h, hc, hf⟩ |
      ⟨entry, r, rs, ticket, rest, rfl, ht, hrep⟩
    · obtain ⟨pre, post, rfl⟩ := List.append_of_mem ha
      exact ⟨deed, _, .call [] pre post h, hc, less_call hf l l' [] pre post⟩
    · have hlt := ((hs.callers _ ha).2.1 r.edge ticket (Linker.takeTicket_eq_some ht).1).1
      rcases hm.replies ticket hlt with hcontains | ⟨job, hj, _⟩
      · have hsome := Std.TreeMap.isSome_getElem?_eq_contains.trans hcontains
        rw [hrep] at hsome
        cases hsome
      · rw [List.append_nil] at hj
        obtain ⟨first, others, hq⟩ := List.exists_cons_of_ne_nil (List.ne_nil_of_mem hj)
        have hidle : 0 < l.idle := by
          have hcount : l.idle + 0 = workers := hm.workers
          omega
        exact ⟨_, _, .take [] callers hidle hq, rfl, less_take hq [] callers⟩
  · obtain ⟨e, he, hfree⟩ := hm.covered.exists_free hne
    exact step_of_able he hfree.able rfl

/-- A crew can go on until every caller has come back. -/
theorem completes (hr : env.Regular) (hw : 0 < workers) (hs : c.Sound env memory origin due)
    (hm : c.Manned env workers) : ∃ c', Calmly env c c' ∧ ∀ a ∈ c'.callers, a.isOver := by
  induction c using less_wellFounded.induction generalizing due with
  | h c ih =>
    by_cases hover : ∀ a ∈ c.callers, a.isOver
    · exact ⟨c, .refl c, hover⟩
    · simp only [Classical.not_forall, Bool.not_eq_true] at hover
      obtain ⟨a, ha, ho⟩ := hover
      obtain ⟨deed, c₁, hstep, hcalm, hless⟩ := exists_step hr hw hs hm ha ho
      obtain ⟨due', hs₁⟩ := hstep.sound hr hcalm hs
      obtain ⟨c', hrun, hend⟩ := ih c₁ hless hs₁ (hstep.manned hr hcalm hm)
      exact ⟨c', (hstep.calmly hcalm).trans hrun, hend⟩

end Crew

end ModuleLens
