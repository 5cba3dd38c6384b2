import ModuleLens.Proofs.Linker.Once

/-! Who fills the pending slots.  Every pending slot is held by a thread that will fill it, and a
thread claims only slots that are deeper than those it holds.  Every job that was handed in is
waiting, or a worker is at it, or its reply has come. -/

namespace ModuleLens

open Node

namespace Errand

variable {α β : Type} {env : ImportEnv}

/-- The slots that are held are filled, the latest first, before the errand is over; until then only
slots are claimed that are deeper than `floor` and than those that are held. -/
def Fills (env : ImportEnv) (floor : Nat) : Errand α → List Edition → Prop
  | finished result, held => result ≠ none ∧ held = []
  | hung, _ => False
  | load importing path next, held =>
    Fills env floor (next (env.catalog.lookup importing path)) held
  | call document _ next, held => ∀ build, Fills env floor (next (env.source document) build) held
  | claim k next, held =>
    floor < k.depth ∧ (∀ j ∈ held, j.depth < k.depth) ∧
      (∀ product, Fills env floor (next (.found product)) held) ∧
      Fills env floor (next .granted) (k :: held)
  | publish k _ next, held => ∃ rest, held = k :: rest ∧ Fills env floor next rest
  | abandon _ _, _ => False

theorem Fills.bind {floor floor' : Nat} {e : Errand α} {k : Option α → Errand β}
    {held below : List Edition} (h : e.Fills env floor held) (hf : floor' ≤ floor)
    (hb : ∀ j ∈ below, j.depth ≤ floor) (hk : ∀ a, (k (some a)).Fills env floor' below) :
    (e.bind k).Fills env floor' (held ++ below) := by
  induction e generalizing held with
  | finished result =>
    obtain ⟨hr, rfl⟩ := h
    cases result with
    | none => exact absurd rfl hr
    | some a => exact hk a
  | hung => exact h.elim
  | load importing path next ih => exact ih _ h
  | call document depth next ih => exact fun build => ih _ _ (h build)
  | claim edition next ih =>
    obtain ⟨hd, hj, hfound, hgranted⟩ := h
    refine ⟨Nat.lt_of_le_of_lt hf hd, fun j hm => ?_, fun product => ih _ (hfound product),
      ih _ hgranted⟩
    rcases List.mem_append.1 hm with hm | hm
    · exact hj j hm
    · exact Nat.lt_of_le_of_lt (hb j hm) hd
  | publish edition product next ih =>
    obtain ⟨rest, rfl, hn⟩ := h
    exact ⟨rest ++ below, rfl, ih hn⟩
  | abandon edition next ih => exact h.elim

theorem Fills.andThen {floor : Nat} {e : Errand α} {k : α → Errand β} (h : e.Fills env floor [])
    (hk : ∀ a, (k a).Fills env floor []) : (e.andThen k).Fills env floor [] :=
  h.bind (Nat.le_refl floor) (fun _ hj => absurd hj List.not_mem_nil) hk

theorem fills_answerAll {floor : Nat} {answer : ImportEdge → Errand (Outcome Node)}
    (h : ∀ edge, (answer edge).Fills env floor []) (rs : List Request) (a : Answers) :
    (answerAll answer a rs).Fills env floor [] := by
  induction rs generalizing a with
  | nil => exact ⟨Option.some_ne_none a, rfl⟩
  | cons r rs ih => exact (h r.edge).andThen fun outcome => ih _

theorem fills_make (hr : env.Regular) {floor : Nat} {answer : ImportEdge → Errand (Outcome Node)}
    (h : ∀ edge, (answer edge).Fills env floor []) (document : Document) (depth build : Nat) :
    (make answer document depth (env.source document) build).Fills env floor [] := by
  rcases hr.parses document with hs | ⟨tree, hs⟩
  · rw [hs]
    exact ⟨Option.some_ne_none _, rfl⟩
  · rw [hs]
    exact (fills_answerAll h _ {}).andThen fun answers => ⟨Option.some_ne_none _, rfl⟩

theorem fills_followAt (hr : env.Regular) (levels : Nat) (importing : Document) (depth : Nat)
    (edge : ImportEdge) :
    (followAt env.maxDepth levels importing depth edge).Fills env depth [] := by
  induction levels generalizing importing depth edge with
  | zero => exact ⟨Option.some_ne_none _, rfl⟩
  | succ levels ih =>
    simp only [followAt, Fills]
    cases hd : env.catalog.lookup importing.uri edge.path with
    | error e => exact ⟨Option.some_ne_none _, rfl⟩
    | ok document =>
      refine ⟨Nat.lt_succ_self depth, fun j hj => absurd hj List.not_mem_nil,
        fun product => ⟨Option.some_ne_none _, rfl⟩, fun build => ?_⟩
      have hm := fills_make hr (ih document (depth + 1)) document (depth + 1) build
      -- the slot of the document itself is filled after all that are claimed on the way
      refine hm.bind (Nat.le_succ depth) (fun j hj => ?_) fun product => ?_
      · exact Nat.le_of_eq (congrArg Edition.depth (List.mem_singleton.1 hj))
      · exact ⟨[], rfl, Option.some_ne_none _, rfl⟩

theorem fills_follow (hr : env.Regular) (importing : Document) (depth : Nat) (edge : ImportEdge) :
    (follow env.maxDepth importing depth edge).Fills env depth [] :=
  fills_followAt hr _ importing depth edge

theorem Step.fills {deed : Deed} {e e' : Errand α} {l l' : Linker} (h : Step env deed e l e' l')
    (hc : deed.isCalm) {floor : Nat} {held : List Edition} (he : e.Fills env floor held) :
    ∃ held', e'.Fills env floor held' ∧ ∀ k, l'.modules.get? k = some .pending →
      (k ∈ held → k ∈ held') ∧ (l.modules.get? k = some .pending ∨ k ∈ held') := by
  cases h with
  | load importing path next => exact ⟨held, he, fun k hk => ⟨id, .inl hk⟩⟩
  | call document depth next => exact ⟨held, he _, fun k hk => ⟨id, .inl hk⟩⟩
  | unwind document depth next => cases hc
  | found next h => exact ⟨held, he.2.2.1 _, fun k hk => ⟨id, .inl hk⟩⟩
  | @granted edition _ next h =>
    refine ⟨edition :: held, he.2.2.2, fun k hk => ⟨List.mem_cons_of_mem _, ?_⟩⟩
    by_cases hke : k = edition
    · exact .inr (hke ▸ List.mem_cons_self)
    · exact .inl (by simpa [Table.get?_insert, hke] using hk)
  | expire next h => cases hc
  | publish edition product next =>
    obtain ⟨rest, rfl, he⟩ := he
    refine ⟨rest, he, fun k hk => ?_⟩
    have hke : k ≠ edition := by
      rintro rfl
      simp [SharedStore.get?_publish] at hk
    refine ⟨fun hm => (List.mem_cons.1 hm).resolve_left hke, .inl ?_⟩
    simpa [SharedStore.get?_publish, hke] using hk
  | abandon edition next => exact he.elim

def Reliable (env : ImportEnv) (e : Errand α) : Prop := ∃ floor held, e.Fills env floor held

def Occupies (env : ImportEnv) (k : Edition) (e : Errand α) : Prop :=
  ∃ floor held, e.Fills env floor held ∧ k ∈ held

end Errand

def Caller.errand? : Caller → Option (Errand (Outcome Node))
  | following _ _ _ errand => some errand
  | resolving _ _ _ errand => some errand
  | _ => none

/-- What a step does to the errand that its thread is at: whatever is pending afterwards and was not
pending before is held by the errand, and what the errand has held it still holds. -/
def Hands (env : ImportEnv) (l l' : Linker) (before after : Option (Errand (Outcome Node))) :
    Prop :=
  (∀ e ∈ before, e.Reliable env) →
    (∀ e ∈ after, e.Reliable env) ∧
    ∀ k, l'.modules.get? k = some .pending →
      ((∃ e ∈ before, e.Occupies env k) ∨ l.modules.get? k ≠ some .pending) →
      ∃ e ∈ after, e.Occupies env k

variable {env : ImportEnv}

theorem Hands.step {deed : Deed} {e e' : Errand (Outcome Node)} {l l' : Linker}
    (h : Errand.Step env deed e l e' l') (hc : deed.isCalm) :
    Hands env l l' (some e) (some e') := by
  intro he
  obtain ⟨floor, held, hf⟩ := he e rfl
  obtain ⟨held', hf', hk'⟩ := h.fills hc hf
  refine ⟨fun d hd => ?_, fun k hk hcase => ⟨e', rfl, ?_⟩⟩
  · cases hd
    exact ⟨floor, held', hf'⟩
  · rcases hcase with ⟨d, hd, floor₁, held₁, hf₁, hm⟩ | hnew
    · cases hd
      obtain ⟨held₂, hf₂, hk₂⟩ := h.fills hc hf₁
      exact ⟨floor₁, held₂, hf₂, (hk₂ k hk).1 hm⟩
    · exact ⟨floor, held', hf', (hk' k hk).2.resolve_left hnew⟩

theorem Hands.free {l l' : Linker} {before after : Option (Errand (Outcome Node))}
    (h : l'.modules = l.modules) (hb : ∀ e ∈ before, ∃ result, e = .finished result)
    (ha : ∀ e ∈ after, ∃ floor, e.Fills env floor []) : Hands env l l' before after := by
  intro he
  refine ⟨fun e hm => ?_, fun k hk hcase => ?_⟩
  · obtain ⟨floor, hf⟩ := ha e hm
    exact ⟨floor, [], hf⟩
  · rcases hcase with ⟨e, hm, floor, held, hf, hmem⟩ | hnew
    · obtain ⟨result, rfl⟩ := hb e hm
      rw [hf.2] at hmem
      cases hmem
    · rw [h] at hk
      exact absurd hk hnew

theorem Hands.over (result : Option (Outcome Node)) (l : Linker) :
    Hands env l l (some (.finished result)) none := by
  refine .free rfl (fun e he => ?_) fun _ ha => by cases ha
  cases he
  exact ⟨result, rfl⟩

theorem Errand.Step.idle {α : Type} {deed : Deed} {e e' : Errand α} {l l' : Linker}
    (h : Errand.Step env deed e l e' l') : l'.idle = l.idle := by
  cases h <;> rfl

theorem Caller.Step.jobs {deed : Deed} {c c' : Caller} {l l' : Linker}
    (h : Caller.Step env deed c l c' l') :
    l'.idle = l.idle ∧ l'.replies = l.replies ∧
      (l'.queue = l.queue ∧ l'.tickets = l.tickets ∨
        ∃ document edge,
          l'.queue = l.queue ++ [⟨l.tickets, .follow env.maxDepth document 0 edge⟩] ∧
          l'.tickets = l.tickets + 1) := by
  cases h with
  | announce entry edge edges numbered =>
    exact ⟨rfl, rfl, .inr ⟨entry.document, edge, rfl, rfl⟩⟩
  | follow entry r rs h => exact ⟨h.idle, h.frame.2.1, .inl ⟨h.frame.1, h.frame.2.2⟩⟩
  | resolve importing depth edge h => exact ⟨h.idle, h.frame.2.1, .inl ⟨h.frame.1, h.frame.2.2⟩⟩
  | _ => exact ⟨rfl, rfl, .inl ⟨rfl, rfl⟩⟩

theorem Caller.Step.hands (hr : env.Regular) {deed : Deed} {c c' : Caller} {l l' : Linker}
    (h : Caller.Step env deed c l c' l') (hcalm : deed.isCalm) :
    Hands env l l' c.errand? c'.errand? := by
  have none_free {m : Linker} (hm : m.modules = l.modules) : Hands env l m none none :=
    .free hm (fun _ hb => by cases hb) fun _ ha => by cases ha
  cases h with
  | readUnwound document _ => cases hcalm
  | giveUp rs ht ho => cases hcalm
  | @inline entry r rs _ ht =>
    refine .free rfl (fun _ hb => by cases hb) fun e he => ?_
    cases he
    exact ⟨0, Errand.fills_follow hr entry.document 0 r.edge⟩
  | follow entry r rs h => exact .step h hcalm
  | followed entry r rs outcome => exact .over _ l
  | followUnwound entry r rs => exact .over _ l
  | resolve importing depth edge h => exact .step h hcalm
  | resolved importing depth edge outcome => exact .over _ l
  | resolveUnwound importing depth edge => exact .over _ l
  | _ => exact none_free rfl

def Covered (env : ImportEnv) (l : Linker) (es : List (Errand (Outcome Node))) : Prop :=
  (∀ e ∈ es, e.Reliable env) ∧
    ∀ k, l.modules.get? k = some .pending → ∃ e ∈ es, e.Occupies env k

theorem Hands.covered {l l' : Linker} {before after : Option (Errand (Outcome Node))}
    {pre post : List (Errand (Outcome Node))} (h : Hands env l l' before after)
    (hc : Covered env l (pre ++ before.toList ++ post)) :
    Covered env l' (pre ++ after.toList ++ post) := by
  obtain ⟨hall, hpend⟩ := hc
  obtain ⟨hafter, hk⟩ := h fun e he => hall e (by simp [Option.mem_toList.2 he])
  refine ⟨fun e he => ?_, fun k hp => ?_⟩
  · simp only [List.mem_append, Option.mem_toList, or_assoc] at he
    rcases he with he | he | he
    · exact hall e (by simp [he])
    · exact hafter e he
    · exact hall e (by simp [he])
  · have hmine (hcase : (∃ e ∈ before, e.Occupies env k) ∨ l.modules.get? k ≠ some .pending) :
        ∃ e ∈ pre ++ after.toList ++ post, e.Occupies env k := by
      obtain ⟨e, he, hh⟩ := hk k hp hcase
      exact ⟨e, by simp [Option.mem_toList.2 he], hh⟩
    by_cases hold : l.modules.get? k = some .pending
    · obtain ⟨e, he, hh⟩ := hpend k hold
      simp only [List.mem_append, Option.mem_toList, or_assoc] at he
      rcases he with he | he | he
      · exact ⟨e, by simp [he], hh⟩
      · exact hmine (.inl ⟨e, he, hh⟩)
      · exact ⟨e, by simp [he], hh⟩
    · exact hmine (.inr hold)

namespace Crew

def errands (c : Crew) : List (Errand (Outcome Node)) :=
  c.active.map Job.errand ++ c.callers.filterMap Caller.errand?

/-- Every pending slot is held, every job that was handed in has its reply or will have it, and
every worker is at a job or free. -/
structure Manned (env : ImportEnv) (workers : Nat) (c : Crew) : Prop where
  queue : ∀ job ∈ c.linker.queue, job.errand.Fills env 0 []
  covered : Covered env c.linker c.errands
  replies : ∀ t < c.linker.tickets,
    c.linker.replies.contains t ∨ ∃ job ∈ c.linker.queue ++ c.active, job.ticket = t
  workers : c.linker.idle + c.active.length = workers

theorem errands_call (l : Linker) (active : List Job) (pre post : List Caller) (a : Caller) :
    errands ⟨l, active, pre ++ a :: post⟩ =
      (active.map Job.errand ++ pre.filterMap Caller.errand?) ++ a.errand?.toList ++
        post.filterMap Caller.errand? := by
  simp only [errands, List.filterMap_append, filterMap_cons_toList, List.append_assoc]

theorem errands_work (l : Linker) (pre post : List Job) (job : Job) (callers : List Caller) :
    errands ⟨l, pre ++ job :: post, callers⟩ =
      pre.map Job.errand ++ (some job.errand).toList ++
        (post.map Job.errand ++ callers.filterMap Caller.errand?) := by
  simp only [errands, List.map_append, List.map_cons, Option.toList_some, List.append_assoc,
    List.cons_append, List.nil_append]

/-- Every job that was handed in has its reply, or waits for a worker or has one; and every worker
is at a job or free. -/
structure Staffed (workers : Nat) (c : Crew) : Prop where
  replies : ∀ t < c.linker.tickets,
    c.linker.replies.contains t ∨ ∃ job ∈ c.linker.queue ++ c.active, job.ticket = t
  workers : c.linker.idle + c.active.length = workers

theorem Staffed.work {workers : Nat} {l l' : Linker} {ticket : Nat}
    {e e' : Errand (Outcome Node)} {pre post : List Job} {callers : List Caller}
    (hc : Staffed workers ⟨l, pre ++ ⟨ticket, e⟩ :: post, callers⟩) (hi : l'.idle = l.idle)
    (hf : l'.queue = l.queue ∧ l'.replies = l.replies ∧ l'.tickets = l.tickets) :
    Staffed workers ⟨l', pre ++ ⟨ticket, e'⟩ :: post, callers⟩ := by
  obtain ⟨hq, hrep, ht⟩ := hf
  refine ⟨fun t hlt => ?_, ?_⟩
  · have hlt : t < l.tickets := ht ▸ hlt
    change l'.replies.contains t ∨ ∃ j ∈ l'.queue ++ (pre ++ ⟨ticket, e'⟩ :: post), j.ticket = t
    rw [hrep, hq]
    rcases hc.replies t hlt with hm | ⟨j, hm, he⟩
    · exact .inl hm
    · have hm : j ∈ l.queue ++ (pre ++ ⟨ticket, e⟩ :: post) := hm
      by_cases hj : j = ⟨ticket, e⟩
      · subst hj
        exact .inr ⟨⟨ticket, e'⟩, by simp, he⟩
      · exact .inr ⟨j, by grind, he⟩
  · have hw : l.idle + (pre ++ ⟨ticket, e⟩ :: post).length = workers := hc.workers
    change l'.idle + (pre ++ ⟨ticket, e'⟩ :: post).length = workers
    simpa [hi] using hw

theorem Step.staffed {workers : Nat} {deed : Deed} {c c' : Crew} (h : Step env deed c c')
    (hc : c.Staffed workers) : c'.Staffed workers := by
  cases h with
  | @call _ a a' l l' active pre post h =>
    obtain ⟨hi, hrep, hjobs⟩ := h.jobs
    refine ⟨fun t hlt => ?_, (congrArg (· + active.length) hi).trans hc.workers⟩
    have hlt : t < l'.tickets := hlt
    change l'.replies.contains t ∨ ∃ job ∈ l'.queue ++ active, job.ticket = t
    -- a job that was handed in before is where it was, or its reply has come
    have hold (ht : t < l.tickets) (jobs : List Job) :
        l.replies.contains t ∨ ∃ job ∈ l.queue ++ jobs ++ active, job.ticket = t := by
      rcases hc.replies t ht with hm | ⟨job, hm, he⟩
      · exact .inl hm
      · have hm : job ∈ l.queue ++ active := hm
        exact .inr ⟨job, by grind, he⟩
    rcases hjobs with ⟨hq, ht⟩ | ⟨document, edge, hq, ht⟩
    · rw [hrep, hq]
      simpa using hold (ht ▸ hlt) []
    · rw [hrep, hq]
      rcases Nat.lt_succ_iff_lt_or_eq.1 (ht ▸ hlt) with hlt | rfl
      · exact hold hlt _
      · exact .inr ⟨⟨l.tickets, .follow env.maxDepth document 0 edge⟩, by simp, rfl⟩
  | @take l job rest active callers hi hq =>
    refine ⟨fun t ht => ?_, ?_⟩
    · rcases hc.replies t ht with hm | ⟨j, hm, he⟩
      · exact .inl hm
      · refine .inr ⟨j, ?_, he⟩
        have hm : j ∈ l.queue ++ active := hm
        change j ∈ rest ++ job :: active
        grind
    · have hw : l.idle + active.length = workers := hc.workers
      change l.idle - 1 + (active.length + 1) = workers
      omega
  | work ticket pre post callers h => exact hc.work h.idle h.frame
  | reply l ticket result pre post callers =>
    refine ⟨fun t ht => ?_, ?_⟩
    · change (l.replies.insert ticket result).contains t ∨ _
      rcases hc.replies t ht with hm | ⟨j, hm, he⟩
      · exact .inl (by simp [hm])
      · by_cases hj : j = ⟨ticket, .finished result⟩
        · subst hj
          exact .inl (by simp [show ticket = t from he])
        · have hm : j ∈ l.queue ++ (pre ++ ⟨ticket, .finished result⟩ :: post) := hm
          refine .inr ⟨j, ?_, he⟩
          change j ∈ l.queue ++ (pre ++ post)
          grind
    · have hw : l.idle + (pre ++ (⟨ticket, .finished result⟩ : Job) :: post).length = workers :=
        hc.workers
      change l.idle + 1 + (pre ++ post).length = workers
      simp only [List.length_append, List.length_cons] at hw ⊢
      omega

theorem Step.queued {deed : Deed} {c c' : Crew} (h : Step env deed c c') :
    ∀ job ∈ c'.linker.queue, job ∈ c.linker.queue ∨
      ∃ document edge, job.errand = .follow env.maxDepth document 0 edge := by
  intro job hm
  cases h with
  | @call _ a a' l l' active pre post h =>
    have hm : job ∈ l'.queue := hm
    obtain ⟨_, _, ⟨hq, _⟩ | ⟨document, edge, hq, _⟩⟩ := h.jobs
    · exact .inl (hq ▸ hm)
    · rcases List.mem_append.1 (hq ▸ hm) with hm | hm
      · exact .inl hm
      · exact .inr ⟨document, edge, congrArg Job.errand (List.mem_singleton.1 hm)⟩
  | @take l first rest active callers hi hq =>
    exact .inl (by simp [hq, show job ∈ rest from hm])
  | work ticket pre post callers h => exact .inl (h.frame.1 ▸ hm)
  | reply l ticket result pre post callers => exact .inl hm

theorem Step.manned (hr : env.Regular) {workers : Nat} {deed : Deed} {c c' : Crew}
    (h : Step env deed c c') (hcalm : deed.isCalm) (hc : c.Manned env workers) :
    c'.Manned env workers := by
  obtain ⟨hrep, hwork⟩ := h.staffed ⟨hc.replies, hc.workers⟩
  refine ⟨fun job hm => ?_, ?_, hrep, hwork⟩
  · rcases h.queued job hm with hm | ⟨document, edge, he⟩
    · exact hc.queue job hm
    · exact he ▸ Errand.fills_follow hr document 0 edge
  have hcov := hc.covered
  cases h with
  | call active pre post h =>
    rw [errands_call] at hcov ⊢
    exact (h.hands hr hcalm).covered hcov
  | @take l job rest active callers hi hq =>
    refine ⟨fun e he => ?_, fun k hk => ?_⟩
    · have he : e ∈ job.errand :: errands ⟨l, active, callers⟩ := he
      rcases List.mem_cons.1 he with rfl | he
      · exact ⟨0, [], hc.queue job (by simp [hq])⟩
      · exact hcov.1 e he
    · obtain ⟨e, he, hh⟩ := hcov.2 k hk
      exact ⟨e, List.mem_cons_of_mem _ he, hh⟩
  | work ticket pre post callers h =>
    rw [errands_work] at hcov ⊢
    exact (Hands.step h hcalm).covered hcov
  | reply l ticket result pre post callers =>
    rw [errands_work] at hcov
    have hh := (Hands.over result l).covered hcov
    simpa [errands, Covered] using hh

theorem Run.manned (hr : env.Regular) {workers : Nat} {start c : Crew} {deeds : List Deed}
    (h : Run env start deeds c) (hcalm : ∀ deed ∈ deeds, deed.isCalm)
    (hm : start.Manned env workers) : c.Manned env workers := by
  induction h with
  | refl => exact hm
  | tail _ s ih =>
    exact s.manned hr (hcalm _ List.mem_cons_self)
      (ih fun d hd => hcalm d (List.mem_cons_of_mem _ hd))

end Crew

end ModuleLens
