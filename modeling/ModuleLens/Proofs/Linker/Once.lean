import ModuleLens.Proofs.Linker.Schedules
import ModuleLens.Proofs.Lists

/-! The module source is asked for an edition at most once.  Who asks has just claimed the slot of
the edition; a slot that is claimed stays taken, so no one else is about to ask for it and no one
will be. -/

namespace ModuleLens

/-- What a step does to the edition that its thread is about to ask for: the thread asks for it, or
claims one whose slot was free, or is about to ask for the same as before. -/
def Asks (l l' : Linker) (deed : Deed) (before after : Option Edition) : Prop :=
  (∀ k, l.modules.get? k ≠ none → l'.modules.get? k ≠ none) ∧
  (after.toList ++ deed.asked?.toList = before.toList ∨
    before = none ∧ deed.asked? = none ∧ ∃ k, after = some k ∧ 0 < k.depth ∧
      l.modules.get? k = none ∧ l'.modules.get? k ≠ none)

theorem Asks.idle {l l' : Linker} {deed : Deed} (h : l'.modules = l.modules)
    (hd : deed.asked? = none) : Asks l l' deed none none :=
  ⟨fun _ hk => h ▸ hk, .inl (by simp [hd])⟩

theorem Asks.ask {l l' : Linker} {k : Edition} (h : l'.modules = l.modules) :
    Asks l l' (.asked k) (some k) none :=
  ⟨fun _ hk => h ▸ hk, .inl rfl⟩

variable {env : ImportEnv} {memory : Edition → Option Product}

theorem Errand.Step.asks {α : Type} {deed : Deed} {e e' : Errand α} {l l' : Linker} {Q : α → Prop}
    (h : Errand.Step env deed e l e' l') (hcalm : deed.isCalm) (hs : e.Sound env memory Q)
    (hg : e.Guarded) : e'.Guarded ∧ Asks l l' deed e.asks e'.asks := by
  cases h with
  | load importing path next =>
    obtain ⟨ha, hg⟩ := hg (env.catalog.lookup importing path)
    exact ⟨hg, ha ▸ .idle rfl rfl⟩
  | call document depth next =>
    obtain ⟨ha, hg⟩ := hg (env.source document) l.drafts
    exact ⟨hg, ha ▸ .ask rfl⟩
  | unwind document depth next => cases hcalm
  | @found _ _ product next h =>
    exact ⟨hg.2.2.2.2 _, (hg.2.2.1 product) ▸ .idle rfl rfl⟩
  | @granted edition _ next h =>
    obtain ⟨hd, ha, _, _, hg⟩ := hg
    refine ⟨hg _, fun k hk => ?_, .inr ⟨rfl, rfl, edition, ha, hd, h, ?_⟩⟩
    · by_cases hke : k = edition
      · simp [Table.get?_insert, hke]
      · simpa [Table.get?_insert, hke] using hk
    · simp [Table.get?_insert]
  | expire next h => cases hcalm
  | publish edition product next =>
    refine ⟨hg.2, fun k hk => ?_, .inl (by rw [hg.1]; rfl)⟩
    by_cases hke : k = edition
    · simp [SharedStore.get?_publish, hke]
    · simpa [SharedStore.get?_publish, hke] using hk
  | abandon edition next => exact hs.elim

namespace Caller

def asks : Caller → Option Edition
  | reading document => some (document.edition 0)
  | following _ _ _ errand => errand.asks
  | resolving _ _ _ errand => errand.asks
  | _ => none

def Guarded : Caller → Prop
  | following _ _ _ errand => errand.Guarded
  | resolving _ _ _ errand => errand.Guarded
  | _ => True

theorem Step.asks {origin : Option SyntaxTree → Document → Prop} {due : Nat → Outcome Node → Prop}
    {deed : Deed} {c c' : Caller} {l l' : Linker} (h : Step env deed c l c' l')
    (hcalm : deed.isCalm) (hs : c.Sound env memory origin due l.tickets) (hg : c.Guarded) :
    c'.Guarded ∧ Asks l l' deed c.asks c'.asks ∧
      ∀ job ∈ l'.queue, job ∈ l.queue ∨ job.errand.asks = none ∧ job.errand.Guarded := by
  cases h with
  | read _ _ => exact ⟨trivial, .ask rfl, fun _ h => .inl h⟩
  | readFailed _ _ => exact ⟨trivial, .ask rfl, fun _ h => .inl h⟩
  | readUnwound document _ => cases hcalm
  | announce entry edge edges numbered =>
    refine ⟨trivial, .idle rfl rfl, fun job hj => ?_⟩
    rcases List.mem_append.1 hj with hj | hj
    · exact .inl hj
    · rw [List.mem_singleton] at hj
      subst hj
      exact .inr (Errand.guarded_follow env.maxDepth entry.document 0 edge)
  | collect entry numbered => exact ⟨trivial, .idle rfl rfl, fun _ h => .inl h⟩
  | wait rs _ ht => exact ⟨trivial, .idle rfl rfl, fun _ h => .inl h⟩
  | reply rs ht ho => exact ⟨trivial, .idle rfl rfl, fun _ h => .inl h⟩
  | lost rs ht ho => exact ⟨trivial, .idle rfl rfl, fun _ h => .inl h⟩
  | giveUp rs ht ho => cases hcalm
  | @inline entry r rs _ ht =>
    obtain ⟨ha, hg⟩ := Errand.guarded_follow env.maxDepth entry.document 0 r.edge
    refine ⟨hg, ?_, fun _ h => .inl h⟩
    change Asks l l .quiet none (Errand.follow env.maxDepth entry.document 0 r.edge).asks
    rw [ha]
    exact .idle rfl rfl
  | follow entry r rs h =>
    obtain ⟨hg, ha⟩ := h.asks hcalm hs.2.2 hg
    exact ⟨hg, ha, fun _ hj => .inl (h.frame.1 ▸ hj)⟩
  | followed entry r rs outcome => exact ⟨trivial, .idle rfl rfl, fun _ h => .inl h⟩
  | followUnwound entry r rs => exact hs.2.2.elim
  | link entry => exact ⟨trivial, .idle rfl rfl, fun _ h => .inl h⟩
  | resolve importing depth edge h =>
    obtain ⟨hg, ha⟩ := h.asks hcalm hs hg
    exact ⟨hg, ha, fun _ hj => .inl (h.frame.1 ▸ hj)⟩
  | resolved importing depth edge outcome => exact ⟨trivial, .idle rfl rfl, fun _ h => .inl h⟩
  | resolveUnwound importing depth edge => exact hs.elim

end Caller

theorem Asks.nodup {l l' : Linker} {deed : Deed} {before after : Option Edition}
    {pre post asked : List Edition} (h : Asks l l' deed before after)
    (hn : (pre ++ before.toList ++ post ++ asked).Nodup)
    (hs : ∀ k ∈ pre ++ before.toList ++ post ++ asked, k.depth = 0 ∨ l.modules.get? k ≠ none) :
    (pre ++ after.toList ++ post ++ (deed.asked?.toList ++ asked)).Nodup ∧
      ∀ k ∈ pre ++ after.toList ++ post ++ (deed.asked?.toList ++ asked),
        k.depth = 0 ∨ l'.modules.get? k ≠ none := by
  obtain ⟨hkeep, hturn | ⟨rfl, hd, k, rfl, hpos, hfree, htaken⟩⟩ := h
  · -- all editions are as before, if in another order
    have hp : (pre ++ after.toList ++ post ++ (deed.asked?.toList ++ asked)).Perm
        (pre ++ before.toList ++ post ++ asked) := by
      rw [← hturn]
      simp only [List.append_assoc]
      exact (List.perm_append_comm_assoc _ _ _).append_left after.toList |>.append_left pre
    exact ⟨hp.nodup_iff.2 hn, fun k hk => (hs k (hp.mem_iff.1 hk)).imp_right (hkeep k)⟩
  · -- one edition more, of a slot that was free
    have hp : (pre ++ [k] ++ post ++ (deed.asked?.toList ++ asked)).Perm
        (k :: (pre ++ [] ++ post ++ asked)) := by
      simp only [hd, Option.toList_none, List.nil_append, List.append_nil, List.append_assoc,
        List.singleton_append]
      exact List.perm_middle
    have hk : k ∉ pre ++ [] ++ post ++ asked := by
      intro hk
      rcases hs k hk with h0 | hne
      · omega
      · exact hne hfree
    refine ⟨hp.nodup_iff.2 (List.nodup_cons.2 ⟨hk, hn⟩), fun j hj => ?_⟩
    rcases List.mem_cons.1 (hp.mem_iff.1 hj) with rfl | hj
    · exact .inr htaken
    · exact (hs j hj).imp_right (hkeep j)

namespace Crew

def asking (c : Crew) : List Edition :=
  c.active.filterMap (fun job => job.errand.asks) ++ c.callers.filterMap Caller.asks

/-- No two threads ask for one edition, and no one asks for an edition that was asked for. -/
structure Once (asked : List Edition) (c : Crew) : Prop where
  queue : ∀ job ∈ c.linker.queue, job.errand.asks = none ∧ job.errand.Guarded
  active : ∀ job ∈ c.active, job.errand.Guarded
  callers : ∀ a ∈ c.callers, a.Guarded
  nodup : (c.asking ++ asked).Nodup
  slots : ∀ k ∈ c.asking ++ asked, k.depth = 0 ∨ c.linker.modules.get? k ≠ none

theorem asking_call (l : Linker) (active : List Job) (pre post : List Caller) (a : Caller) :
    asking ⟨l, active, pre ++ a :: post⟩ =
      (active.filterMap (fun job => job.errand.asks) ++ pre.filterMap Caller.asks) ++
        a.asks.toList ++ post.filterMap Caller.asks := by
  simp only [asking, List.filterMap_append, filterMap_cons_toList, List.append_assoc]

theorem asking_work (l : Linker) (pre post : List Job) (ticket : Nat)
    (e : Errand (Outcome Node)) (callers : List Caller) :
    asking ⟨l, pre ++ ⟨ticket, e⟩ :: post, callers⟩ =
      pre.filterMap (fun job => job.errand.asks) ++ e.asks.toList ++
        (post.filterMap (fun job => job.errand.asks) ++ callers.filterMap Caller.asks) := by
  simp only [asking, List.filterMap_append, filterMap_cons_toList, List.append_assoc]

variable {origin : Option SyntaxTree → Document → Prop} {due : Nat → Outcome Node → Prop}

theorem Once.replace {deed : Deed} {l l' : Linker} {active active' : List Job}
    {callers callers' : List Caller} {before after : Option Edition} {pre post asked : List Edition}
    (hc : Once asked ⟨l, active, callers⟩) (hstep : Asks l l' deed before after)
    (hb : asking ⟨l, active, callers⟩ = pre ++ before.toList ++ post)
    (ha : asking ⟨l', active', callers'⟩ = pre ++ after.toList ++ post)
    (hqueue : ∀ job ∈ l'.queue, job.errand.asks = none ∧ job.errand.Guarded)
    (hactive : ∀ job ∈ active', job.errand.Guarded) (hcallers : ∀ a ∈ callers', a.Guarded) :
    Once (deed.asked?.toList ++ asked) ⟨l', active', callers'⟩ := by
  obtain ⟨hn, hk⟩ := hstep.nodup (hb ▸ hc.nodup) (hb ▸ hc.slots)
  exact ⟨hqueue, hactive, hcallers, ha ▸ hn, ha ▸ hk⟩

theorem Step.once {deed : Deed} {c c' : Crew} {asked : List Edition} (h : Step env deed c c')
    (hcalm : deed.isCalm) (hs : c.Sound env memory origin due) (hc : Once asked c) :
    Once (deed.asked?.toList ++ asked) c' := by
  cases h with
  | @call _ a a' l l' active pre post h =>
    obtain ⟨hg, hstep, hq⟩ := h.asks hcalm (hs.callers a (by simp)) (hc.callers a (by simp))
    refine hc.replace hstep (asking_call ..) (asking_call ..) (fun job hj => ?_) hc.active
      (forall_mem_replace hc.callers hg)
    rcases hq job hj with hj | hj
    · exact hc.queue job hj
    · exact hj
  | @take l job rest active callers hi hq =>
    have hj := hc.queue job (by simp [hq])
    have he : asking ⟨{ l with idle := l.idle - 1, queue := rest }, job :: active, callers⟩ =
        asking ⟨l, active, callers⟩ ++ Option.toList none ++ [] := by
      simp [asking, hj.1]
    refine hc.replace (.idle rfl rfl) (by simp) he
      (fun j hm => hc.queue j (by simp [hq, show j ∈ rest from hm])) (fun j hm => ?_) hc.callers
    rcases List.mem_cons.1 hm with rfl | hm
    · exact hj.2
    · exact hc.active j hm
  | @work _ e e' l l' ticket pre post callers h =>
    have hm : (⟨ticket, e⟩ : Job) ∈ pre ++ ⟨ticket, e⟩ :: post := by simp
    obtain ⟨_, hsound⟩ := hs.jobs _ (List.mem_append_right l.queue hm)
    obtain ⟨hg, hstep⟩ := h.asks hcalm hsound (hc.active _ hm)
    exact hc.replace hstep (asking_work ..) (asking_work ..)
      (fun j hj => hc.queue j (h.frame.1 ▸ hj)) (forall_mem_replace hc.active hg) hc.callers
  | reply l ticket result pre post callers =>
    refine hc.replace (.idle rfl rfl) (asking_work ..) ?_ hc.queue
      (fun j hj => hc.active j (by grind)) hc.callers
    simp [asking]

theorem Run.once (hr : env.Regular) {start c : Crew} {deeds : List Deed}
    (h : Run env start deeds c) (hcalm : ∀ deed ∈ deeds, deed.isCalm)
    (hs : start.Sound env memory origin due) (hc : Once [] start) :
    Once (deeds.filterMap Deed.asked?) c := by
  induction h with
  | refl => exact hc
  | @tail deeds c c' deed h s ih =>
    have hd (d : Deed) (hm : d ∈ deeds) := hcalm d (List.mem_cons_of_mem _ hm)
    obtain ⟨due', hsound⟩ := h.sound hr hd hs
    have hh := s.once (hcalm deed List.mem_cons_self) hsound (ih hd)
    rwa [filterMap_cons_toList]

end Crew

end ModuleLens
