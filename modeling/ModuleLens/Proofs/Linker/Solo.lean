import ModuleLens.Proofs.Linker.Coherence
import ModuleLens.Proofs.Linker.Errands

/-! One thread at a time.  A thread that follows an import while only slots of smaller depth are
pending never has to wait: every slot it comes to is ready or free, since the slots that it holds
itself lie above the one it asks for.  So it comes to a result, and stored modules still hang
together. -/

namespace ModuleLens

open Node

namespace Linker

variable {α β : Type} {env : ImportEnv} {wait : Linker → Edition → Option (Claimed × Linker)}

def alone : Linker → Edition → Option (Claimed × Linker) := fun _ _ => none

theorem run_bind {k : Option α → Errand β} {e : Errand α} {l l' : Linker} {r : Option α}
    (h : run env wait e l = (.finished r, l')) :
    run env wait (e.bind k) l = run env wait (k r) l' := by
  induction e generalizing l with
  | finished result =>
    cases h
    rfl
  | hung => cases h
  | load importing path next ih => exact ih _ h
  | call document depth next ih => exact ih _ _ h
  | claim edition next ih =>
    simp only [run, Errand.bind] at h ⊢
    split at h
    · exact ih _ h
    · exact ih _ h
    · split at h
      · exact ih _ h
      · cases h
  | publish edition product next ih => exact ih h
  | abandon edition next ih => exact ih h

/-- What is done without a wait does not depend on how waits end. -/
theorem run_of_alone {e : Errand α} {l l' : Linker} {r : Option α}
    (h : run env alone e l = (.finished r, l')) : run env wait e l = (.finished r, l') := by
  induction e generalizing l with
  | finished result => exact h
  | hung => exact h
  | load importing path next ih => exact ih _ h
  | call document depth next ih => exact ih _ _ h
  | claim edition next ih =>
    simp only [run, alone] at h ⊢
    split at h
    · exact ih _ h
    · exact ih _ h
    · cases h
  | publish edition product next ih => exact ih h
  | abandon edition next ih => exact ih h

theorem run_frame (env : ImportEnv) (e : Errand α) (l : Linker) :
    ∃ modules drafts calls, (run env alone e l).2 = { l with modules, drafts, calls } := by
  induction e generalizing l with
  | finished result => exact ⟨l.modules, l.drafts, l.calls, rfl⟩
  | hung => exact ⟨l.modules, l.drafts, l.calls, rfl⟩
  | load importing path next ih => exact ih _ l
  | call document depth next ih => exact ih _ _ _
  | claim edition next ih =>
    simp only [run, alone]
    split
    · exact ih _ l
    · exact ih _ _
    · exact ⟨l.modules, l.drafts, l.calls, rfl⟩
  | publish edition product next ih => exact ih _
  | abandon edition next ih => exact ih _

end Linker

inductive Errand.Walk {α : Type} (env : ImportEnv) (e : Errand α) (l : Linker) :
    List Deed → Errand α → Linker → Prop where
  | refl : Walk env e l [] e l
  | tail {deeds : List Deed} {deed : Deed} {d d' : Errand α} {m m' : Linker}
      (h : Walk env e l deeds d m) (s : Errand.Step env deed d m d' m') :
      Walk env e l (deed :: deeds) d' m'

theorem Errand.Walk.head {α : Type} {env : ImportEnv} {e e' e'' : Errand α} {l l' l'' : Linker}
    {deed : Deed} {deeds : List Deed} (s : Errand.Step env deed e l e' l')
    (h : Errand.Walk env e' l' deeds e'' l'') : Errand.Walk env e l (deeds ++ [deed]) e'' l'' := by
  induction h with
  | refl => exact .tail .refl s
  | tail _ t ih => exact .tail ih t

namespace Linker

variable {α β : Type} {env : ImportEnv}

theorem run_walk (env : ImportEnv) (e : Errand α) (l : Linker) :
    ∃ deeds, (∀ deed ∈ deeds, deed.isCalm) ∧
      Errand.Walk env e l deeds (run env alone e l).1 (run env alone e l).2 := by
  have head {deed : Deed} {e e' : Errand α} {l l' : Linker} (s : Errand.Step env deed e l e' l')
      (hc : deed.isCalm)
      (h : ∃ deeds, (∀ deed ∈ deeds, deed.isCalm) ∧
        Errand.Walk env e' l' deeds (run env alone e' l').1 (run env alone e' l').2) :
      ∃ deeds, (∀ deed ∈ deeds, deed.isCalm) ∧
        Errand.Walk env e l deeds (run env alone e' l').1 (run env alone e' l').2 := by
    obtain ⟨deeds, hd, hw⟩ := h
    refine ⟨deeds ++ [deed], fun d hm => ?_, hw.head s⟩
    rcases List.mem_append.1 hm with hm | hm
    · exact hd d hm
    · rw [List.mem_singleton] at hm
      exact hm ▸ hc
  induction e generalizing l with
  | finished result => exact ⟨[], by simp, .refl⟩
  | hung => exact ⟨[], by simp, .refl⟩
  | load importing path next ih =>
    rw [run]
    exact head (.load importing path next l) rfl (ih _ _)
  | call document depth next ih =>
    rw [run]
    exact head (.call document depth next l) rfl (ih _ _ _)
  | claim edition next ih =>
    simp only [run, alone]
    split
    · next hc => exact head (.found next (SharedStore.claim_eq_found.1 hc)) rfl (ih _ _)
    · next hc =>
      obtain ⟨hk, rfl⟩ := SharedStore.claim_eq_granted.1 hc
      exact head (.granted next hk) rfl (ih _ _)
    · exact ⟨[], by simp, .refl⟩
  | publish edition product next ih =>
    rw [run]
    exact head (.publish edition product next l) rfl (ih _)
  | abandon edition next ih =>
    rw [run]
    exact head (.abandon edition next l) rfl (ih _)

def Rests (l : Linker) (depth : Nat) : Prop :=
  ∀ k, l.modules.get? k = some .pending → k.depth ≤ depth

theorem Grows.rests {l l' : Linker} {depth : Nat} (h : l.Grows env l') (hl : l.Rests depth) :
    l'.Rests depth :=
  fun k hk => hl k (h.pending.1 hk)

theorem Rests.claim {l : Linker} {depth : Nat} (hl : l.Rests depth) {k : Edition}
    (hk : k.depth = depth + 1) :
    Rests { l with modules := l.modules.insert k .pending } (depth + 1) := by
  intro j hj
  have hj : (l.modules.insert k .pending).get? j = some .pending := hj
  rw [Table.get?_insert] at hj
  split at hj
  · next hjk => exact hjk ▸ Nat.le_of_eq hk
  · exact Nat.le_succ_of_le (hl j hj)

def Keeps (l : Linker) (outcome : Outcome Node) : Prop := ∀ n, outcome = .resolved n → l.Holds n

theorem Grows.keeps {l l' : Linker} (h : l.Grows env l') {outcome : Outcome Node}
    (ho : l.Keeps outcome) : l'.Keeps outcome :=
  fun n hn => h.ready (ho n hn)

/-- An errand that comes to a result without a wait and keeps stored modules together, if only slots
up to a depth are pending. -/
def Ends (env : ImportEnv) (depth : Nat) (Q : Linker → α → Prop) (e : Errand α) (l : Linker) :
    Prop :=
  l.Coherent → l.Rests depth → ∃ a l', run env alone e l = (.finished (some a), l') ∧
    l'.Coherent ∧ l.Grows env l' ∧ Q l' a

theorem ends_finished {depth : Nat} {Q : Linker → α → Prop} {a : α} {l : Linker} (h : Q l a) :
    Ends env depth Q (.finished (some a)) l :=
  fun hc _ => ⟨a, l, rfl, hc, .refl env l, h⟩

theorem Ends.andThen {depth : Nat} {P : Linker → α → Prop} {Q : Linker → β → Prop}
    {k : α → Errand β} {e : Errand α} {l : Linker} (h : Ends env depth P e l)
    (hk : ∀ a l', l.Grows env l' → P l' a → Ends env depth Q (k a) l') :
    Ends env depth Q (e.andThen k) l := by
  intro hc hl
  obtain ⟨a, l', he, hc', hg, hp⟩ := h hc hl
  obtain ⟨b, l'', hke, hc'', hg', hq⟩ := hk a l' hg hp hc' (hg.rests hl)
  exact ⟨b, l'', (run_bind he).trans hke, hc'', hg.trans hg', hq⟩

def KeepsAll (l : Linker) (answers : Answers) : Prop :=
  ∀ (i : Nat) outcome, answers[i]? = some outcome → l.Keeps outcome

theorem keepsAll_empty (l : Linker) : l.KeepsAll {} := by
  intro i outcome h
  simp at h

theorem KeepsAll.insert {l : Linker} {answers : Answers} (h : l.KeepsAll answers) (i : Nat)
    {outcome : Outcome Node} (ho : l.Keeps outcome) : l.KeepsAll (answers.insert i outcome) := by
  intro j o hj
  by_cases hi : i = j
  · subst hi
    have heq : outcome = o := by simpa using hj
    exact heq ▸ ho
  · exact h j o (by simpa [Std.TreeMap.getElem?_insert, hi] using hj)

theorem Grows.keepsAll {l l' : Linker} (h : l.Grows env l') {answers : Answers}
    (ha : l.KeepsAll answers) : l'.KeepsAll answers :=
  fun i o ho => h.keeps (ha i o ho)

theorem ends_answerAll {answer : ImportEdge → Errand (Outcome Node)} {depth : Nat}
    (h : ∀ edge l, Ends env depth Keeps (answer edge) l) (rs : List Request) {a : Answers}
    {l : Linker} (ha : l.KeepsAll a) :
    Ends env depth KeepsAll (Errand.answerAll answer a rs) l := by
  induction rs generalizing a l with
  | nil => exact ends_finished ha
  | cons r rs ih =>
    exact (h r.edge l).andThen fun o l' hg ho => ih ((hg.keepsAll ha).insert r.index ho)

/-- A product that was made with a number: a module of the document with the number, the modules
behind its imports stored. -/
structure Makes (document : Document) (depth build : Nat) (l : Linker) (p : Product) : Prop where
  edition : ∀ {n}, p = .module n → n.edition = document.edition depth
  id : ∀ {n}, p = .module n → n.id = ⟨build, 0⟩
  targets : ∀ {n t}, p = .module n → Imports n t → l.Holds t

theorem makes_link {tree : SyntaxTree} {document : Document} {depth build : Nat} {l : Linker}
    {a : Answers} (ha : l.KeepsAll a) :
    Makes document depth build l (.module ((draftModule build tree document depth).link a)) := by
  have hn := draftModule_nodes build tree document depth
  refine ⟨fun {n} h => ?_, fun {n} h => ?_, fun {n t} h hi => ?_⟩
  · cases h
    obtain ⟨_, hd, hdepth, _⟩ := hn _ List.mem_cons_self
    rw [Node.edition, Node.document, Node.depth, info_link]
    rw [Node.document] at hd
    rw [Node.depth] at hdepth
    rw [hd, hdepth]
  · cases h
    rw [Node.id, info_link]
    exact id_draftModule build tree document depth
  · cases h
    have hbare (d : Node) (hd : d ∈ (draftModule build tree document depth).descendants) :
        d.outcome = none := (hn d (List.mem_cons_of_mem _ hd)).1
    obtain ⟨i, hi⟩ := mem_targets_link hbare hi
    exact ha i _ hi t rfl

theorem ends_make (hr : env.Regular) {answer : ImportEdge → Errand (Outcome Node)} {depth : Nat}
    (h : ∀ edge l, Ends env depth Keeps (answer edge) l) (document : Document) (build : Nat)
    (l : Linker) :
    Ends env depth (Makes document depth build)
      (Errand.make answer document depth (env.source document) build) l := by
  rcases hr.parses document with hs | ⟨tree, hs⟩
  · rw [hs]
    exact ends_finished ⟨(nomatch ·), (nomatch ·), (nomatch ·)⟩
  · rw [hs]
    refine (ends_answerAll h _ (keepsAll_empty l)).andThen fun a l' _ ha => ends_finished ?_
    exact makes_link ha

theorem Makes.fresh {document : Document} {depth : Nat} {l m : Linker} {p : Product}
    (h : Makes document depth l.drafts m p) (hl : l.Coherent) (hd : l.drafts < m.drafts)
    (hm : ∀ n, m.Holds n → l.Holds n ∨ l.drafts < n.id.build) :
    m.Fresh (document.edition depth) p := by
  refine ⟨h.edition, h.targets, fun {n k} hp hk hi => ?_, fun {n} hp => ?_⟩
  · have hn : k.id.build = l.drafts := by rw [hi, h.id hp]
    rcases hm k hk with hk | hk
    · have hh := hl.numbered hk
      omega
    · omega
  · rw [h.id hp]
    exact hd

theorem Fresh.holds {l : Linker} {k : Edition} {p : Product} (h : l.Fresh k p) (m : Linker)
    {n : Node} (hn : p.outcome = .resolved n) :
    Holds { m with modules := m.modules.publish k p } n := by
  cases p with
  | failed => cases hn
  | module n' =>
    cases hn
    change (m.modules.publish k (.module n)).get? n.edition = _
    rw [h.edition rfl, SharedStore.get?_publish, if_pos rfl]

/-- Following an import comes to an outcome without a wait, and the module behind it is stored. -/
theorem ends_followAt (hr : env.Regular) (levels : Nat) (importing : Document) (depth : Nat)
    (edge : ImportEdge) (l : Linker) :
    Ends env depth Keeps (Errand.followAt env.maxDepth levels importing depth edge) l := by
  induction levels generalizing importing depth edge l with
  | zero => exact ends_finished fun n h => by cases h
  | succ levels ih =>
    intro hc hl
    simp only [Errand.followAt, run]
    cases hd : env.catalog.lookup importing.uri edge.path with
    | error e => exact ends_finished (fun n h => by cases h) hc hl
    | ok document =>
      simp only [run]
      split
      · next p hk =>
        refine ends_finished (fun n hn => ?_) hc hl
        cases p with
        | failed => cases hn
        | module m =>
          cases hn
          exact hc.holds (SharedStore.claim_eq_found.1 hk)
      · next hgr =>
        -- the slot is pending while the module is made, one level above all that is claimed then
        obtain ⟨hk, rfl⟩ := SharedStore.claim_eq_granted.1 hgr
        let k := document.edition (depth + 1)
        let l₁ : Linker := { l with modules := l.modules.insert k .pending }
        let l₂ := l₁.noteCall document.uri
        have hc₂ : l₂.Coherent := (hc.granted hk).noteCall document.uri
        have hl₂ : l₂.Rests (depth + 1) := hl.claim (k := k) rfl
        obtain ⟨p, m, hrun, hcm, hg, hp⟩ :=
          ends_make hr (ih document (depth + 1)) document l.drafts l₂ hc₂ hl₂
        have hpend : m.modules.get? k = some .pending :=
          hg.pending.2 (by simp [l₂, l₁, noteCall, Table.get?_insert])
        have hf : m.Fresh k p := by
          refine hp.fresh hc hg.drafts fun n hn => ?_
          rcases hg.own hn with hn | hn
          · exact .inl ((ready_granted hk _ _).1 hn)
          · exact .inr hn
        refine ⟨p.outcome, { m with modules := m.modules.publish k p }, ?_, hcm.publish hpend hf,
          .made hk hg (hr.read hd) rfl fun n hn => ?_, fun n hn => ?_⟩
        · exact run_bind hrun
        · exact Nat.le_of_eq (congrArg NodeId.build (hp.id hn)).symm
        · exact hf.holds m hn
      · next hk =>
        have hh := hl _ (SharedStore.claim_eq_busy.1 hk)
        exact absurd hh (Nat.not_succ_le_self depth)

theorem ends_follow (hr : env.Regular) (importing : Document) (depth : Nat) (edge : ImportEdge)
    (l : Linker) : Ends env depth Keeps (.follow env.maxDepth importing depth edge) l :=
  ends_followAt hr _ importing depth edge l

end Linker

end ModuleLens
