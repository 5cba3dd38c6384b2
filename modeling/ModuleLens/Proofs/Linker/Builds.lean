import ModuleLens.Proofs.Linker.Progress
import ModuleLens.Proofs.Linker.Returns

/-! Builds that come back, step by step.  If the module source neither throws nor hangs, a thread
that builds an entry document keeps to its tree and its snapshot, whatever is stored or looked up in
between, and can go on until it has a module: a wait that is in vain takes too long in the end. -/

namespace ModuleLens

open Node

namespace Errand

variable {α : Type} {env : ImportEnv}

theorem Step.returns {deed : Deed} {e e' : Errand α} {l l' : Linker} (h : Step env deed e l e' l')
    (hd : deed ≠ .unwound) (he : e.Returns env.source) : e'.Returns env.source := by
  cases h with
  | load importing path next => exact he _
  | call document depth next => exact he _
  | unwind document depth next => exact absurd rfl hd
  | found next hk => exact he _
  | granted next hk => exact he _
  | expire next hk => exact he _
  | publish edition product => exact he
  | abandon edition => exact he

theorem Returns.able {e : Errand α} (h : e.Returns env.source) (l : Linker) :
    e.Able env (fun deed => deed ≠ .unwound) l := by
  cases e with
  | finished result => exact .inl ⟨result, rfl⟩
  | hung => exact h.elim
  | load importing path next => exact .inr ⟨_, _, _, .load importing path next l, nofun⟩
  | call document depth next => exact .inr ⟨_, _, _, .call document depth next l, nofun⟩
  | claim edition next =>
    cases hk : l.modules.get? edition with
    | none => exact .inr ⟨_, _, _, .granted next hk, nofun⟩
    | some slot =>
      cases slot with
      | pending => exact .inr ⟨_, _, _, .expire next hk, nofun⟩
      | ready product => exact .inr ⟨_, _, _, .found next hk, nofun⟩
  | publish edition product next =>
    exact .inr ⟨_, _, _, .publish edition product next l, nofun⟩
  | abandon edition next => exact .inr ⟨_, _, _, .abandon edition next l, nofun⟩

end Errand

namespace Caller

variable {env : ImportEnv} {tree : SyntaxTree} {document : Document}

/-- A thread that builds the module of a snapshot from its tree and comes back if the module source
does. -/
def Builds (source : Document → Reading) (tree : SyntaxTree) (document : Document) : Caller → Prop
  | announcing entry _ _ | collecting entry _ => entry.tree = tree ∧ entry.document = document
  | following entry _ _ errand =>
    entry.tree = tree ∧ entry.document = document ∧ errand.Returns source
  | built tree' document' module =>
    tree' = tree ∧ document' = document ∧
      ∃ number answers, module = (draftModule number tree document 0).link answers
  | _ => False

theorem Step.builds (hs : ∀ document, (env.source document).comesBack) {deed : Deed}
    {a a' : Caller} {l l' : Linker} (h : Step env deed a l a' l') (hd : deed ≠ .unwound)
    (ha : a.Builds env.source tree document) : a'.Builds env.source tree document := by
  cases h with
  | inline rs _ ht =>
    exact ⟨ha.1, ha.2, Errand.returns_followAt hs env.maxDepth _ _ 0 _⟩
  | follow entry r rs h => exact ⟨ha.1, ha.2.1, h.returns hd ha.2.2⟩
  | followed entry r rs outcome => exact ⟨ha.1, ha.2.1⟩
  | followUnwound entry r rs => cases ha.2.2
  | link entry =>
    obtain ⟨rfl, rfl⟩ := ha
    exact ⟨rfl, rfl, entry.number, entry.answers, rfl⟩
  | announce | collect | wait | reply | lost | giveUp => exact ha
  | read | readFailed | readUnwound | resolve | resolved | resolveUnwound => exact ha.elim

/-- A thread that builds a module can go on: it gives up what it would wait for in vain. -/
theorem Builds.exists_step {a : Caller} (h : a.Builds env.source tree document)
    (ho : a.isOver = false) (l : Linker) :
    ∃ deed a' l', Step env deed a l a' l' ∧ deed ≠ .unwound ∧ Further a' a := by
  cases he : a.errand? with
  | some e =>
    have hable : e.Able env (fun deed => deed ≠ .unwound) l := by
      cases a with
      | following entry r rs errand =>
        cases he
        exact h.2.2.able l
      | resolving importing depth edge errand => exact h.elim
      | _ => cases he
    exact step_of_able he hable nofun
  | none =>
    have hread (d : Document) (hd : a = .reading d) :
        env.source d = .failed ∨ ∃ tree, env.source d = .tree tree := by
      subst hd
      exact h.elim
    rcases Caller.exists_step hread he ho l with
      ⟨deed, a', l', hstep, hcalm, hf⟩ | ⟨entry, r, rs, ticket, rest, rfl, ht, hrep⟩
    · refine ⟨deed, a', l', hstep, ?_, hf⟩
      rintro rfl
      cases hcalm
    · refine ⟨_, _, _, .giveUp rs ht hrep, nofun, .right _ (.left _ _ ?_)⟩
      rw [List.length_cons]
      omega

end Caller

end ModuleLens
