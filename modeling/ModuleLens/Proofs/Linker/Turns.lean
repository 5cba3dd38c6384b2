import ModuleLens.Proofs.Linker.Confluence
import ModuleLens.Proofs.Linker.Holding

/-! Schedules that are played out.  Callers that follow a single import each take turns; whose turn
it is, and whether the caller gives up rather than waits, is said by a list. -/

namespace ModuleLens

open Node

variable {env : ImportEnv}

namespace Errand

variable {α : Type}

/-- The next step of an errand.  At a pending slot there is none, unless the thread gives up. -/
def advance (env : ImportEnv) (giveUp : Bool) : Errand α → Linker → Option (Errand α × Linker)
  | finished _, _ => none
  | hung, _ => none
  | load importing path next, l => some (next (env.catalog.lookup importing path), l)
  | call document _ next, l =>
    some (next (env.source document) l.drafts, l.noteCall document.uri)
  | claim k next, l =>
    match l.modules.get? k with
    | some (.ready product) => some (next (.found product), l)
    | some .pending => if giveUp then some (next .expired, l) else none
    | none => some (next .granted, { l with modules := l.modules.insert k .pending })
  | publish k product next, l => some (next, { l with modules := l.modules.publish k product })
  | abandon k next, l => some (next, { l with modules := l.modules.abandon k })

theorem step_of_advance {giveUp : Bool} {e e' : Errand α} {l l' : Linker}
    (h : e.advance env giveUp l = some (e', l')) : ∃ deed, Step env deed e l e' l' := by
  cases e with
  | finished result => cases h
  | hung => cases h
  | load importing path next =>
    cases h
    exact ⟨_, .load importing path next l⟩
  | call document depth next =>
    cases h
    exact ⟨_, .call document depth next l⟩
  | claim k next =>
    rcases hk : l.modules.get? k with _ | _ | product
    · simp only [advance, hk, Option.some.injEq, Prod.mk.injEq] at h
      obtain ⟨rfl, rfl⟩ := h
      exact ⟨_, .granted next hk⟩
    · cases giveUp with
      | false => simp [advance, hk] at h
      | true =>
        simp only [advance, hk, if_true, Option.some.injEq, Prod.mk.injEq] at h
        obtain ⟨rfl, rfl⟩ := h
        exact ⟨_, .expire next hk⟩
    · simp only [advance, hk, Option.some.injEq, Prod.mk.injEq] at h
      obtain ⟨rfl, rfl⟩ := h
      exact ⟨_, .found next hk⟩
  | publish k product next =>
    cases h
    exact ⟨_, .publish k product e' l⟩
  | abandon k next =>
    cases h
    exact ⟨_, .abandon k e' l⟩

end Errand

namespace Caller

def advance (env : ImportEnv) (giveUp : Bool) : Caller → Linker → Option (Caller × Linker)
  | resolving importing depth edge errand, l =>
    match errand with
    | .finished (some outcome) => some (.resolved importing depth edge outcome, l)
    | errand =>
      (errand.advance env giveUp l).map fun (e, l) => (.resolving importing depth edge e, l)
  | _, _ => none

theorem step_of_advance {giveUp : Bool} {a a' : Caller} {l l' : Linker}
    (h : a.advance env giveUp l = some (a', l')) : ∃ deed, Step env deed a l a' l' := by
  cases a with
  | resolving importing depth edge errand =>
    simp only [advance] at h
    split at h
    · cases h
      exact ⟨_, .resolved importing depth edge _ l⟩
    · obtain ⟨⟨e', m⟩, he, heq⟩ := Option.map_eq_some_iff.1 h
      cases heq
      obtain ⟨deed, hstep⟩ := Errand.step_of_advance he
      exact ⟨deed, .resolve importing depth edge hstep⟩
  | _ => cases h

end Caller

namespace Crew

/-- The turn of one caller.  Nothing happens if it cannot go on. -/
def turn (env : ImportEnv) (c : Crew) (move : Nat × Bool) : Crew :=
  match c.callers.drop move.1 with
  | [] => c
  | a :: post =>
    match a.advance env move.2 c.linker with
    | none => c
    | some (a', l) => ⟨l, c.active, c.callers.take move.1 ++ a' :: post⟩

def play (env : ImportEnv) (c : Crew) (moves : List (Nat × Bool)) : Crew :=
  moves.foldl (turn env) c

theorem course_turn {start c : Crew} {deeds : List Deed} (h : Course env start deeds c)
    (move : Nat × Bool) : ∃ deeds', Course env start deeds' (c.turn env move) := by
  simp only [turn]
  split
  · exact ⟨deeds, h⟩
  · next a post hpost =>
    split
    · exact ⟨deeds, h⟩
    · next a' l hadvance =>
      obtain ⟨deed, hstep⟩ := Caller.step_of_advance hadvance
      have hs := Step.call c.active (c.callers.take move.1) post hstep
      rw [← hpost, List.take_append_drop] at hs
      exact ⟨_, .step h hs⟩

theorem course_play (env : ImportEnv) (start : Crew) (moves : List (Nat × Bool)) :
    ∃ deeds, Course env start deeds (start.play env moves) := by
  have hall (c : Crew) (h : ∃ deeds, Course env start deeds c) :
      ∃ deeds, Course env start deeds (c.play env moves) := by
    induction moves generalizing c with
    | nil => exact h
    | cons move moves ih =>
      obtain ⟨deeds, h⟩ := h
      exact ih _ (course_turn h move)
  exact hall start ⟨[], .refl⟩

end Crew

/-- Two callers follow the two imports of the entry document of the diamond. -/
def diamondCallers : List Caller :=
  ["b.pkl", "c.pkl"].map fun path =>
    let edge : ImportEdge := ⟨.plain, path.toList⟩
    .resolving diamondEntry 0 edge (.follow diamond.maxDepth diamondEntry 0 edge)

theorem diamondCallers_begin : ∀ a ∈ diamondCallers, a.Begins diamond := by
  intro a ha
  obtain ⟨path, _, rfl⟩ := List.mem_map.1 ha
  rfl

/-- The second caller is about to build the shared module, and the first one waits for it. -/
def meeting : List (Nat × Bool) := List.replicate 5 (1, false) ++ List.replicate 4 (0, false)

end ModuleLens
