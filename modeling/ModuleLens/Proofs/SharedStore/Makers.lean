import ModuleLens.Proofs.SharedStore
import ModuleLens.SharedStore.Threads

/-! Who makes the values of a shared store.  A slot is pending exactly while one thread makes its
value; a value that was made stays until it is evicted, and eviction leaves pending slots alone.
What a thread is answered is what it made itself or what stands in the slot when it looks. -/

namespace ModuleLens

namespace SharedStore

variable {κ ν : Type} [DecidableEq κ]

/-- What one thread may do to the pending slots: nothing, or it claims a free slot, or it settles
the slot that it claimed last. -/
def Shifts (s s' : SharedStore κ ν) (before after : List κ) : Prop :=
  (after = before ∧ ∀ k, s'.get? k = some .pending ↔ s.get? k = some .pending) ∨
  (∃ key, after = key :: before ∧ s.get? key = none ∧
    ∀ k, s'.get? k = some .pending ↔ k = key ∨ s.get? k = some .pending) ∨
  ∃ key, before = key :: after ∧
    ∀ k, s'.get? k = some .pending ↔ k ≠ key ∧ s.get? k = some .pending

theorem Shifts.same (s : SharedStore κ ν) (keys : List κ) : Shifts s s keys keys :=
  .inl ⟨rfl, fun _ => Iff.rfl⟩

theorem Shifts.claim {s : SharedStore κ ν} {key : κ} (h : s.get? key = none) (keys : List κ) :
    Shifts s (s.insert key .pending) keys (key :: keys) := by
  refine .inr (.inl ⟨key, rfl, h, fun k => ?_⟩)
  rw [Table.get?_insert]
  by_cases hk : k = key <;> simp [hk]

theorem Shifts.publish (s : SharedStore κ ν) (key : κ) (value : ν) (keys : List κ) :
    Shifts s (s.publish key value) (key :: keys) keys := by
  refine .inr (.inr ⟨key, rfl, fun k => ?_⟩)
  rw [get?_publish]
  by_cases hk : k = key <;> simp [hk]

theorem Shifts.abandon (s : SharedStore κ ν) (key : κ) (keys : List κ) :
    Shifts s (s.abandon key) (key :: keys) keys := by
  refine .inr (.inr ⟨key, rfl, fun k => ?_⟩)
  rw [get?_abandon]
  by_cases hk : k = key <;> simp [hk]

/-- A thread shifts its own slots only: if what it makes and what the others make were apart and all
that is pending, they still are. -/
theorem Shifts.apart {s s' : SharedStore κ ν} {before after : List κ} {others : κ → Prop}
    (h : Shifts s s' before after) (hn : before.Nodup)
    (hp : ∀ k, s.get? k = some .pending ↔ k ∈ before ∨ others k) (hd : ∀ k ∈ before, ¬ others k) :
    after.Nodup ∧ (∀ k, s'.get? k = some .pending ↔ k ∈ after ∨ others k) ∧
      ∀ k ∈ after, ¬ others k := by
  obtain ⟨rfl, hk⟩ | ⟨key, rfl, hfree, hk⟩ | ⟨key, rfl, hk⟩ := h
  · exact ⟨hn, fun k => (hk k).trans (hp k), hd⟩
  · -- the slot was free, so no one was making its value
    have hnew : ¬ (key ∈ before ∨ others key) := by
      rw [← hp key, hfree]
      nofun
    rw [not_or] at hnew
    refine ⟨List.nodup_cons.2 ⟨hnew.1, hn⟩, fun k => ?_, fun k hm => ?_⟩
    · rw [hk k, hp k, List.mem_cons, or_assoc]
    · rcases List.mem_cons.1 hm with rfl | hm
      · exact hnew.2
      · exact hd k hm
  · -- the thread made the value, so no other thread did, and it did so once
    obtain ⟨hout, hn⟩ := List.nodup_cons.1 hn
    refine ⟨hn, fun k => ?_, fun k hm => hd k (List.mem_cons_of_mem _ hm)⟩
    rw [hk k, hp k, List.mem_cons]
    constructor
    · rintro ⟨hne, (rfl | hm) | ho⟩
      · exact absurd rfl hne
      · exact .inl hm
      · exact .inr ho
    · rintro (hm | ho)
      · exact ⟨fun he => hout (he ▸ hm), .inl (.inr hm)⟩
      · exact ⟨fun he => hd key List.mem_cons_self (he ▸ ho), .inr ho⟩

end SharedStore

namespace Phase

variable {κ ν : Type}

def making? : Phase κ ν → Option κ
  | making key => some key
  | _ => none

end Phase

namespace Threads

variable {κ ν : Type}

def makings (stack : List (Phase κ ν)) : List κ := stack.filterMap Phase.making?

/-- Whether a thread is making the value of a key, perhaps with requests for other values on the
way. -/
def Makes (s : Threads κ ν) (thread : Nat) (key : κ) : Prop := key ∈ makings (s.frames thread)

def Nested (stack : List (Phase κ ν)) : Prop := ∀ phase ∈ stack.tail, ∃ key, phase = .making key

theorem Nested.wake {stack : List (Phase κ ν)} (h : Nested stack) : Nested (wake stack) := by
  rcases stack with _ | ⟨_ | _ | _ | _ | _ | _, rest⟩ <;> exact h

theorem Nested.tail {phase : Phase κ ν} {rest : List (Phase κ ν)} (h : Nested (phase :: rest)) :
    Nested rest :=
  fun p hp => h p (List.mem_of_mem_tail hp)

theorem Nested.push {stack : List (Phase κ ν)} (h : Nested stack) (hf : isFree stack)
    (phase : Phase κ ν) : Nested (phase :: stack) := by
  intro p hp
  have hp : p ∈ stack := hp
  cases stack with
  | nil => cases hp
  | cons first rest =>
    rcases List.mem_cons.1 hp with rfl | hp
    · cases p with
      | making key => exact ⟨key, rfl⟩
      | _ => cases hf
    · exact h p hp

theorem makings_wake (stack : List (Phase κ ν)) : makings (wake stack) = makings stack := by
  rcases stack with _ | ⟨_ | _ | _ | _ | _ | _, rest⟩ <;> rfl

theorem wake_ne_asleep (stack : List (Phase κ ν)) (key : κ) (rest : List (Phase κ ν)) :
    wake stack ≠ .asleep key :: rest := by
  rcases stack with _ | ⟨_ | _ | _ | _ | _ | _, rest⟩ <;> simp [wake]

theorem wake_eq_telling {stack rest : List (Phase κ ν)} {key : κ} {answer : Answer ν} :
    wake stack = .telling key answer :: rest ↔ stack = .telling key answer :: rest := by
  rcases stack with _ | ⟨_ | _ | _ | _ | _ | _, rest⟩ <;> simp [wake]

theorem frames_wake (s : Threads κ ν) (t : Nat) :
    ({ s with active := s.active.map wake } : Threads κ ν).frames t = wake (s.frames t) := by
  simp only [frames, Table.get?_map]
  cases s.active.get? t <;> rfl

variable [DecidableEq κ]

/-- What a step does to the stack of its thread and to the store, action by action. -/
inductive Turn (store : SharedStore κ ν) :
    Action κ ν → List (Phase κ ν) → List (Phase κ ν) → SharedStore κ ν → Prop where
  | request (key : κ) {stack : List (Phase κ ν)} (h : isFree stack) :
      Turn store (.request key) stack (.looking key :: stack) store
  | found {key : κ} {value : ν} (rest : List (Phase κ ν))
      (h : store.get? key = some (.ready value)) :
      Turn store .look (.looking key :: rest) (.over key (.value value) :: rest) store
  | sleep {key : κ} (rest : List (Phase κ ν)) (h : store.get? key = some .pending) :
      Turn store .look (.looking key :: rest) (.asleep key :: rest) store
  | claim {key : κ} (rest : List (Phase κ ν)) (h : store.get? key = none) :
      Turn store .look (.looking key :: rest) (.making key :: rest) (store.insert key .pending)
  | foundLate {key : κ} {value : ν} (rest : List (Phase κ ν))
      (h : store.get? key = some (.ready value)) :
      Turn store .look (.late key :: rest) (.over key (.value value) :: rest) store
  | giveUp {key : κ} (rest : List (Phase κ ν)) (h : ∀ value, store.get? key ≠ some (.ready value)) :
      Turn store .look (.late key :: rest) (.over key .timedOut :: rest) store
  | rouse (key : κ) (rest : List (Phase κ ν)) :
      Turn store .rouse (.asleep key :: rest) (.looking key :: rest) store
  | expire (key : κ) (rest : List (Phase κ ν)) :
      Turn store .expire (.asleep key :: rest) (.late key :: rest) store
  | publish (key : κ) (value : ν) (rest : List (Phase κ ν)) :
      Turn store (.publish value) (.making key :: rest) (.telling key (.value value) :: rest)
        (store.publish key value)
  | unwind (key : κ) (rest : List (Phase κ ν)) :
      Turn store .unwind (.making key :: rest) (.telling key .unwound :: rest) (store.abandon key)
  | tell (key : κ) (answer : Answer ν) (rest : List (Phase κ ν)) :
      Turn store .tell (.telling key answer :: rest) (.over key answer :: rest) store
  | leave (key : κ) (answer : Answer ν) (rest : List (Phase κ ν)) :
      Turn store .leave (.over key answer :: rest) rest store
  | peek (key : κ) {stack : List (Phase κ ν)} (h : isFree stack) :
      Turn store (.peek key) stack stack store
  | remove (key : κ) {stack : List (Phase κ ν)} (h : isFree stack) :
      Turn store (.remove key) stack stack (store.remove key).2
  | prune (keep : κ → ν → Bool) {stack : List (Phase κ ν)} (h : isFree stack) :
      Turn store (.prune keep) stack stack (store.prune keep)

/-- What a step does to the stacks of the other threads: telling wakes the sleepers. -/
def bystander : Action κ ν → List (Phase κ ν) → List (Phase κ ν)
  | .tell, stack => wake stack
  | _, stack => stack

omit [DecidableEq κ] in
theorem makings_bystander (a : Action κ ν) (stack : List (Phase κ ν)) :
    makings (bystander a stack) = makings stack := by
  cases a with
  | tell => exact makings_wake stack
  | _ => rfl

omit [DecidableEq κ] in
theorem Nested.bystander {stack : List (Phase κ ν)} (h : Nested stack) (a : Action κ ν) :
    Nested (bystander a stack) := by
  cases a with
  | tell => exact h.wake
  | _ => exact h

theorem step_cases {s s' : Threads κ ν} {t : Nat} {a : Action κ ν} (h : s.step t a = some s') :
    Turn s.store a (s.frames t) (s'.frames t) s'.store ∧
      ∀ u, u ≠ t → s'.frames u = bystander a (s.frames u) := by
  -- every action but telling leaves the other threads alone
  have put (store : SharedStore κ ν) {stack : List (Phase κ ν)} {b : Action κ ν} (hb : b ≠ .tell)
      (ht : Turn s.store b (s.frames t) stack store) :
      Turn s.store b (s.frames t) (({ s with store } : Threads κ ν).setFrames t stack |>.frames t)
          store ∧
        ∀ u, u ≠ t → (({ s with store } : Threads κ ν).setFrames t stack |>.frames u) =
          bystander b (s.frames u) := by
    refine ⟨by simpa [frames_setFrames] using ht, fun u hu => ?_⟩
    simp only [frames_setFrames, hu, if_false]
    cases b <;> first | rfl | exact absurd rfl hb
  unfold step at h
  split at h
  · split at h
    · next hf =>
      cases h
      exact put _ nofun (.request _ hf)
    · cases h
  · next key rest hs =>
    split at h
    · next value hc =>
      cases h
      exact put _ nofun (hs ▸ .found rest (SharedStore.claim_eq_found.1 hc))
    · next hc =>
      cases h
      exact put _ nofun (hs ▸ .sleep rest (SharedStore.claim_eq_busy.1 hc))
    · next store hc =>
      cases h
      obtain ⟨hn, rfl⟩ := SharedStore.claim_eq_granted.1 hc
      exact put _ nofun (hs ▸ .claim rest hn)
  · next key rest hs =>
    split at h
    · next value hv =>
      cases h
      exact put _ nofun (hs ▸ .foundLate rest (SharedStore.value?_eq_some.1 hv))
    · next hv =>
      cases h
      refine put _ nofun (hs ▸ .giveUp rest fun value hk => ?_)
      rw [SharedStore.value?_eq_some.2 hk] at hv
      cases hv
  · next key rest hs =>
    cases h
    exact put _ nofun (hs ▸ .rouse key rest)
  · next key rest hs =>
    cases h
    exact put _ nofun (hs ▸ .expire key rest)
  · next value key rest hs =>
    cases h
    exact put _ nofun (hs ▸ .publish key value rest)
  · next key rest hs =>
    cases h
    exact put _ nofun (hs ▸ .unwind key rest)
  · next key answer rest hs =>
    cases h
    refine ⟨?_, fun u hu => ?_⟩
    · rw [frames_setFrames, if_pos rfl, hs]
      exact .tell key answer rest
    · rw [frames_setFrames, if_neg hu, frames_wake]
      rfl
  · next key answer rest hs =>
    cases h
    exact put _ nofun (hs ▸ .leave key answer rest)
  · split at h
    · next hf =>
      cases h
      exact ⟨.peek _ hf, fun _ _ => rfl⟩
    · cases h
  · split at h
    · next hf =>
      cases h
      exact ⟨.remove _ hf, fun _ _ => rfl⟩
    · cases h
  · split at h
    · next hf =>
      cases h
      exact ⟨.prune _ hf, fun _ _ => rfl⟩
    · cases h
  · cases h

section Turn

variable {store store' : SharedStore κ ν} {a : Action κ ν} {stack stack' : List (Phase κ ν)}

theorem Turn.distinct (h : Turn store a stack stack' store') (hd : Table.Distinct store) :
    Table.Distinct store' := by
  cases h with
  | claim rest h => exact hd.insert _ _
  | publish key value rest => exact hd.insert _ _
  | unwind key rest => exact hd.erase _
  | remove key h =>
    rw [SharedStore.remove]
    split
    · exact hd.erase _
    · exact hd
  | prune keep h => exact hd.filter _
  | _ => exact hd

theorem Turn.nested (h : Turn store a stack stack' store') (hn : Nested stack) : Nested stack' := by
  cases h with
  | request key h => exact hn.push h _
  | leave key answer rest => exact hn.tail
  | _ => exact hn

theorem Turn.shifts (h : Turn store a stack stack' store') (hd : Table.Distinct store) :
    SharedStore.Shifts store store' (makings stack) (makings stack') := by
  cases h with
  | claim rest h => exact .claim h (makings rest)
  | publish key value rest => exact .publish store key value (makings rest)
  | unwind key rest => exact .abandon store key (makings rest)
  | remove key h => exact .inl ⟨rfl, fun k => SharedStore.get?_remove_eq_pending⟩
  | prune keep h => exact .inl ⟨rfl, fun k => SharedStore.get?_prune_eq_pending hd⟩
  | _ => exact .same store _

theorem Turn.pending (h : Turn store a stack stack' store') (hd : Table.Distinct store)
    (ha : (∃ k, a = .remove k) ∨ ∃ keep, a = .prune keep) (key : κ) :
    store.get? key = some .pending ↔ store'.get? key = some .pending := by
  rcases ha with ⟨k, rfl⟩ | ⟨keep, rfl⟩
  · cases h
    exact SharedStore.get?_remove_eq_pending.symm
  · cases h
    exact (SharedStore.get?_prune_eq_pending hd).symm

theorem Turn.ready (h : Turn store a stack stack' store') (hd : Table.Distinct store) {key : κ}
    {value : ν} (hk : store.get? key = some (.ready value)) (hm : key ∉ makings stack) :
    store'.get? key = some (.ready value) ∨
      store'.get? key = none ∧ ((∃ k, a = .remove k) ∨ ∃ keep, a = .prune keep) := by
  cases h with
  | @claim k rest h =>
    have hne : key ≠ k := by
      rintro rfl
      rw [hk] at h
      cases h
    left
    rw [Table.get?_insert, if_neg hne, hk]
  | publish k v rest =>
    have hne : key ≠ k := by
      rintro rfl
      exact hm List.mem_cons_self
    left
    rw [SharedStore.get?_publish, if_neg hne, hk]
  | unwind k rest =>
    have hne : key ≠ k := by
      rintro rfl
      exact hm List.mem_cons_self
    left
    rw [SharedStore.get?_abandon, if_neg hne, hk]
  | remove k h =>
    rcases SharedStore.get?_remove_of_ready hk k with hr | hr
    · exact .inl hr
    · exact .inr ⟨hr, .inl ⟨k, rfl⟩⟩
  | prune keep h =>
    rcases SharedStore.get?_prune_of_ready hd hk keep with hr | hr
    · exact .inl hr
    · exact .inr ⟨hr, .inr ⟨keep, rfl⟩⟩
  | _ => exact .inl hk

theorem Turn.tells {key : κ} {answer : Answer ν} {rest : List (Phase κ ν)}
    (h : Turn store a stack (.telling key answer :: rest) store') (hn : Nested stack) :
    stack = .making key :: rest ∧
      ((∃ value, a = .publish value ∧ answer = .value value) ∨ a = .unwind ∧ answer = .unwound) := by
  cases h with
  | publish key value rest => exact ⟨rfl, .inl ⟨value, rfl, rfl⟩⟩
  | unwind key rest => exact ⟨rfl, .inr ⟨rfl, rfl⟩⟩
  | leave k b rest =>
    obtain ⟨k, hk⟩ := hn _ List.mem_cons_self
    cases hk
  | peek k h => cases h
  | remove k h => cases h
  | prune keep h => cases h

theorem Turn.of_telling {key : κ} {answer : Answer ν} {rest : List (Phase κ ν)}
    (h : Turn store a (.telling key answer :: rest) stack' store') : a = .tell := by
  cases h with
  | tell key answer rest => rfl
  | request k h => cases h
  | peek k h => cases h
  | remove k h => cases h
  | prune keep h => cases h

theorem Turn.sleeps {key : κ} {rest : List (Phase κ ν)}
    (h : Turn store a stack (.asleep key :: rest) store') (hn : Nested stack) :
    store.get? key = some .pending ∧ stack = .looking key :: rest := by
  cases h with
  | sleep rest h => exact ⟨h, rfl⟩
  | leave k b rest =>
    obtain ⟨k, hk⟩ := hn _ List.mem_cons_self
    cases hk
  | peek k h => cases h
  | remove k h => cases h
  | prune keep h => cases h

theorem Turn.returns {key : κ} {answer : Answer ν} {phase : Phase κ ν} {rest : List (Phase κ ν)}
    (h : Turn store a (phase :: rest) (.over key answer :: rest) store') :
    store' = store ∧
      ((∃ value, answer = .value value ∧ store.get? key = some (.ready value)) ∨
        (answer = .timedOut ∧ ∀ value, store.get? key ≠ some (.ready value)) ∨
        phase = .telling key answer) := by
  -- the two stacks share `rest`, which a case split on the turn cannot solve for
  generalize hs : phase :: rest = stack at h
  generalize hs' : Phase.over key answer :: rest = stack' at h
  cases h with
  | found rest h =>
    cases hs'
    exact ⟨rfl, .inl ⟨_, rfl, h⟩⟩
  | foundLate rest h =>
    cases hs'
    exact ⟨rfl, .inl ⟨_, rfl, h⟩⟩
  | giveUp rest h =>
    cases hs'
    exact ⟨rfl, .inr (.inl ⟨rfl, h⟩)⟩
  | tell key answer rest =>
    cases hs'
    cases hs
    exact ⟨rfl, .inr (.inr rfl)⟩
  | leave k b rest =>
    have hl := congrArg List.length ((List.cons.inj hs).2.trans hs'.symm)
    simp at hl
  | peek k h =>
    rw [← hs'] at h
    cases h
  | remove k h =>
    rw [← hs'] at h
    cases h
  | prune keep h =>
    rw [← hs'] at h
    cases h
  | _ => cases hs'

theorem Turn.makes (h : Turn store a stack stack' store') {key : κ} (hk : key ∈ makings stack) :
    key ∈ makings stack' ∨ ∃ answer rest, stack' = .telling key answer :: rest := by
  cases h with
  | claim rest h => exact .inl (List.mem_cons_of_mem _ hk)
  | publish k value rest =>
    rcases List.mem_cons.1 hk with rfl | hk
    · exact .inr ⟨_, _, rfl⟩
    · exact .inl hk
  | unwind k rest =>
    rcases List.mem_cons.1 hk with rfl | hk
    · exact .inr ⟨_, _, rfl⟩
    · exact .inl hk
  | _ => exact .inl hk

end Turn

/-- The invariant that ties slots to threads: a slot is pending exactly while some thread makes its
value, and it is one thread, once.  Below its last request a thread is making values. -/
structure Tended (s : Threads κ ν) : Prop where
  distinct : Table.Distinct s.store
  pending : ∀ key, s.store.get? key = some .pending ↔ ∃ t, s.Makes t key
  single : ∀ {key t u}, s.Makes t key → s.Makes u key → t = u
  once : ∀ t, (makings (s.frames t)).Nodup
  nested : ∀ t, Nested (s.frames t)

theorem tended_empty : Tended ({} : Threads κ ν) := by
  refine ⟨Table.distinct_empty, fun key => ⟨fun h => (nomatch h), fun ⟨t, h⟩ => ?_⟩, fun h => ?_,
    fun t => List.nodup_nil, fun t phase h => absurd h List.not_mem_nil⟩
  · exact absurd h List.not_mem_nil
  · exact absurd h List.not_mem_nil

omit [DecidableEq κ] in
theorem exists_makes_iff (s : Threads κ ν) (t : Nat) (key : κ) :
    (∃ u, s.Makes u key) ↔ key ∈ makings (s.frames t) ∨ ∃ u, u ≠ t ∧ s.Makes u key := by
  constructor
  · rintro ⟨u, hm⟩
    by_cases hu : u = t
    · exact .inl (hu ▸ hm)
    · exact .inr ⟨u, hu, hm⟩
  · rintro (hm | ⟨u, _, hm⟩)
    · exact ⟨t, hm⟩
    · exact ⟨u, hm⟩

theorem Tended.step {s s' : Threads κ ν} (h : s.Tended) {t : Nat} {a : Action κ ν}
    (hs : s.step t a = some s') : s'.Tended := by
  obtain ⟨hturn, hothers⟩ := step_cases hs
  -- what the other threads make stays as it is, and apart from what this one makes
  let others (key : κ) : Prop := ∃ u, u ≠ t ∧ s.Makes u key
  have hother {u : Nat} (hu : u ≠ t) (key : κ) : s'.Makes u key ↔ s.Makes u key := by
    rw [Makes, hothers u hu, makings_bystander]
    exact Iff.rfl
  have hpending (key : κ) :
      s.store.get? key = some .pending ↔ key ∈ makings (s.frames t) ∨ others key := by
    rw [h.pending key, s.exists_makes_iff t]
  have hd (key : κ) (hm : key ∈ makings (s.frames t)) : ¬ others key := by
    rintro ⟨u, hu, ho⟩
    exact hu (h.single ho hm)
  obtain ⟨hn, hp, hd⟩ := (hturn.shifts h.distinct).apart (h.once t) hpending hd
  refine ⟨hturn.distinct h.distinct, fun key => ?_, fun {key u v} hu hv => ?_, fun u => ?_,
    fun u => ?_⟩
  · rw [hp key, s'.exists_makes_iff t]
    exact or_congr_right (exists_congr fun u => and_congr_right fun hu => (hother hu key).symm)
  · by_cases hut : u = t <;> by_cases hvt : v = t
    · exact hut.trans hvt.symm
    · exact absurd ⟨v, hvt, (hother hvt key).1 hv⟩ (hd key (hut ▸ hu))
    · exact absurd ⟨u, hut, (hother hut key).1 hu⟩ (hd key (hvt ▸ hv))
    · exact h.single ((hother hut key).1 hu) ((hother hvt key).1 hv)
  · by_cases hu : u = t
    · exact hu ▸ hn
    · rw [hothers u hu, makings_bystander]
      exact h.once u
  · by_cases hu : u = t
    · exact hu ▸ hturn.nested (h.nested t)
    · rw [hothers u hu]
      exact (h.nested u).bystander a

end Threads

end ModuleLens
