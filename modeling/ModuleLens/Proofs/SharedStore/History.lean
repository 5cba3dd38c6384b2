import Mathlib.Logic.ExistsUnique
import ModuleLens.Proofs.SharedStore.Makers

/-! Histories of threads at a shared store.  Every interleaving is a list of moments, the latest
first.  A value is made at most once between evictions, answers are the caller's own value or the
value in the slot, and no thread sleeps at a slot that no one is about to settle or to tell of. -/

namespace ModuleLens

namespace Threads

variable {κ ν : Type} [DecidableEq κ]

/-- A step of a thread and the states around it. -/
structure Moment (κ ν : Type) where
  before : Threads κ ν
  thread : Nat
  action : Action κ ν
  after : Threads κ ν

inductive Run : List (Moment κ ν) → Threads κ ν → Prop where
  | start : Run [] {}
  | next {ms : List (Moment κ ν)} {s s' : Threads κ ν} {t : Nat} {a : Action κ ν} (h : Run ms s)
      (hs : s.step t a = some s') : Run (⟨s, t, a, s'⟩ :: ms) s'

namespace Moment

/-- The thread publishes the value that it was making, or is thrown out and clears the slot. -/
def Settles (m : Moment κ ν) (key : κ) (answer : Answer ν) : Prop :=
  (∃ rest, m.before.frames m.thread = .making key :: rest) ∧
    ((∃ value, m.action = .publish value ∧ answer = .value value) ∨
      m.action = .unwind ∧ answer = .unwound)

def Evicts (m : Moment κ ν) (key : κ) : Prop :=
  ((∃ k, m.action = .remove k) ∨ ∃ keep, m.action = .prune keep) ∧
    (∃ value, m.before.store.get? key = some (.ready value)) ∧ m.after.store.get? key = none

/-- The thread's last request comes to its answer. -/
def Returns (m : Moment κ ν) (key : κ) (answer : Answer ν) : Prop :=
  ∃ phase rest, m.before.frames m.thread = phase :: rest ∧
    m.after.frames m.thread = .over key answer :: rest

end Moment

/-- The last step of a thread was to settle a slot. -/
def JustSettled (ms : List (Moment κ ν)) (t : Nat) (key : κ) (answer : Answer ν) : Prop :=
  ∃ later m earlier, ms = later ++ m :: earlier ∧ m.thread = t ∧ m.Settles key answer ∧
    ∀ x ∈ later, x.thread ≠ t

theorem Run.tended {ms : List (Moment κ ν)} {s : Threads κ ν} (h : Run ms s) : s.Tended := by
  induction h with
  | start => exact tended_empty
  | next _ hs ih => exact ih.step hs

theorem Run.split {later earlier : List (Moment κ ν)} {m : Moment κ ν} {s : Threads κ ν}
    (h : Run (later ++ m :: earlier) s) :
    Run earlier m.before ∧ m.before.step m.thread m.action = some m.after := by
  induction later generalizing s with
  | nil =>
    cases h with
    | next h hs => exact ⟨h, hs⟩
  | cons x later ih =>
    cases h with
    | next h hs => exact ih h

theorem Run.stays {later earlier : List (Moment κ ν)} {m : Moment κ ν} {s : Threads κ ν} {key : κ}
    {value : ν} (h : Run (later ++ m :: earlier) s) (hm : m.Settles key (.value value))
    (hno : ∀ x ∈ later, ¬ x.Evicts key) : s.store.get? key = some (.ready value) := by
  induction later generalizing s with
  | nil =>
    cases h with
    | next h hs =>
      obtain ⟨⟨rest, hf⟩, ⟨v, ha, hv⟩ | ⟨_, hv⟩⟩ := hm
      · cases ha
        cases hv
        have hturn := (step_cases hs).1
        rw [show _ = Phase.making key :: rest from hf] at hturn
        generalize s.frames _ = stack' at hturn
        generalize s.store = store' at hturn
        cases hturn with
        | publish key value rest => simp [SharedStore.get?_publish]
      · cases hv
  | cons x later ih =>
    cases h with
    | @next _ s₁ _ t a h hs =>
      have hready := ih h fun y hy => hno y (List.mem_cons_of_mem _ hy)
      have hnot : key ∉ makings (s₁.frames t) := by
        intro hk
        have hp := (h.tended.pending key).2 ⟨t, hk⟩
        rw [hready] at hp
        cases hp
      rcases (step_cases hs).1.ready h.tended.distinct hready hnot with hr | ⟨hr, ha⟩
      · exact hr
      · exact absurd ⟨ha, ⟨value, hready⟩, hr⟩ (hno _ List.mem_cons_self)

theorem Run.told {ms : List (Moment κ ν)} {s : Threads κ ν} (h : Run ms s) {t : Nat} {key : κ}
    {answer : Answer ν} {rest : List (Phase κ ν)} (ht : s.frames t = .telling key answer :: rest) :
    JustSettled ms t key answer := by
  induction h with
  | start => cases ht
  | @next ms s s' u a h hs ih =>
    obtain ⟨hturn, hothers⟩ := step_cases hs
    by_cases hu : t = u
    · subst hu
      rw [ht] at hturn
      obtain ⟨hf, ha⟩ := hturn.tells (h.tended.nested t)
      exact ⟨[], _, ms, rfl, rfl, ⟨⟨rest, hf⟩, ha⟩, fun x hx => absurd hx List.not_mem_nil⟩
    · have hbefore : s.frames t = .telling key answer :: rest := by
        rw [hothers t hu] at ht
        cases a with
        | tell => exact wake_eq_telling.1 ht
        | _ => exact ht
      obtain ⟨later, m, earlier, rfl, hm, hset, hlater⟩ := ih hbefore
      refine ⟨_ :: later, m, earlier, rfl, hm, hset, fun x hx => ?_⟩
      rcases List.mem_cons.1 hx with rfl | hx
      · exact Ne.symm hu
      · exact hlater x hx

theorem Run.returned {later earlier : List (Moment κ ν)} {m : Moment κ ν} {s : Threads κ ν}
    {key : κ} {answer : Answer ν} (h : Run (later ++ m :: earlier) s)
    (hm : m.Returns key answer) :
    m.after.store = m.before.store ∧
      ((∃ value, answer = .value value ∧ m.before.store.get? key = some (.ready value)) ∨
        (answer = .timedOut ∧ ∀ value, m.before.store.get? key ≠ some (.ready value)) ∨
        JustSettled earlier m.thread key answer) := by
  obtain ⟨hrun, hstep⟩ := h.split
  obtain ⟨phase, rest, hbefore, hafter⟩ := hm
  have hturn := (step_cases hstep).1
  rw [hbefore, hafter] at hturn
  obtain ⟨hstore, hv | ht | rfl⟩ := hturn.returns
  · exact ⟨hstore, .inl hv⟩
  · exact ⟨hstore, .inr (.inl ht)⟩
  · exact ⟨hstore, .inr (.inr (hrun.told hbefore))⟩

/-- Between two productions of one value it is evicted. -/
theorem Run.evicted {later between earlier : List (Moment κ ν)} {m₁ m₂ : Moment κ ν}
    {s : Threads κ ν} {key : κ} {v₁ v₂ : ν}
    (h : Run (later ++ m₂ :: (between ++ m₁ :: earlier)) s) (h₁ : m₁.Settles key (.value v₁))
    (h₂ : m₂.Settles key (.value v₂)) : ∃ m ∈ between, m.Evicts key := by
  refine Classical.byContradiction fun hno => ?_
  have hrun := h.split.1
  have hready := hrun.stays h₁ fun x hx he => hno ⟨x, hx, he⟩
  obtain ⟨⟨rest, hf⟩, _⟩ := h₂
  have hmakes : m₂.before.Makes m₂.thread key := by
    rw [Makes, hf]
    exact List.mem_cons_self
  have hpending := (hrun.tended.pending key).2 ⟨_, hmakes⟩
  rw [hready] at hpending
  cases hpending

theorem Run.kept {ms : List (Moment κ ν)} {s : Threads κ ν} (h : Run ms s) {m : Moment κ ν}
    (hm : m ∈ ms) (ha : (∃ k, m.action = .remove k) ∨ ∃ keep, m.action = .prune keep) (key : κ) :
    m.before.store.get? key = some .pending ↔ m.after.store.get? key = some .pending := by
  obtain ⟨later, earlier, rfl⟩ := List.append_of_mem hm
  obtain ⟨hrun, hstep⟩ := h.split
  exact (step_cases hstep).1.pending hrun.tended.distinct ha key

/-- Whoever sleeps at a slot will be woken: someone makes the value, or has settled the slot and is
about to tell. -/
def Watched (s : Threads κ ν) : Prop :=
  ∀ t key rest, s.frames t = .asleep key :: rest →
    ∃ u, s.Makes u key ∨ ∃ answer rest, s.frames u = .telling key answer :: rest

theorem Watched.step {s s' : Threads κ ν} (h : s.Watched) (hs : s.Tended) {t : Nat}
    {a : Action κ ν} (hstep : s.step t a = some s') : s'.Watched := by
  obtain ⟨hturn, hothers⟩ := step_cases hstep
  intro u key rest hu
  by_cases hut : u = t
  · -- the thread itself falls asleep: the slot is pending, so someone makes the value
    subst hut
    rw [hu] at hturn
    obtain ⟨hp, hf⟩ := hturn.sleeps (hs.nested u)
    obtain ⟨v, hv⟩ := (hs.pending key).1 hp
    refine ⟨v, .inl ?_⟩
    by_cases hvu : v = u
    · subst hvu
      rw [Makes, hf] at hv
      rw [Makes, hu]
      exact hv
    · rwa [Makes, hothers v hvu, makings_bystander]
  · have ha : a ≠ .tell := by
      rintro rfl
      rw [hothers u hut] at hu
      exact wake_ne_asleep _ key rest hu
    have hsame {v : Nat} (hv : v ≠ t) : s'.frames v = s.frames v := by
      rw [hothers v hv]
      cases a <;> first | rfl | exact absurd rfl ha
    rw [hsame hut] at hu
    obtain ⟨v, hv⟩ := h u key rest hu
    by_cases hvt : v = t
    · subst hvt
      rcases hv with hv | ⟨answer, rest, hv⟩
      · rcases hturn.makes hv with hm | ht
        · exact ⟨v, .inl hm⟩
        · exact ⟨v, .inr ht⟩
      · rw [hv] at hturn
        exact absurd hturn.of_telling ha
    · refine ⟨v, ?_⟩
      rwa [Makes, hsame hvt]

theorem Run.watched {ms : List (Moment κ ν)} {s : Threads κ ν} (h : Run ms s) : s.Watched := by
  induction h with
  | start => exact fun t key rest ht => (nomatch ht)
  | next h hs ih => exact ih.step h.tended hs

end Threads

open Threads

variable {κ ν : Type} [DecidableEq κ]

/-- In every interleaving a slot is pending exactly while one thread makes its value.  A value is
made again only after an eviction, and eviction leaves pending slots alone.  A request is answered
with the value that its thread has just made or with the one in the slot, and in vain only while
there is none. -/
theorem made_by_one_thread {ms : List (Moment κ ν)} {s : Threads κ ν} (h : Run ms s) :
    (∀ key, (s.store.get? key = some .pending ↔ ∃! t, s.Makes t key) ∧
      (∀ t u, s.Makes t key → s.Makes u key → t = u)) ∧
    (∀ t, (makings (s.frames t)).Nodup) ∧
    (∀ later between earlier m₁ m₂ key v₁ v₂, ms = later ++ m₂ :: (between ++ m₁ :: earlier) →
      m₁.Settles key (.value v₁) → m₂.Settles key (.value v₂) → ∃ m ∈ between, m.Evicts key) ∧
    (∀ later earlier m key value, ms = later ++ m :: earlier → m.Returns key (.value value) →
      m.after.store = m.before.store ∧
        (m.before.store.get? key = some (.ready value) ∨
          JustSettled earlier m.thread key (.value value))) ∧
    (∀ m ∈ ms, ((∃ k, m.action = .remove k) ∨ ∃ keep, m.action = .prune keep) →
      ∀ key, m.before.store.get? key = some .pending ↔ m.after.store.get? key = some .pending) ∧
    (∀ m ∈ ms, ∀ key, m.Returns key .timedOut → m.after.store = m.before.store ∧
      ∀ value, m.before.store.get? key ≠ some (.ready value)) := by
  have htended := h.tended
  refine ⟨fun key => ⟨?_, fun t u => htended.single⟩, htended.once, ?_, ?_, ?_, ?_⟩
  · rw [htended.pending key]
    constructor
    · rintro ⟨t, ht⟩
      exact ⟨t, ht, fun u hu => htended.single hu ht⟩
    · rintro ⟨t, ht, _⟩
      exact ⟨t, ht⟩
  · rintro later between earlier m₁ m₂ key v₁ v₂ rfl h₁ h₂
    exact h.evicted h₁ h₂
  · rintro later earlier m key value rfl hm
    obtain ⟨hstore, ⟨v, hv, hk⟩ | ⟨hv, _⟩ | hj⟩ := h.returned hm
    · cases hv
      exact ⟨hstore, .inl hk⟩
    · cases hv
    · exact ⟨hstore, .inr hj⟩
  · exact fun m hm ha key => h.kept hm ha key
  · intro m hm key hr
    obtain ⟨later, earlier, rfl⟩ := List.append_of_mem hm
    obtain ⟨hstore, ⟨v, hv, _⟩ | ⟨_, hk⟩ | ⟨_, m', _, _, _, hset, _⟩⟩ := h.returned hr
    · cases hv
    · exact ⟨hstore, hk⟩
    · obtain ⟨_, ⟨v, _, hv⟩ | ⟨_, hv⟩⟩ := hset <;> cases hv

/-- A thread makes a value that another one waits for, evicts it and makes it once more. -/
theorem made_by_one_thread_twice :
    ∃ (between earlier : List (Moment Nat Nat)) (m₁ m₂ : Moment Nat Nat) (s : Threads Nat Nat),
      Run (m₂ :: (between ++ m₁ :: earlier)) s ∧ m₁.Settles 5 (.value 7) ∧
        m₂.Settles 5 (.value 8) ∧ ∃ m ∈ between, m.Evicts 5 := by
  have h₀ : Run ([] : List (Moment Nat Nat)) {} := .start
  have h₁ := (h₀.next (t := 0) (a := .request 5) rfl).next (t := 0) (a := .look) rfl
  have h₂ := (h₁.next (t := 1) (a := .request 5) rfl).next (t := 1) (a := .look) rfl
  have h₃ := (h₂.next (t := 0) (a := .publish 7) rfl).next (t := 0) (a := .tell) rfl
  have h₄ := (h₃.next (t := 0) (a := .leave) rfl).next (t := 0) (a := .remove 5) rfl
  have h₅ := (h₄.next (t := 0) (a := .request 5) rfl).next (t := 0) (a := .look) rfl
  have h := h₅.next (t := 0) (a := .publish 8) rfl
  have hall := (made_by_one_thread h).2.2.1 [] [_, _, _, _, _] [_, _, _, _] _ _ 5 7 8 rfl
    ⟨⟨[], rfl⟩, .inl ⟨7, rfl, rfl⟩⟩ ⟨⟨[], rfl⟩, .inl ⟨8, rfl, rfl⟩⟩
  exact ⟨[_, _, _, _, _], [_, _, _, _], _, _, _, h, ⟨⟨[], rfl⟩, .inl ⟨7, rfl, rfl⟩⟩,
    ⟨⟨[], rfl⟩, .inl ⟨8, rfl, rfl⟩⟩, hall⟩

/-- No thread sleeps in vain: the slot is pending with a thread that makes its value, or some thread
has just settled the slot and has yet to tell. -/
theorem asleep_is_watched {ms : List (Moment κ ν)} {s : Threads κ ν} (h : Run ms s) {t : Nat}
    {key : κ} {rest : List (Phase κ ν)} (ht : s.frames t = .asleep key :: rest) :
    (s.store.get? key = some .pending ∧ ∃ u, s.Makes u key) ∨
      ∃ u answer rest, s.frames u = .telling key answer :: rest ∧
        JustSettled ms u key answer := by
  obtain ⟨u, hu | ⟨answer, rest, hu⟩⟩ := h.watched t key rest ht
  · exact .inl ⟨(h.tended.pending key).2 ⟨u, hu⟩, u, hu⟩
  · exact .inr ⟨u, answer, rest, hu, h.told hu⟩

/-- The maker has published and has yet to tell the sleeper. -/
theorem asleep_is_watched_untold : ∃ (ms : List (Moment Nat Nat)) (s : Threads Nat Nat),
    Run ms s ∧ s.frames 1 = [.asleep 5] ∧ s.store.get? 5 = some (.ready 7) ∧
      ∃ u answer rest, s.frames u = .telling 5 answer :: rest ∧ JustSettled ms u 5 answer := by
  have h₀ : Run ([] : List (Moment Nat Nat)) {} := .start
  have h₁ := (h₀.next (t := 0) (a := .request 5) rfl).next (t := 0) (a := .look) rfl
  have h₂ := (h₁.next (t := 1) (a := .request 5) rfl).next (t := 1) (a := .look) rfl
  have h := h₂.next (t := 0) (a := .publish 7) rfl
  refine ⟨_, _, h, rfl, rfl, ?_⟩
  rcases asleep_is_watched h (show frames _ 1 = [.asleep 5] from rfl) with ⟨hp, _⟩ | hu
  · cases hp
  · exact hu

end ModuleLens
