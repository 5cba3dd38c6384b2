import Mathlib.Logic.Relation
import ModuleLens.Proofs.SharedStore.History

/-! Requests that are played through.  A request of one thread while all others stand still, and
requests of many threads at one slot, are made of steps like any other.  If many threads come to a
free slot, one of them makes the value, and all of them are answered with it. -/

namespace ModuleLens

namespace Threads

variable {κ ν : Type} [DecidableEq κ]

abbrev Reaches : Threads κ ν → Threads κ ν → Prop :=
  Relation.ReflTransGen fun s s' => ∃ t a, s.step t a = some s'

theorem Run.extend {ms : List (Moment κ ν)} {s s' : Threads κ ν} (h : Run ms s)
    (hs : Reaches s s') : ∃ later, Run (later ++ ms) s' := by
  induction hs with
  | refl => exact ⟨[], h⟩
  | tail _ hstep ih =>
    obtain ⟨later, h⟩ := ih
    obtain ⟨t, a, hstep⟩ := hstep
    exact ⟨_ :: later, h.next hstep⟩

theorem reaches_foldl {α β : Type} {f : β → α → β} (state : β → Threads κ ν)
    (h : ∀ b a, Reaches (state b) (state (f b a))) (as : List α) (b : β) :
    Reaches (state b) (state (as.foldl f b)) := by
  induction as generalizing b with
  | nil => exact .refl
  | cons a as ih => exact (h b a).trans (ih (f b a))

theorem reaches_run (s : Threads κ ν) (t : Nat) (actions : List (Action κ ν)) :
    Reaches s (s.run t actions) := by
  refine reaches_foldl id (fun s a => ?_) actions s
  cases hs : s.step t a with
  | none => exact .refl
  | some s' => exact .single ⟨t, a, hs⟩

theorem reaches_request {ω : Type} {make : Threads κ ν → (Option ν × ω) × Threads κ ν}
    (hmake : ∀ s, Reaches s (make s).2) (s : Threads κ ν) (t : Nat) (key : κ) :
    Reaches s (s.request t key make).2 := by
  rw [request]
  refine (reaches_run s t [.request key, .look]).trans ?_
  generalize s.run t [.request key, .look] = s
  refine .trans ?_ (reaches_run _ t [.leave])
  split
  · have hmade := hmake s
    generalize make s = made at hmade ⊢
    obtain ⟨⟨_ | value, report⟩, s'⟩ := made
    · exact hmade.trans (reaches_run s' t [.unwind, .tell])
    · exact hmade.trans (reaches_run s' t [.publish value, .tell])
  · exact reaches_run s t _

theorem reaches_contend (s : Threads κ ν) (threads : List Nat) (key : κ) (value : Nat → ν) :
    Reaches s (s.contend threads key value).2.2 := by
  refine (reaches_foldl id (fun s t => reaches_run s t [.request key, .look]) threads s).trans ?_
  refine .trans ?_ (reaches_foldl id (fun s t => reaches_run s t [.leave]) threads _)
  refine .trans ?_ (reaches_foldl id (fun s t => reaches_run s t [.look, .expire, .look]) threads _)
  refine reaches_foldl Prod.snd (fun b t => ?_) threads (0, _)
  obtain ⟨made, s⟩ := b
  dsimp only
  split
  · exact reaches_run s t _
  · exact .refl

section Crowd

variable {s : Threads κ ν} {t : Nat} {key : κ} {value : ν}

/-- What each thread of a crowd does in its turn, if the slot stays as it is. -/
theorem foldl_run {store : SharedStore κ ν} {actions : List (Action κ ν)}
    {before after : List (Phase κ ν)}
    (h : ∀ (s : Threads κ ν) (t : Nat), s.store = store → s.frames t = before →
      (s.run t actions).store = store ∧
        ∀ u, (s.run t actions).frames u = if u = t then after else s.frames u)
    {ts : List Nat} (hn : ts.Nodup) (hs : s.store = store) (hf : ∀ t ∈ ts, s.frames t = before) :
    (ts.foldl (fun s t => s.run t actions) s).store = store ∧
      ∀ u, (ts.foldl (fun s t => s.run t actions) s).frames u =
        if u ∈ ts then after else s.frames u := by
  induction ts generalizing s with
  | nil => exact ⟨hs, fun u => by simp⟩
  | cons t ts ih =>
    obtain ⟨ht, hn⟩ := List.nodup_cons.1 hn
    obtain ⟨hstore, hframes⟩ := h s t hs (hf t List.mem_cons_self)
    obtain ⟨hstore', hframes'⟩ := ih hn hstore fun u hu => by
      have hut : u ≠ t := fun he => ht (he ▸ hu)
      rw [hframes, if_neg hut]
      exact hf u (List.mem_cons_of_mem t hu)
    refine ⟨hstore', fun u => ?_⟩
    rw [List.foldl_cons, hframes', hframes]
    by_cases hu : u ∈ ts <;> by_cases hut : u = t <;> simp [hu, hut]

omit [DecidableEq κ] in
@[simp] theorem store_setFrames (s : Threads κ ν) (t : Nat) (stack : List (Phase κ ν)) :
    (s.setFrames t stack).store = s.store := rfl

omit [DecidableEq κ] in
@[simp] theorem frames_with_store (s : Threads κ ν) (store : SharedStore κ ν) (t : Nat) :
    ({ s with store } : Threads κ ν).frames t = s.frames t := rfl

theorem run_free (hk : s.store.get? key = none) (hf : s.frames t = []) :
    (s.run t [.request key, .look]).store = s.store.insert key .pending ∧
      ∀ u, (s.run t [.request key, .look]).frames u =
        if u = t then [.making key] else s.frames u := by
  have hc := SharedStore.claim_eq_granted.2 ⟨hk, rfl⟩
  refine ⟨?_, fun u => ?_⟩
  · simp [run, step, hf, isFree, frames_setFrames, hc]
  · by_cases hu : u = t <;>
      simp [run, step, hf, isFree, frames_setFrames, hc, hu]

theorem run_pending (hk : s.store.get? key = some .pending) (hf : s.frames t = []) :
    (s.run t [.request key, .look]).store = s.store ∧
      ∀ u, (s.run t [.request key, .look]).frames u =
        if u = t then [.asleep key] else s.frames u := by
  have hc := SharedStore.claim_eq_busy.2 hk
  refine ⟨?_, fun u => ?_⟩
  · simp [run, step, hf, isFree, frames_setFrames, hc]
  · by_cases hu : u = t <;> simp [run, step, hf, isFree, frames_setFrames, hc, hu]

theorem run_made (hf : s.frames t = [.making key]) (value : ν) :
    (s.run t [.publish value, .tell]).store = s.store.publish key value ∧
      ∀ u, (s.run t [.publish value, .tell]).frames u =
        if u = t then [.over key (.value value)] else wake (s.frames u) := by
  refine ⟨?_, fun u => ?_⟩
  · simp [run, step, hf, frames_setFrames]
  · by_cases hu : u = t
    · simp [run, step, hf, frames_setFrames, hu]
    · simp [run, step, hf, frames_setFrames, hu, frames_wake, -store_setFrames]

theorem run_woken (hk : s.store.get? key = some (.ready value)) (hf : s.frames t = [.looking key]) :
    (s.run t [.look, .expire, .look]).store = s.store ∧
      ∀ u, (s.run t [.look, .expire, .look]).frames u =
        if u = t then [.over key (.value value)] else s.frames u := by
  have hc := SharedStore.claim_eq_found.2 hk
  refine ⟨?_, fun u => ?_⟩
  · simp [run, step, hf, frames_setFrames, hc]
  · by_cases hu : u = t <;> simp [run, step, hf, frames_setFrames, hc, hu]

theorem run_over {answer : Answer ν} (hf : s.frames t = [.over key answer]) :
    s.run t [.look, .expire, .look] = s := by
  simp [run, step, hf]

theorem store_leave (s : Threads κ ν) (t : Nat) : (s.run t [.leave]).store = s.store := by
  rcases hf : s.frames t with _ | ⟨_ | _ | _ | _ | _ | _, rest⟩ <;> simp [run, step, hf]

theorem foldl_leave (s : Threads κ ν) (ts : List Nat) :
    (ts.foldl (fun s t => s.run t [.leave]) s).store = s.store := by
  induction ts generalizing s with
  | nil => rfl
  | cons t ts ih => exact (ih _).trans (store_leave s t)

variable {ts : List Nat}

theorem foldl_come (hn : (t :: ts).Nodup) (hf : ∀ u ∈ t :: ts, s.frames u = [])
    (hk : s.store.get? key = none) :
    ∃ s', (t :: ts).foldl (fun s u => s.run u [.request key, .look]) s = s' ∧
      s'.frames t = [.making key] ∧ ∀ u ∈ ts, s'.frames u = [.asleep key] := by
  obtain ⟨ht, hts⟩ := List.nodup_cons.1 hn
  let s₁ := s.run t [.request key, .look]
  obtain ⟨hstore, hframes⟩ : _ ∧ ∀ u, s₁.frames u = _ := run_free hk (hf t List.mem_cons_self)
  have hpending : s₁.store.get? key = some .pending := by
    rw [hstore, Table.get?_insert, if_pos rfl]
  obtain ⟨_, hframes'⟩ := foldl_run
    (fun s u hs hu => hs ▸ run_pending (hs ▸ hpending) hu) hts rfl fun u hu => by
      have hut : u ≠ t := fun he => ht (he ▸ hu)
      rw [hframes, if_neg hut]
      exact hf u (List.mem_cons_of_mem t hu)
  refine ⟨_, rfl, ?_, fun u hu => ?_⟩
  · rw [List.foldl_cons, hframes', if_neg ht, hframes, if_pos rfl]
  · rw [List.foldl_cons, hframes', if_pos hu]

theorem foldl_woken {value : Nat → ν} {made : Nat} (hf : ∀ t ∈ ts, s.frames t = [.looking key]) :
    ts.foldl (fun (made, s) t => if s.isMaking t then
      (made + 1, s.run t [.publish (value made), .tell]) else (made, s)) (made, s) = (made, s) := by
  induction ts with
  | nil => rfl
  | cons t ts ih =>
    have ht : s.isMaking t = false := by rw [isMaking, hf t List.mem_cons_self]
    simp only [List.foldl_cons, ht, Bool.false_eq_true, if_false]
    exact ih fun u hu => hf u (List.mem_cons_of_mem t hu)

theorem foldl_make (ht : t ∉ ts) (hf : s.frames t = [.making key])
    (hs : ∀ u ∈ ts, s.frames u = [.asleep key]) (value : Nat → ν) :
    ∃ s', (t :: ts).foldl (fun (made, s) t => if s.isMaking t then
        (made + 1, s.run t [.publish (value made), .tell]) else (made, s)) (0, s) = (1, s') ∧
      s'.store.get? key = some (.ready (value 0)) ∧
      s'.frames t = [.over key (.value (value 0))] ∧ ∀ u ∈ ts, s'.frames u = [.looking key] := by
  obtain ⟨hstore, hframes⟩ := run_made hf (value 0)
  have hmakes : s.isMaking t = true := by rw [isMaking, hf]
  have hlooking : ∀ u ∈ ts, (s.run t [.publish (value 0), .tell]).frames u = [.looking key] :=
    fun u hu => by
      have hut : u ≠ t := fun he => ht (he ▸ hu)
      rw [hframes, if_neg hut, hs u hu]
      rfl
  refine ⟨_, ?_, ?_, ?_, hlooking⟩
  · simp only [List.foldl_cons, hmakes, if_true]
    exact foldl_woken hlooking
  · rw [hstore, SharedStore.get?_publish, if_pos rfl]
  · rw [hframes, if_pos rfl]

theorem foldl_look (hn : (t :: ts).Nodup) (hk : s.store.get? key = some (.ready value))
    (hf : s.frames t = [.over key (.value value)]) (hs : ∀ u ∈ ts, s.frames u = [.looking key]) :
    ∃ s', (t :: ts).foldl (fun s u => s.run u [.look, .expire, .look]) s = s' ∧
      s'.store = s.store ∧ ∀ u ∈ t :: ts, s'.frames u = [.over key (.value value)] := by
  obtain ⟨ht, hts⟩ := List.nodup_cons.1 hn
  obtain ⟨hstore, hframes⟩ := foldl_run (fun s' u h hu => h ▸ run_woken (h ▸ hk) hu) hts rfl hs
  refine ⟨_, rfl, ?_, fun u hu => ?_⟩
  · rw [List.foldl_cons, run_over hf, hstore]
  · rw [List.foldl_cons, run_over hf, hframes]
    rcases List.mem_cons.1 hu with rfl | hu
    · rw [if_neg ht, hf]
    · rw [if_pos hu]

/-- Requests of many threads at a free slot: the value is made once and answers all of them. -/
theorem contend_free (hn : (t :: ts).Nodup) (hf : ∀ u ∈ t :: ts, s.frames u = [])
    (hk : s.store.get? key = none) (value : Nat → ν) :
    (s.contend (t :: ts) key value).1 = (t :: ts).map (fun _ => .value (value 0)) ∧
      (s.contend (t :: ts) key value).2.1 = 1 ∧
      (s.contend (t :: ts) key value).2.2.store.get? key = some (.ready (value 0)) := by
  obtain ⟨s₁, hcome, hmaking, hasleep⟩ := foldl_come hn hf hk
  obtain ⟨s₂, hmake, hready, hover, hlooking⟩ :=
    foldl_make (List.nodup_cons.1 hn).1 hmaking hasleep value
  obtain ⟨s₃, hlook, hstore, hall⟩ := foldl_look hn hready hover hlooking
  simp only [contend, hcome, hmake, hlook]
  refine ⟨List.map_congr_left fun u hu => ?_, trivial, ?_⟩
  · rw [answer?, hall u hu]
    rfl
  · rw [foldl_leave, hstore, hready]

end Crowd

end Threads

end ModuleLens
