import ModuleLens.Proofs.Linker.Recursion
import ModuleLens.Proofs.SharedStore

/-! Errands, step by step.  One step of an errand touches the state of following imports in at most
one place, so every interleaving of threads is a sequence of such steps.  An errand is sound if it
comes to the right result and fills slots with the right products whatever right products it finds
in other slots.  Following an import is sound: its result is that of plain recursion.  It also asks
the module source only for what it has just claimed. -/

namespace ModuleLens

open Node

inductive Deed where
  | quiet
  | asked (edition : Edition)
  /-- A wait took too long. -/
  | expired
  /-- A build was thrown out. -/
  | unwound
deriving DecidableEq

namespace Deed

def isCalm : Deed → Bool
  | quiet | asked _ => true
  | expired | unwound => false

def asked? : Deed → Option Edition
  | asked edition => some edition
  | _ => none

end Deed

namespace Errand

variable {α β : Type} {env : ImportEnv} {memory : Edition → Option Product}

inductive Step (env : ImportEnv) : Deed → Errand α → Linker → Errand α → Linker → Prop where
  | load (importing : Uri) (path : Text) (next : Except CatalogError Document → Errand α)
      (l : Linker) :
      Step env .quiet (.load importing path next) l (next (env.catalog.lookup importing path)) l
  | call (document : Document) (depth : Nat) (next : Reading → Nat → Errand α) (l : Linker) :
      Step env (.asked (document.edition depth)) (.call document depth next) l
        (next (env.source document) l.drafts) (l.noteCall document.uri)
  | unwind (document : Document) (depth : Nat) (next : Reading → Nat → Errand α) (l : Linker) :
      Step env .unwound (.call document depth next) l (next .unwinds l.drafts)
        (l.noteCall document.uri)
  | found {edition : Edition} {l : Linker} {product : Product} (next : Claimed → Errand α)
      (h : l.modules.get? edition = some (.ready product)) :
      Step env .quiet (.claim edition next) l (next (.found product)) l
  | granted {edition : Edition} {l : Linker} (next : Claimed → Errand α)
      (h : l.modules.get? edition = none) :
      Step env .quiet (.claim edition next) l (next .granted)
        { l with modules := l.modules.insert edition .pending }
  | expire {edition : Edition} {l : Linker} (next : Claimed → Errand α)
      (h : l.modules.get? edition = some .pending) :
      Step env .expired (.claim edition next) l (next .expired) l
  | publish (edition : Edition) (product : Product) (next : Errand α) (l : Linker) :
      Step env .quiet (.publish edition product next) l next
        { l with modules := l.modules.publish edition product }
  | abandon (edition : Edition) (next : Errand α) (l : Linker) :
      Step env .quiet (.abandon edition next) l next
        { l with modules := l.modules.abandon edition }

/-- An errand that comes to a result with `Q` and fills slots rightly, if it finds right products
and no wait takes too long. -/
def Sound (env : ImportEnv) (memory : Edition → Option Product) (Q : α → Prop) : Errand α → Prop
  | finished (some a) => Q a
  | finished none => False
  | hung => False
  | load importing path next => Sound env memory Q (next (env.catalog.lookup importing path))
  | call document _ next => ∀ build, Sound env memory Q (next (env.source document) build)
  | claim edition next =>
    (∀ product, env.Fits memory edition product → Sound env memory Q (next (.found product))) ∧
      (memory edition = none → Sound env memory Q (next .granted))
  | publish edition product next =>
    memory edition = none ∧ env.Fits memory edition product ∧ Sound env memory Q next
  | abandon _ _ => False

theorem Sound.bind {P : α → Prop} {Q : β → Prop} {k : Option α → Errand β} {e : Errand α}
    (h : Sound env memory P e) (hk : ∀ a, P a → Sound env memory Q (k (some a))) :
    Sound env memory Q (e.bind k) := by
  induction e with
  | finished result =>
    cases result with
    | none => exact h.elim
    | some a => exact hk a h
  | hung => exact h.elim
  | load importing path next ih => exact ih _ h
  | call document depth next ih => exact fun build => ih _ _ (h build)
  | claim edition next ih =>
    exact ⟨fun product hp => ih _ (h.1 product hp), fun hm => ih _ (h.2 hm)⟩
  | publish edition product next ih => exact ⟨h.1, h.2.1, ih h.2.2⟩
  | abandon edition next ih => exact h.elim

theorem Sound.andThen {P : α → Prop} {Q : β → Prop} {k : α → Errand β} {e : Errand α}
    (h : Sound env memory P e) (hk : ∀ a, P a → Sound env memory Q (k a)) :
    Sound env memory Q (e.andThen k) :=
  h.bind hk

theorem sound_answerAll {f : ImportEdge → Outcome Node}
    {answer : ImportEdge → Errand (Outcome Node)}
    (h : ∀ edge, Sound env memory (fun o => plainOutcome o = plainOutcome (f edge)) (answer edge))
    (rs : List Request) {a b : Answers} (hab : Answers.Alike a b) :
    Sound env memory (fun c => Answers.Alike c (answersFrom f b rs)) (answerAll answer a rs) := by
  induction rs generalizing a b with
  | nil => exact hab
  | cons r rs ih => exact (h r.edge).andThen fun o ho => ih (hab.insert ho r.index)

theorem sound_make (hr : env.Regular) {f : ImportEdge → Outcome Node}
    {answer : ImportEdge → Errand (Outcome Node)}
    (h : ∀ edge, Sound env memory (fun o => plainOutcome o = plainOutcome (f edge)) (answer edge))
    (document : Document) (depth build : Nat) :
    Sound env memory (fun p => p.plain = (env.productBy f document depth).plain)
      (make answer document depth (env.source document) build) := by
  rcases hr.parses document with hs | ⟨tree, hs⟩
  · simp only [hs, make, ImportEnv.productBy, Sound]
  · simp only [hs, make, ImportEnv.productBy]
    refine (sound_answerAll h _ (.refl {})).andThen fun a ha => ?_
    rw [requests_draftModule build 0] at ha
    exact congrArg Product.module (plain_link_draftModule ha build 0 tree document depth)

theorem sound_followAt (hr : env.Regular) (levels : Nat) (importing : Document) (depth : Nat)
    (edge : ImportEdge) (hl : levels = env.maxDepth - depth) :
    Sound env memory
      (fun o => plainOutcome o = plainOutcome (env.followWith memory importing depth edge))
      (followAt env.maxDepth levels importing depth edge) := by
  induction levels generalizing importing depth edge with
  | zero =>
    rw [ImportEnv.followWith_of_le (by omega)]
    rfl
  | succ levels ih =>
    rw [ImportEnv.followWith_of_lt (by omega)]
    simp only [followAt, Sound]
    cases hd : env.catalog.lookup importing.uri edge.path with
    | error e => rfl
    | ok document =>
      -- the product of the edition is found, or the slot is claimed and the product is made
      refine ⟨fun product hp => ?_, fun hm build => ?_⟩
      · have hp := hp document (hr.read hd) rfl
        simp only [Sound, Product.plainOutcome_outcome, hp]
      · have hmake := sound_make hr
          (fun edge => ih document (depth + 1) edge (by omega)) document (depth + 1) build
        refine hmake.bind fun product hp => ?_
        rw [← ImportEnv.productWith_of_none hm] at hp
        refine ⟨hm, hr.fits hd hp, ?_⟩
        simp only [Sound, Product.plainOutcome_outcome, hp]

theorem sound_follow (hr : env.Regular) (importing : Document) (depth : Nat) (edge : ImportEdge) :
    Sound env memory
      (fun o => plainOutcome o = plainOutcome (env.followWith memory importing depth edge))
      (follow env.maxDepth importing depth edge) :=
  sound_followAt hr _ importing depth edge rfl

end Errand

/-- A linker that holds what is remembered, and in every slot the product of its edition. -/
structure Linker.Faithful (env : ImportEnv) (memory : Edition → Option Product) (l : Linker) :
    Prop where
  keeps : ∀ {edition product}, memory edition = some product →
    l.modules.get? edition = some (.ready product)
  fits : ∀ {edition product}, l.modules.get? edition = some (.ready product) →
    env.Fits memory edition product

namespace Errand

variable {α β : Type} {env : ImportEnv} {memory : Edition → Option Product}

theorem Step.sound {deed : Deed} {e e' : Errand α} {l l' : Linker} {Q : α → Prop}
    (h : Step env deed e l e' l') (hc : deed.isCalm) (he : Sound env memory Q e)
    (hl : l.Faithful env memory) : Sound env memory Q e' ∧ l'.Faithful env memory := by
  cases h with
  | load importing path next => exact ⟨he, hl⟩
  | call document depth next => exact ⟨he _, hl.keeps, hl.fits⟩
  | unwind document depth next => cases hc
  | found next h => exact ⟨he.1 _ (hl.fits h), hl⟩
  | @granted edition _ next h =>
    have hm : memory edition = none := by
      cases hm : memory edition with
      | none => rfl
      | some product =>
        rw [hl.keeps hm] at h
        cases h
    refine ⟨he.2 hm, fun {k p} hk => ?_, fun {k p} hk => ?_⟩
    · have hne : k ≠ edition := by
        rintro rfl
        rw [hm] at hk
        cases hk
      simpa [Table.get?_insert, hne] using hl.keeps hk
    · by_cases hke : k = edition
      · simp [Table.get?_insert, hke] at hk
      · exact hl.fits (by simpa [Table.get?_insert, hke] using hk)
  | expire next h => cases hc
  | publish edition product next =>
    obtain ⟨hm, hp, he⟩ := he
    refine ⟨he, fun {k p} hk => ?_, fun {k p} hk => ?_⟩
    · have hne : k ≠ edition := by
        rintro rfl
        rw [hm] at hk
        cases hk
      simpa [SharedStore.get?_publish, hne] using hl.keeps hk
    · by_cases hke : k = edition
      · subst hke
        have hpp : product = p := by simpa [SharedStore.get?_publish] using hk
        exact hpp ▸ hp
      · exact hl.fits (by simpa [SharedStore.get?_publish, hke] using hk)
  | abandon edition next => exact he.elim

def asks : Errand α → Option Edition
  | call document depth _ => some (document.edition depth)
  | _ => none

/-- An errand that asks the module source for an edition only right after it has claimed its slot.
No slot is of depth zero, which is that of entry documents. -/
def Guarded : Errand α → Prop
  | finished _ => True
  | hung => True
  | load _ _ next => ∀ d, (next d).asks = none ∧ Guarded (next d)
  | call _ _ next =>
    ∀ reading build, (next reading build).asks = none ∧ Guarded (next reading build)
  | claim edition next =>
    0 < edition.depth ∧ (next .granted).asks = some edition ∧
      (∀ product, (next (.found product)).asks = none) ∧ (next .expired).asks = none ∧
      ∀ claimed, Guarded (next claimed)
  | publish _ _ next => next.asks = none ∧ Guarded next
  | abandon _ next => next.asks = none ∧ Guarded next

theorem asks_bind {k : Option α → Errand β} (hk : ∀ r, (k r).asks = none) (e : Errand α) :
    (e.bind k).asks = e.asks := by
  cases e with
  | finished result => exact hk result
  | _ => rfl

theorem Guarded.bind {k : Option α → Errand β} (hk : ∀ r, (k r).asks = none ∧ Guarded (k r))
    {e : Errand α} (he : Guarded e) : Guarded (e.bind k) := by
  have ha := asks_bind fun r => (hk r).1
  induction e with
  | finished result => exact (hk result).2
  | hung => trivial
  | load importing path next ih => exact fun d => ⟨(ha _).trans (he d).1, ih d (he d).2⟩
  | call document depth next ih =>
    exact fun reading build => ⟨(ha _).trans (he reading build).1, ih _ _ (he reading build).2⟩
  | claim edition next ih =>
    obtain ⟨hd, hg, hf, hx, hn⟩ := he
    exact ⟨hd, (ha _).trans hg, fun product => (ha _).trans (hf product), (ha _).trans hx,
      fun claimed => ih claimed (hn claimed)⟩
  | publish edition product next ih => exact ⟨(ha _).trans he.1, ih he.2⟩
  | abandon edition next ih => exact ⟨(ha _).trans he.1, ih he.2⟩

theorem Guarded.andThen {k : α → Errand β} (hk : ∀ a, (k a).asks = none ∧ Guarded (k a))
    {e : Errand α} (he : Guarded e) : Guarded (e.andThen k) := by
  refine he.bind fun r => ?_
  cases r with
  | none => exact ⟨rfl, trivial⟩
  | some a => exact hk a

theorem guarded_answerAll {answer : ImportEdge → Errand (Outcome Node)}
    (h : ∀ edge, (answer edge).asks = none ∧ Guarded (answer edge)) (rs : List Request)
    (a : Answers) : (answerAll answer a rs).asks = none ∧ Guarded (answerAll answer a rs) := by
  induction rs generalizing a with
  | nil => exact ⟨rfl, trivial⟩
  | cons r rs ih =>
    refine ⟨(asks_bind (fun o => ?_) _).trans (h r.edge).1, (h r.edge).2.andThen fun o => ih _⟩
    cases o with
    | none => rfl
    | some o => exact (ih _).1

theorem guarded_make {answer : ImportEdge → Errand (Outcome Node)}
    (h : ∀ edge, (answer edge).asks = none ∧ Guarded (answer edge)) (document : Document)
    (depth : Nat) (reading : Reading) (build : Nat) :
    (make answer document depth reading build).asks = none ∧
      Guarded (make answer document depth reading build) := by
  cases reading with
  | tree tree =>
    have hh := guarded_answerAll h (draftModule build tree document depth).requests {}
    refine ⟨(asks_bind (fun o => ?_) _).trans hh.1, hh.2.andThen fun a => ?_⟩
    · cases o <;> rfl
    · exact ⟨rfl, trivial⟩
  | _ => exact ⟨rfl, trivial⟩

theorem guarded_followAt (maxDepth levels : Nat) (importing : Document) (depth : Nat)
    (edge : ImportEdge) :
    (followAt maxDepth levels importing depth edge).asks = none ∧
      Guarded (followAt maxDepth levels importing depth edge) := by
  induction levels generalizing importing depth edge with
  | zero => exact ⟨rfl, trivial⟩
  | succ levels ih =>
    refine ⟨rfl, fun d => ?_⟩
    cases d with
    | error e => exact ⟨rfl, trivial⟩
    | ok document =>
      refine ⟨rfl, Nat.succ_pos depth, rfl, fun product => rfl, rfl, fun claimed => ?_⟩
      cases claimed with
      | found product => exact trivial
      | expired => exact trivial
      | granted =>
        intro reading build
        have hm := guarded_make (ih document (depth + 1)) document (depth + 1) reading build
        refine ⟨(asks_bind (fun o => ?_) _).trans hm.1, hm.2.bind fun o => ?_⟩
        · cases o <;> rfl
        · cases o with
          | none => exact ⟨rfl, rfl, trivial⟩
          | some product => exact ⟨rfl, rfl, trivial⟩

theorem guarded_follow (maxDepth : Nat) (importing : Document) (depth : Nat) (edge : ImportEdge) :
    (follow maxDepth importing depth edge).asks = none ∧
      Guarded (follow maxDepth importing depth edge) :=
  guarded_followAt maxDepth _ importing depth edge

end Errand

end ModuleLens
