import ModuleLens.Proofs.Linker.Recursion
import ModuleLens.Proofs.Node.Reach
import ModuleLens.Proofs.SharedStore

/-! Stored modules hang together.  Every stored module stands in the slot of its own edition, the
modules behind its imports are stored as well, and identities tell stored modules apart.  So every
chain of imports from a stored module stays among stored modules, and forgetting a document keeps
exactly the modules that no chain leads there from. -/

namespace ModuleLens

open Node

def Node.edition (n : Node) : Edition := n.document.edition n.depth

namespace Linker

def Holds (l : Linker) (n : Node) : Prop := l.modules.get? n.edition = some (.ready (.module n))

structure Coherent (l : Linker) : Prop where
  distinct : Table.Distinct l.modules
  placed : ∀ {k n}, l.modules.get? k = some (.ready (.module n)) → n.edition = k
  closed : Node.Closed l.Holds
  numbered : ∀ {n}, l.Holds n → n.id.build < l.drafts

theorem Coherent.holds {l : Linker} (h : l.Coherent) {k : Edition} {n : Node}
    (hk : l.modules.get? k = some (.ready (.module n))) : l.Holds n := by
  rw [Holds, h.placed hk, hk]

theorem coherent_empty {l : Linker} (h : l.modules = {}) : l.Coherent := by
  have hn (k : Edition) : l.modules.get? k = none := by rw [h]; rfl
  have hh (n : Node) : ¬ l.Holds n := by
    intro hn'
    rw [Holds, hn] at hn'
    cases hn'
  exact ⟨h ▸ Table.distinct_empty, fun hk => (nomatch (hn _).symm.trans hk),
    ⟨fun ha => (hh _ ha).elim, fun ha => (hh _ ha).elim⟩, fun ha => (hh _ ha).elim⟩

theorem Coherent.congr {l l' : Linker} (h : l.Coherent) (hd : Table.Distinct l'.modules)
    (hr : ∀ k p, l'.modules.get? k = some (.ready p) ↔ l.modules.get? k = some (.ready p))
    (hn : l.drafts ≤ l'.drafts) : l'.Coherent := by
  have hh (n : Node) : l'.Holds n ↔ l.Holds n := hr _ _
  refine ⟨hd, fun hk => h.placed ((hr _ _).1 hk), ⟨fun ha hi => ?_, fun ha hb hi => ?_⟩,
    fun ha => ?_⟩
  · exact (hh _).2 (h.closed.targets ((hh _).1 ha) hi)
  · exact h.closed.told ((hh _).1 ha) ((hh _).1 hb) hi
  · exact Nat.lt_of_lt_of_le (h.numbered ((hh _).1 ha)) hn

theorem Coherent.of_modules {l l' : Linker} (h : l.Coherent) (hm : l'.modules = l.modules)
    (hn : l.drafts ≤ l'.drafts) : l'.Coherent :=
  h.congr (hm ▸ h.distinct) (fun _ _ => by rw [hm]) hn

theorem ready_granted {s : SharedStore Edition Product} {k : Edition} (h : s.get? k = none)
    (j : Edition) (p : Product) :
    (s.insert k .pending).get? j = some (.ready p) ↔ s.get? j = some (.ready p) := by
  rw [Table.get?_insert]
  split
  · next hj => simp [hj, h]
  · exact Iff.rfl

theorem Coherent.granted {l : Linker} (h : l.Coherent) {k : Edition}
    (hk : l.modules.get? k = none) :
    Coherent { l with modules := l.modules.insert k .pending } :=
  h.congr (h.distinct.insert k _) (ready_granted hk) (Nat.le_refl _)

theorem Coherent.noteCall {l : Linker} (h : l.Coherent) (uri : Uri) : (l.noteCall uri).Coherent :=
  h.of_modules rfl (Nat.le_succ _)

/-- A product that may be put into a slot: a module of the edition with an identity of its own, the
modules behind its imports stored. -/
structure Fresh (l : Linker) (k : Edition) (p : Product) : Prop where
  edition : ∀ {n}, p = .module n → n.edition = k
  targets : ∀ {n t}, p = .module n → Imports n t → l.Holds t
  own : ∀ {n m}, p = .module n → l.Holds m → m.id ≠ n.id
  numbered : ∀ {n}, p = .module n → n.id.build < l.drafts

theorem Coherent.publish {l : Linker} (h : l.Coherent) {k : Edition} {p : Product}
    (hk : l.modules.get? k = some .pending) (hp : l.Fresh k p) :
    Coherent { l with modules := l.modules.publish k p } := by
  -- what is stored was stored before, or is the product; and what was stored is so still, since its
  -- slot was not pending
  have hget (j : Edition) (q : Product) (hj : (l.modules.publish k p).get? j = some (.ready q)) :
      l.modules.get? j = some (.ready q) ∨ j = k ∧ q = p := by
    rw [SharedStore.get?_publish] at hj
    split at hj
    · next hjk =>
      cases hj
      exact .inr ⟨hjk, rfl⟩
    · exact .inl hj
  have hkeep {n : Node} (hn : l.Holds n) :
      Holds { l with modules := l.modules.publish k p } n := by
    have hne : n.edition ≠ k := by
      intro he
      rw [Holds, he, hk] at hn
      cases hn
    rw [Holds, SharedStore.get?_publish, if_neg hne]
    exact hn
  have hhold {n : Node} (hn : Holds { l with modules := l.modules.publish k p } n) :
      l.Holds n ∨ p = .module n := by
    rcases hget _ _ hn with hn | ⟨_, hq⟩
    · exact .inl hn
    · exact .inr hq.symm
  refine ⟨h.distinct.insert k _, fun {j n} hj => ?_,
    ⟨fun {a b} ha hi => ?_, fun {a b} ha hb hi => ?_⟩, fun {n} hn => ?_⟩
  · rcases hget _ _ hj with hj | ⟨rfl, rfl⟩
    · exact h.placed hj
    · exact hp.edition rfl
  · rcases hhold ha with ha | ha
    · exact hkeep (h.closed.targets ha hi)
    · exact hkeep (hp.targets ha hi)
  · rcases hhold ha with ha | ha <;> rcases hhold hb with hb | hb
    · exact h.closed.told ha hb hi
    · exact (hp.own hb ha hi).elim
    · exact (hp.own ha hb hi.symm).elim
    · exact Product.module.inj (ha.symm.trans hb)
  · rcases hhold hn with hn | hn
    · exact h.numbered hn
    · exact hp.numbered hn

theorem Coherent.leadsTo {l : Linker} (h : l.Coherent) {n : Node}
    (hn : ∀ t, Imports n t → l.Holds t) {uri : Uri} :
    n.leadsTo uri ↔ ∃ t, Imports n t ∧ ∃ m, Reaches t m ∧ m.uri = uri :=
  leadsTo_iff h.closed hn

theorem survives_module {uri : Uri} {n : Node} :
    survives uri n.edition (.module n) ↔ n.uri ≠ uri ∧ ¬ n.leadsTo uri := by
  simp only [survives, Bool.and_eq_true, decide_eq_true_eq, Bool.not_eq_true', Bool.not_eq_true]
  exact Iff.rfl

theorem holds_forget {l : Linker} (h : l.Coherent) {uri : Uri} {n : Node} :
    (l.forget uri).Holds n ↔ l.Holds n ∧ ∀ m, Reaches n m → m.uri ≠ uri := by
  rw [Holds, forget, SharedStore.get?_prune_eq_ready h.distinct, survives_module]
  refine and_congr_right fun hn => ?_
  rw [h.leadsTo fun t => h.closed.targets hn]
  constructor
  · rintro ⟨hu, hc⟩ m hm
    rcases Relation.ReflTransGen.cases_head hm with rfl | ⟨t, ht, hm⟩
    · exact hu
    · exact fun hu => hc ⟨t, ht, m, hm, hu⟩
  · intro hm
    exact ⟨hm n .refl, fun ⟨t, ht, m, hr, hu⟩ => hm m (.head ht hr) hu⟩

theorem get?_forget {l : Linker} (h : l.Coherent) {uri : Uri} {k : Edition} {p : Product}
    (hk : (l.forget uri).modules.get? k = some (.ready p)) :
    l.modules.get? k = some (.ready p) ∧ k.uri ≠ uri := by
  obtain ⟨hk, hs⟩ := (SharedStore.get?_prune_eq_ready h.distinct).1 hk
  refine ⟨hk, ?_⟩
  cases p with
  | module n => exact of_decide_eq_true (Bool.and_eq_true_iff.1 hs).1
  | failed => exact of_decide_eq_true hs

/-- Forgetting a document keeps the modules that no chain of imports leads there from. -/
theorem Coherent.forget {l : Linker} (h : l.Coherent) (uri : Uri) : (l.forget uri).Coherent := by
  have hsub {k : Edition} {p : Product}
      (hk : (l.forget uri).modules.get? k = some (.ready p)) :
      l.modules.get? k = some (.ready p) := (get?_forget h hk).1
  refine ⟨h.distinct.filter _, fun hk => h.placed (hsub hk), ⟨fun {a b} ha hi => ?_,
    fun ha hb hi => h.closed.told (hsub ha) (hsub hb) hi⟩, fun hn => h.numbered (hsub hn)⟩
  obtain ⟨ha, hm⟩ := (holds_forget h).1 ha
  exact (holds_forget h).2 ⟨h.closed.targets ha hi, fun m hr => hm m (.head hi hr)⟩

/-- What a linker that goes on following imports does to its store: it keeps what is ready, leaves
pending slots alone, and adds modules of documents as they are read, with new identities. -/
structure Grows (env : ImportEnv) (l l' : Linker) : Prop where
  drafts : l.drafts ≤ l'.drafts
  ready : ∀ {k p}, l.modules.get? k = some (.ready p) → l'.modules.get? k = some (.ready p)
  pending : ∀ {k}, l'.modules.get? k = some .pending ↔ l.modules.get? k = some .pending
  read : ∀ {k p}, l'.modules.get? k = some (.ready p) → l.modules.get? k = some (.ready p) ∨
    ∃ document, env.catalog.read k.uri = .ok document ∧ document.text = k.text
  own : ∀ {n}, l'.Holds n → l.Holds n ∨ l.drafts ≤ n.id.build

theorem Grows.refl (env : ImportEnv) (l : Linker) : l.Grows env l :=
  ⟨Nat.le_refl _, id, Iff.rfl, .inl, .inl⟩

theorem Grows.trans {env : ImportEnv} {a b c : Linker} (h : a.Grows env b) (h' : b.Grows env c) :
    a.Grows env c := by
  refine ⟨Nat.le_trans h.drafts h'.drafts, fun hk => h'.ready (h.ready hk),
    h'.pending.trans h.pending, fun hk => ?_, fun hn => ?_⟩
  · rcases h'.read hk with hk | hd
    · exact h.read hk
    · exact .inr hd
  · rcases h'.own hn with hn | hd
    · exact h.own hn
    · exact .inr (Nat.le_trans h.drafts hd)

theorem Grows.congr {env : ImportEnv} {a b a' b' : Linker} (h : a.Grows env b)
    (ha : a'.modules = a.modules) (hb : b'.modules = b.modules) (hda : a'.drafts ≤ a.drafts)
    (hdb : b.drafts ≤ b'.drafts) : a'.Grows env b' := by
  refine ⟨Nat.le_trans hda (Nat.le_trans h.drafts hdb), fun hk => ?_, ?_, fun hk => ?_,
    fun {n} hn => ?_⟩
  · exact hb ▸ h.ready (ha ▸ hk)
  · intro k
    rw [ha, hb]
    exact h.pending
  · rw [ha]
    exact h.read (hb ▸ hk)
  · rw [Holds, hb] at hn
    rw [Holds, ha]
    exact (h.own hn).imp_right (Nat.le_trans hda)

/-- Making a module: its slot is claimed, the store grows, and the slot is filled. -/
theorem Grows.made {env : ImportEnv} {l m : Linker} {k : Edition} {p : Product} {uri : Uri}
    {document : Document} (hk : l.modules.get? k = none)
    (h : Grows env ({ l with modules := l.modules.insert k .pending }.noteCall uri) m)
    (hd : env.catalog.read k.uri = .ok document) (ht : document.text = k.text)
    (hp : ∀ n, p = .module n → l.drafts ≤ n.id.build) :
    l.Grows env { m with modules := m.modules.publish k p } := by
  have hkeep (j : Edition) (q : Product) (hj : l.modules.get? j = some (.ready q)) : j ≠ k :=
    fun he => nomatch (he ▸ hj).symm.trans hk
  refine ⟨Nat.le_trans (Nat.le_succ _) h.drafts, fun {j q} hj => ?_, fun {j} => ?_,
    fun {j q} hj => ?_, fun {n} hn => ?_⟩
  · change (m.modules.publish k p).get? j = _
    rw [SharedStore.get?_publish, if_neg (hkeep j q hj)]
    exact h.ready ((ready_granted hk j q).2 hj)
  · change (m.modules.publish k p).get? j = _ ↔ _
    rw [SharedStore.get?_publish]
    split
    · next hjk => simp [hjk, hk]
    · next hjk =>
      rw [h.pending]
      change (l.modules.insert k .pending).get? j = _ ↔ _
      rw [Table.get?_insert, if_neg hjk]
  · change (m.modules.publish k p).get? j = _ at hj
    rw [SharedStore.get?_publish] at hj
    split at hj
    · next hjk => exact .inr ⟨document, hjk ▸ hd, hjk ▸ ht⟩
    · exact (h.read hj).imp_left (ready_granted hk j q).1
  · have hn : (m.modules.publish k p).get? n.edition = some (.ready (.module n)) := hn
    rw [SharedStore.get?_publish] at hn
    split at hn
    · next hjk =>
      cases hn
      exact .inr (hp n rfl)
    · rcases h.own (n := n) hn with hn | hn
      · exact .inl ((ready_granted hk _ _).1 hn)
      · exact .inr (Nat.le_trans (Nat.le_succ _) hn)

end Linker

end ModuleLens
