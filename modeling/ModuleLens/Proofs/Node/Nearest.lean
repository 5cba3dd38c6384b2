import ModuleLens.Proofs.Lists
import ModuleLens.Proofs.Node.Archive

/-! Where a name is declared.  Modules are searched level by level, so the one in which a
declaration is found is as few imports away as any that has one; in it, the declaration is the
first one.  The node that refers to the name is looked up by its identity, which belongs to one
node of the module, and so to one parent. -/

namespace ModuleLens

namespace Node

/-- A chain of so many imports leads from one module to another. -/
inductive Away (a : Node) : Nat → Node → Prop
  | here : Away a 0 a
  | next {k : Nat} {m n : Node} (h : Away a k m) (hi : Imports m n) : Away a (k + 1) n

theorem Away.of_import {a b m : Node} {k : Nat} (hi : Imports a b) (h : Away b k m) :
    Away a (k + 1) m := by
  induction h with
  | here => exact .next .here hi
  | next _ hmn ih => exact .next ih hmn

theorem reaches_iff_away {a m : Node} : Reaches a m ↔ ∃ k, Away a k m := by
  constructor
  · intro h
    induction h with
    | refl => exact ⟨0, .here⟩
    | tail _ hi ih =>
      obtain ⟨k, hk⟩ := ih
      exact ⟨k + 1, .next hk hi⟩
  · rintro ⟨k, hk⟩
    induction hk with
    | here => exact .refl
    | next _ hi ih => exact ih.tail hi

section Search

variable {β : Type} {f : Node → Option β} {p : Node → Prop} {seen next : Seen}
  {level new : List Node}

/-- A chain that leaves what was seen goes through the next level, and is shorter from there. -/
theorem Pending.away (hp : Closed p) (h : Pending p seen level) {a m : Node} {k : Nat} (ha : p a)
    (hs : seen.contains a.id) (hk : Away a k m) :
    seen.contains m.id ∨ ∃ b ∈ level, ∃ j < k, Away b j m := by
  induction hk with
  | here => exact .inl hs
  | @next k m n hm hmn ih =>
    have hpm : p m := hp.reaches ha (reaches_iff_away.2 ⟨k, hm⟩)
    rcases ih with hsm | ⟨b, hb, j, hj, hbm⟩
    · rcases h m hpm hsm n hmn with hsn | hn
      · exact .inl hsn
      · exact .inr ⟨n, hn, 0, Nat.succ_pos k, .here⟩
    · exact .inr ⟨b, hb, j + 1, Nat.succ_lt_succ hj, .next hbm hmn⟩

theorem none_of_seen (hp : Closed p) (hl : ∀ a ∈ level, p a)
    (hn : ∀ a, p a → seen.contains a.id → f a = none) (hf : fresh seen level = (new, next))
    (hnew : ∀ a ∈ new, f a = none) {a : Node} (ha : p a) (hs : next.contains a.id) :
    f a = none := by
  rcases (contains_fresh hf).1 hs with hs | ⟨m, hm, hi⟩
  · exact hn a ha hs
  · have hma : m = a := hp.told (hl m (mem_level_of_fresh hf hm)) ha hi
    exact hma ▸ hnew m hm

/-- What a visit finds first, none having been seen, is found as near as it can be. -/
theorem nearest_of_findSome? (hp : Closed p) (hl : ∀ a ∈ level, p a) (h : Pending p seen level)
    (hn : ∀ a, p a → seen.contains a.id → f a = none) {d : β}
    (hd : (reachFrom seen level).findSome? f = some d) :
    ∃ a ∈ level, ∃ k m, Away a k m ∧ f m = some d ∧
      ∀ b ∈ level, ∀ j n, Away b j n → (f n).isSome → k ≤ j := by
  fun_induction reachFrom seen level with
  | case1 => cases hd
  | case2 seen level n new next hf _ ih =>
    have hnew (a : Node) (ha : a ∈ n :: new) : p a := hl a (mem_level_of_fresh hf ha)
    cases hhere : (n :: new).findSome? f with
    | some e =>
      rw [List.findSome?_append, hhere, Option.some_or] at hd
      cases hd
      obtain ⟨m, hm, hfm⟩ := List.exists_of_findSome?_eq_some hhere
      exact ⟨m, mem_level_of_fresh hf hm, 0, m, .here, hfm, fun _ _ j _ _ _ => Nat.zero_le j⟩
    | none =>
      rw [List.findSome?_append, hhere, Option.none_or] at hd
      have hseen {a : Node} (ha : p a) (hs : next.contains a.id) : f a = none :=
        none_of_seen hp hl hn hf (List.findSome?_eq_none_iff.1 hhere) ha hs
      have hnext := h.next hp hl hf
      have hp' (b : Node) (hb : b ∈ (n :: new).flatMap Node.targets) : p b := by
        obtain ⟨a, ha, hab⟩ := List.mem_flatMap.1 hb
        exact hp.targets (hnew a ha) hab
      obtain ⟨b, hb, k, m, hk, hfm, hleast⟩ := ih hp' hnext (fun a => hseen) hd
      obtain ⟨a, ha, hab⟩ := List.mem_flatMap.1 hb
      refine ⟨a, mem_level_of_fresh hf ha, k + 1, m, .of_import hab hk, hfm,
        fun c hc j t hj ht => ?_⟩
      -- every chain from this level to a module with an answer goes through the next level
      rcases hnext.away hp (hl c hc) (contains_of_mem_level hf hc) hj with hs | ⟨b, hb, i, hi, ht'⟩
      · rw [hseen (hp.reaches (hl c hc) (reaches_iff_away.2 ⟨j, hj⟩)) hs] at ht
        cases ht
      · exact Nat.lt_of_le_of_lt (hleast b hb i t ht' ht) hi

end Search

/-- Going down once from each node of a tree comes to each node below its root. -/
theorem descendants_perm (n : Node) : n.descendants.Perm (n.nodes.flatMap children) := by
  induction n using childInduction with
  | h n ih =>
    have hsplit : n.descendants.Perm (n.children ++ n.children.flatMap descendants) := by
      have hh := List.map_append_flatMap_perm n.children (fun c => c) descendants
      rw [List.map_id'] at hh
      rw [descendants_eq]
      exact hh.symm
    have hbelow : (n.children.flatMap descendants).Perm (n.descendants.flatMap children) := by
      rw [descendants_eq n, List.flatMap_assoc]
      exact List.Perm.flatMap_left _ ih
    rw [nodes, List.flatMap_cons]
    exact hsplit.trans (hbelow.append_left _)

theorem mem_nodes_of_mem_children {n p c : Node} (hp : p ∈ n.nodes) (hc : c ∈ p.children) :
    c ∈ n.nodes :=
  List.mem_cons_of_mem n ((descendants_perm n).mem_iff.2 (List.mem_flatMap.2 ⟨p, hp, hc⟩))

theorem nodup_nodes {n : Node} (h : (n.nodes.map Node.id).Nodup) : n.nodes.Nodup := .of_map _ h

theorem parent_unique {n p q c : Node} (h : (n.nodes.map Node.id).Nodup) (hp : p ∈ n.nodes)
    (hq : q ∈ n.nodes) (hcp : c ∈ p.children) (hcq : c ∈ q.children) : p = q := by
  have hbelow : n.descendants.Nodup := (List.nodup_cons.1 (nodup_nodes h)).2
  exact eq_of_nodup_flatMap ((descendants_perm n).nodup_iff.1 hbelow) hp hq hcp hcq

def holds (r n : Node) : Bool := n.children.any fun c => c.id == r.id

theorem holderOf?_eq (m r : Node) : m.holderOf? r = m.nodes.find? (holds r) := by
  rw [holderOf?, findIn?_eq, underAll_cons, underAll, List.append_nil, nodes]
  rfl

theorem holderOf?_eq_some {m r p : Node} (h : (m.nodes.map Node.id).Nodup) (hr : r ∈ m.nodes) :
    m.holderOf? r = some p ↔ p ∈ m.nodes ∧ r ∈ p.children := by
  have hchild {q : Node} (hq : q ∈ m.nodes) : holds r q ↔ r ∈ q.children := by
    simp only [holds, List.any_eq_true, beq_iff_eq]
    constructor
    · rintro ⟨c, hc, hi⟩
      exact List.inj_on_of_nodup_map h (mem_nodes_of_mem_children hq hc) hr hi ▸ hc
    · exact fun hc => ⟨r, hc, rfl⟩
  rw [holderOf?_eq]
  constructor
  · intro hp
    have hmem := List.mem_of_find?_eq_some hp
    exact ⟨hmem, (hchild hmem).1 (List.find?_some hp)⟩
  · rintro ⟨hp, hrp⟩
    have hsome := List.find?_isSome.2 ⟨p, hp, (hchild hp).2 hrp⟩
    obtain ⟨q, hq⟩ := Option.isSome_iff_exists.1 hsome
    have hmem := List.mem_of_find?_eq_some hq
    rw [hq, parent_unique h hmem hp ((hchild hmem).1 (List.find?_some hq)) hrp]

/-- A node of a module refers to a name: a variable to that of its identifier, and an identifier in
a variable to its own. -/
inductive RefersTo (m r : Node) (name : Text) : Prop
  | variable {i : Node} (h : r.label = .variableReference) (hi : r.slot? .name = some i)
      (hn : i.label = .identifier name)
  | identifier {p : Node} (h : r.label = .identifier name) (hp : p ∈ m.nodes)
      (hr : r ∈ p.children) (hv : p.label = .variableReference)

theorem identifier?_eq_some {n : Node} {name : Text} :
    n.identifier? = some name ↔ n.label = .identifier name := by
  rw [identifier?]
  split
  · next h => simp [h]
  · next h => simpa using h name

theorem refersTo?_eq_some {m r : Node} (h : (m.nodes.map Node.id).Nodup) (hr : r ∈ m.nodes)
    {name : Text} : m.refersTo? r = some name ↔ RefersTo m r name := by
  rw [refersTo?]
  split
  · next hl =>
    rw [Option.bind_eq_some_iff]
    constructor
    · rintro ⟨i, hi, hn⟩
      exact .variable hl hi (identifier?_eq_some.1 hn)
    · rintro (⟨_, hi, hn⟩ | ⟨hi, _⟩)
      · exact ⟨_, hi, identifier?_eq_some.2 hn⟩
      · rw [hl] at hi
        cases hi
  · next own hl =>
    constructor
    · intro hname
      split at hname
      · next p hp =>
        obtain ⟨hmem, hrp⟩ := (holderOf?_eq_some h hr).1 hp
        split at hname
        · next hv =>
          cases hname
          exact .identifier hl hmem hrp (eq_of_beq hv)
        · cases hname
      · cases hname
    · rintro (⟨hv, _⟩ | ⟨hown, hp, hrp, hv⟩)
      · rw [hl] at hv
        cases hv
      · rw [hl] at hown
        cases hown
        rw [(holderOf?_eq_some h hr).2 ⟨hp, hrp⟩]
        simp only [hv, beq_self_eq_true, if_true]
  · next hv hi =>
    constructor
    · intro hname
      cases hname
    · rintro (⟨hl, _⟩ | ⟨hl, _⟩)
      · exact absurd hl hv
      · exact absurd hl (hi name)

/-- A node declares a name, and not as a parameter. -/
def Declares (d : Node) (name : Text) : Prop := d.declares? = some name ∧ d.label ≠ .parameter

/-- The first declaration of a name below a module, parents before their children. -/
def FirstDeclared (m : Node) (name : Text) (d : Node) : Prop :=
  d.Declares name ∧ ∃ before after, m.descendants = before ++ d :: after ∧
    ∀ e ∈ before, ¬ e.Declares name

theorem declares_iff {d : Node} {name : Text} :
    (d.declares? == some name && !d.isParameter) ↔ d.Declares name := by
  rw [Declares, isParameter, Bool.and_eq_true, beq_iff_eq, Bool.not_eq_true', beq_eq_false_iff_ne]

theorem declarationIn?_eq_some {m d : Node} {name : Text} :
    declarationIn? name m = some d ↔ m.FirstDeclared name d := by
  simp only [declarationIn?, findBelow?_eq, List.find?_eq_some_iff_append, Bool.not_eq_true',
    ← Bool.not_eq_true, declares_iff, FirstDeclared]

theorem isSome_declarationIn? {m : Node} {name : Text} :
    (declarationIn? name m).isSome ↔ ∃ d ∈ m.descendants, d.Declares name := by
  simp only [declarationIn?, findBelow?_eq, List.find?_isSome, declares_iff]

end Node

open Node

/-- What a node of a module refers to.  What is found is a declaration of the name, in a module that
is as few imports away as any that declares it, and the first one there; and it is found if there
is one in any module that imports lead to. -/
theorem definition_nearest {m r : Node} (h : m.Identified) (hr : r ∈ m.nodes) :
    (∀ d, m.definition? r = some d → ∃ name, RefersTo m r name ∧ ∃ k t, Away m k t ∧
      t.FirstDeclared name d ∧ ∀ j u, Away m j u → (∃ e ∈ u.descendants, e.Declares name) → k ≤ j) ∧
    ((m.definition? r).isSome ↔ ∃ name, RefersTo m r name ∧
      ∃ t, Reaches m t ∧ ∃ d ∈ t.descendants, d.Declares name) := by
  have hclosed := h.told.closed
  have hl : ∀ a ∈ [m], Reaches m a := by
    simp only [List.mem_singleton, forall_eq]
    exact .refl
  constructor
  · intro d hd
    obtain ⟨name, hname, hd⟩ := Option.bind_eq_some_iff.1 hd
    have hs : Pending (Reaches m) {} [m] := fun _ _ h => by simp at h
    obtain ⟨a, ha, k, t, hk, ht, hleast⟩ :=
      nearest_of_findSome? hclosed hl hs (fun _ _ h => by simp at h) hd
    rw [List.mem_singleton.1 ha] at hk
    refine ⟨name, (refersTo?_eq_some h.nodes hr).1 hname, k, t, hk,
      declarationIn?_eq_some.1 ht, fun j u hj hu => ?_⟩
    exact hleast m List.mem_cons_self j u hj (isSome_declarationIn?.2 hu)
  · rw [definition?, Option.isSome_bind]
    simp only [Option.any_eq_true, refersTo?_eq_some h.nodes hr, List.findSome?_isSome_iff,
      isSome_declarationIn?, mem_reach hclosed hl, List.mem_singleton, exists_eq_left]

def sharedModule : Node :=
  outlined 0 2 ⟨"file:///shared.pkl".toList, by decide⟩ "shared = 1\nshared = 2".toList
    fun _ => .notFound

def importerModule (build : Nat) (uri : Uri) : Node :=
  outlined build 1 uri "import \"shared.pkl\"".toList fun _ => .resolved sharedModule

def leftModule : Node := importerModule 1 ⟨"file:///one.pkl".toList, by decide⟩

def rightModule : Node := importerModule 2 ⟨"file:///two.pkl".toList, by decide⟩

/-- A module that imports two modules, which share a third one, and refers to a name of that. -/
def diamondModule : Node :=
  outlined 3 0 ⟨"file:///diamond.pkl".toList, by decide⟩
    "import \"one.pkl\"\nimport \"two.pkl\"\nx = shared".toList
    fun edge => .resolved (if edge.path = "one.pkl".toList then leftModule else rightModule)

theorem archive_diamond : Archive [diamondModule, rightModule, leftModule, sharedModule] := by
  have hid (build : Nat) (uri : Uri) : (importerModule build uri).id = ⟨build, 0⟩ :=
    id_outlined ..
  have hids : sharedModule.id = ⟨0, 0⟩ ∧ leftModule.id = ⟨1, 0⟩ ∧ rightModule.id = ⟨2, 0⟩ :=
    ⟨id_outlined .., hid 1 _, hid 2 _⟩
  have himporter {ms : List Node} (h : Archive ms) (hm : sharedModule ∈ ms) (build : Nat)
      (uri : Uri) (own : ∀ m ∈ ms, m.id.build ≠ build) :
      Archive (importerModule build uri :: ms) := by
    refine h.outline build _ _ _ own fun _ m hm => ?_
    cases hm
    assumption
  have hshared : Archive [sharedModule] :=
    Archive.empty.outline 0 _ _ _ nofun fun _ _ hm => nomatch hm
  have hleft : Archive [leftModule, sharedModule] :=
    himporter hshared (by simp) 1 _ (by simp [hids])
  have hright : Archive [rightModule, leftModule, sharedModule] :=
    himporter hleft (by simp) 2 _ (by simp [hids])
  refine hright.outline 3 _ _ _ (by simp [hids]) fun edge m hm => ?_
  cases hm
  split <;> simp

theorem definition_nearest_diamond : ∃ r ∈ diamondModule.nodes, diamondModule.Identified ∧
    (diamondModule.definition? r).map Node.text = some "shared = 1".toList ∧
    ∃ name, RefersTo diamondModule r name ∧
      ∃ t, Reaches diamondModule t ∧ ∃ d ∈ t.descendants, d.Declares name := by
  have hm : diamondModule.Identified := archive_diamond.identified List.mem_cons_self
  let answer := (diamondModule.nodes.find? fun n => n.label == .variableReference).map fun r =>
    (diamondModule.definition? r).map Node.text
  have hanswer : answer = some (some "shared = 1".toList) := by decide +kernel
  obtain ⟨r, hr, htext⟩ := Option.map_eq_some_iff.1 hanswer
  have hmem := List.mem_of_find?_eq_some hr
  have hsome : (diamondModule.definition? r).isSome := by
    rw [← Option.isSome_map, htext]
    rfl
  exact ⟨r, hmem, hm, htext, (definition_nearest hm hmem).2.1 hsome⟩

end ModuleLens
