import Mathlib.Logic.Relation
import ModuleLens.Proofs.Node.Listed
import ModuleLens.Proofs.Node.Nearest

/-! Builds that draw the numbers of their nodes from one counter.  Builds run at the same time or
inside each other, and between any two numbers of one the others may draw some.  A number is drawn
once as long as the counter does not run over, so the nodes of all modules that come of it can be
told apart, and each but the root has one parent; the same holds where a module is numbered when its
draft is complete, by the build that it comes from. -/

namespace ModuleLens

open Node

/-- Identities tell apart all nodes of some modules, and below a module each node is found once and
has one parent, which is found for the nodes of no other module. -/
structure ToldApart (ms : List Node) : Prop where
  ids : ((ms.flatMap nodes).map Node.id).Nodup
  once : ∀ m ∈ ms, m.descendants.Nodup ∧ m ∉ m.descendants ∧
    ∀ d, d ∈ m.descendants ↔ ∃ p ∈ m.nodes, d ∈ p.children
  parent : ∀ m ∈ ms, ∀ d ∈ m.descendants, ∃ p, m.holderOf? d = some p ∧ p ∈ m.nodes ∧
    d ∈ p.children ∧ ∀ q ∈ m.nodes, d ∈ q.children → q = p
  root : ∀ m ∈ ms, m.holderOf? m = none
  foreign : ∀ m ∈ ms, ∀ n ∈ ms, n ≠ m → ∀ d ∈ n.nodes, m.holderOf? d = none

theorem ToldApart.of_nodup {ms : List Node} (h : ((ms.flatMap nodes).map Node.id).Nodup) :
    ToldApart ms := by
  rw [List.map_flatMap] at h
  have hone := (List.nodup_flatMap.1 h).1
  have hbelow (m : Node) (d : Node) : d ∈ m.descendants ↔ ∃ p ∈ m.nodes, d ∈ p.children :=
    (descendants_perm m).mem_iff.trans List.mem_flatMap
  have hown {m : Node} (hm : m ∈ ms) := List.nodup_cons.1 (nodup_nodes (hone m hm))
  refine ⟨by rwa [List.map_flatMap], fun m hm => ⟨(hown hm).2, (hown hm).1, hbelow m⟩,
    fun m hm d hd => ?_, fun m hm => ?_, fun m hm n hn hne d hd => ?_⟩
  · have hmem : d ∈ m.nodes := List.mem_cons_of_mem m hd
    obtain ⟨p, hp, hdp⟩ := (hbelow m d).1 hd
    exact ⟨p, (holderOf?_eq_some (hone m hm) hmem).2 ⟨hp, hdp⟩, hp, hdp,
      fun q hq hdq => parent_unique (hone m hm) hq hp hdq hdp⟩
  · refine Option.eq_none_iff_forall_ne_some.2 fun p hp => (hown hm).1 ?_
    exact (hbelow m m).2 ⟨p, (holderOf?_eq_some (hone m hm) List.mem_cons_self).1 hp⟩
  · rw [holderOf?_eq, List.find?_eq_none]
    intro q hq hholds
    obtain ⟨c, hc, hi⟩ := List.any_eq_true.1 hholds
    have hmem : d.id ∈ m.nodes.map Node.id :=
      eq_of_beq hi ▸ List.mem_map_of_mem (mem_nodes_of_mem_children hq hc)
    exact hne (eq_of_nodup_flatMap h hn hm (List.mem_map_of_mem hd) hmem)

/-- The number that a counter of 64 bits gives out when it has given out so many, from one on. -/
def NodeId.minted (given : Nat) : NodeId := ⟨0, (given + 1) % UInt64.size⟩

theorem NodeId.minted_inj {j k : Nat} (hj : j < UInt64.size) (hk : k < UInt64.size)
    (h : minted j = minted k) : j = k := by
  have hsize : UInt64.size = 18446744073709551616 := rfl
  have hmod : (j + 1) % UInt64.size = (k + 1) % UInt64.size := congrArg NodeId.index h
  rw [hsize] at hj hk hmod
  omega

/-- The build of a module: the numbers that it has drawn, each by how many were given out before,
and its module when that is there. -/
structure Build where
  root : SyntaxTree
  document : Document
  depth : Nat
  drawn : List Nat := []
  module : Option Node := none

/-- Builds that draw numbers from one counter, and how many it has given out. -/
structure Mint where
  given : Nat := 0
  builds : List Build := []

namespace Build

/-- How a build makes its nodes from some numbers, when its imports are answered like this. -/
def making (b : Build) (drawn : List Nat) (answer : Nat → ImportEdge → Outcome Node) : Making :=
  { context := ⟨b.document, b.depth, .of b.document.text⟩
    number := fun k => .minted (drawn.getD k 0)
    answer }

def made (b : Build) (answer : Nat → ImportEdge → Outcome Node) : Node :=
  ((b.making b.drawn answer).module b.root).1

/-- How many numbers a build draws in all. -/
def size (b : Build) : Nat := ((b.making [] fun _ _ => .notFound).module b.root).2

theorem ids_made {b : Build} (h : b.drawn.length = b.size)
    (answer : Nat → ImportEdge → Outcome Node) :
    (b.made answer).ids.Subperm (b.drawn.map NodeId.minted) := by
  have hdrawn : (List.range b.size).map (b.making b.drawn answer).number =
      b.drawn.map NodeId.minted := by
    refine List.ext_getElem (by simp [h]) fun k hk hk' => ?_
    simp [making, List.getD_eq_getElem?_getD, List.getElem?_eq_getElem (by simpa using hk')]
  have hids := (b.making b.drawn answer).ids_module b.root
  rwa [Making.count_module _ (b.making [] fun _ _ => .notFound), ← size, hdrawn] at hids

/-- A build draws no more than it needs, and its module is made from what it has drawn. -/
structure Sound (b : Build) : Prop where
  size : b.drawn.length ≤ b.size
  made : ∀ m, b.module = some m → b.drawn.length = b.size ∧ ∃ answer, m = b.made answer

end Build

namespace Mint

/-- A build begins, an unfinished one draws a number, or one that has drawn all its numbers comes to
an end, whatever its imports were answered with. -/
inductive Step : Mint → Mint → Prop
  | begin (p : Mint) (root : SyntaxTree) (document : Document) (depth : Nat) :
      Step p { p with builds := p.builds ++ [{ root, document, depth }] }
  | draw {given : Nat} {before after : List Build} {b : Build} (more : b.drawn.length < b.size)
      (unfinished : b.module = none) :
      Step ⟨given, before ++ b :: after⟩
        ⟨given + 1, before ++ { b with drawn := b.drawn ++ [given] } :: after⟩
  | finish {given : Nat} {before after : List Build} {b : Build} (all : b.drawn.length = b.size)
      (unfinished : b.module = none) (answer : Nat → ImportEdge → Outcome Node) :
      Step ⟨given, before ++ b :: after⟩
        ⟨given, before ++ { b with module := some (b.made answer) } :: after⟩

abbrev Run := Relation.ReflTransGen Step

/-- The modules of the builds that have come to an end. -/
def modules (p : Mint) : List Node := p.builds.filterMap Build.module

/-- The modules of all builds, each numbered by itself when its draft is complete. -/
def linked (p : Mint) (answers : Nat → Answers) : List Node :=
  p.builds.mapIdx fun i b => (draftModule i b.root b.document b.depth).link (answers i)

theorem run_draw {given : Nat} {before after : List Build} {b : Build}
    (unfinished : b.module = none) (k : Nat) (h : b.drawn.length + k ≤ b.size) :
    Run ⟨given, before ++ b :: after⟩
      ⟨given + k, before ++ { b with drawn := b.drawn ++ List.range' given k } :: after⟩ := by
  induction k with
  | zero =>
    rw [List.range'_zero, List.append_nil]
    exact .refl
  | succ k ih =>
    have hrun := ih (Nat.le_of_succ_le h)
    have hlength : (b.drawn ++ List.range' given k).length < b.size := by
      rw [List.length_append, List.length_range']
      exact h
    rw [List.range'_1_concat, ← List.append_assoc]
    exact hrun.tail (.draw hlength unfinished)

/-- An unfinished build can draw what it still needs and come to an end. -/
theorem run_finish {given : Nat} {before after : List Build} {b : Build}
    (unfinished : b.module = none) (k : Nat) (h : b.drawn.length + k = b.size)
    (answer : Nat → ImportEdge → Outcome Node) :
    let b' := { b with drawn := b.drawn ++ List.range' given k }
    Run ⟨given, before ++ b :: after⟩
      ⟨given + k, before ++ { b' with module := some (b'.made answer) } :: after⟩ := by
  intro b'
  have hdrawn : b'.drawn.length = b.size := by rw [List.length_append, List.length_range', h]
  exact (run_draw unfinished k (Nat.le_of_eq h)).tail (.finish hdrawn unfinished answer)

/-- No number is drawn twice, and each build keeps to its own. -/
structure Sound (p : Mint) : Prop where
  apart : (p.builds.flatMap Build.drawn).Nodup
  given : ∀ k ∈ p.builds.flatMap Build.drawn, k < p.given
  builds : ∀ b ∈ p.builds, b.Sound

theorem Sound.step {p q : Mint} (h : Sound p) (hs : Step p q) : Sound q := by
  cases hs with
  | begin _ root document depth =>
    have hdrawn : (p.builds ++ [{ root, document, depth : Build }]).flatMap Build.drawn =
        p.builds.flatMap Build.drawn := by simp
    refine ⟨hdrawn ▸ h.apart, hdrawn ▸ h.given, List.forall_mem_append.2 ⟨h.builds, ?_⟩⟩
    exact List.forall_mem_singleton.2 ⟨Nat.zero_le _, nofun⟩
  | @draw given before after b more unfinished =>
    have hdrawn : ((before ++ { b with drawn := b.drawn ++ [given] } :: after).flatMap
        Build.drawn).Perm (given :: (before ++ b :: after).flatMap Build.drawn) := by
      simp only [List.flatMap_append, List.flatMap_cons, List.append_assoc]
      refine (List.Perm.append_left _ ?_).trans List.perm_middle
      exact List.perm_middle
    refine ⟨hdrawn.nodup_iff.2 (List.nodup_cons.2 ⟨fun hk => ?_, h.apart⟩), fun k hk => ?_,
      forall_mem_replace h.builds ⟨?_, fun m hm => ?_⟩⟩
    · exact Nat.lt_irrefl given (h.given given hk)
    · rcases List.mem_cons.1 (hdrawn.mem_iff.1 hk) with rfl | hk
      · exact Nat.lt_succ_self k
      · exact Nat.lt_succ_of_lt (h.given k hk)
    · exact Nat.le_trans (Nat.le_of_eq (List.length_append ..)) more
    · cases unfinished.symm.trans hm
  | @finish given before after b all unfinished answer =>
    have hdrawn : (before ++ { b with module := some (b.made answer) } :: after).flatMap
        Build.drawn = (before ++ b :: after).flatMap Build.drawn := by
      simp only [List.flatMap_append, List.flatMap_cons]
    refine ⟨hdrawn ▸ h.apart, hdrawn ▸ h.given,
      forall_mem_replace h.builds ⟨Nat.le_of_eq all, fun m hm => ⟨all, answer, ?_⟩⟩⟩
    exact (Option.some.inj hm).symm

theorem Sound.of_run {p : Mint} (h : Run {} p) : Sound p := by
  induction h with
  | refl => exact ⟨.nil, nofun, nofun⟩
  | tail _ hs ih => exact ih.step hs

/-- Whatever was drawn so far, all builds can come to an end. -/
theorem Sound.completes {p : Mint} (h : Sound p) : ∃ q : Mint, Run p q ∧
    q.builds.length = p.builds.length ∧ ∀ b ∈ q.builds, b.module.isSome := by
  have hrest : ∀ (rest before : List Build) (given : Nat), (∀ b ∈ rest, b.Sound) →
      (∀ b ∈ before, b.module.isSome) → ∃ q : Mint, Run ⟨given, before ++ rest⟩ q ∧
        q.builds.length = before.length + rest.length ∧ ∀ b ∈ q.builds, b.module.isSome := by
    intro rest
    induction rest with
    | nil =>
      intro before given _ hdone
      exact ⟨⟨given, before⟩, by rw [List.append_nil], by simp, hdone⟩
    | cons b rest ih =>
      intro before given hs hdone
      obtain ⟨hb, hs⟩ := List.forall_mem_cons.1 hs
      -- When the first of the rest is done, it belongs to those before.
      have hnext (given' : Nat) (b' : Build) (hb' : b'.module.isSome)
          (hrun : Run ⟨given, before ++ b :: rest⟩ ⟨given', before ++ b' :: rest⟩) :
          ∃ q : Mint, Run ⟨given, before ++ b :: rest⟩ q ∧
            q.builds.length = before.length + (b :: rest).length ∧
              ∀ b ∈ q.builds, b.module.isSome := by
        have hdone' := List.forall_mem_append.2 ⟨hdone, List.forall_mem_singleton.2 hb'⟩
        obtain ⟨q, hq, hlength, hall⟩ := ih (before ++ [b']) given' hs hdone'
        rw [List.append_assoc, List.singleton_append] at hq
        refine ⟨q, hrun.trans hq, ?_, hall⟩
        simp only [hlength, List.length_append, List.length_cons, List.length_nil]
        omega
      cases hm : b.module with
      | some m => exact hnext given b (by rw [hm]; rfl) .refl
      | none =>
        have hneeds := Nat.add_sub_of_le hb.size
        exact hnext _ _ rfl (run_finish hm _ hneeds fun _ _ => .notFound)
  obtain ⟨q, hq, hlength, hall⟩ := hrest p.builds [] p.given h.builds nofun
  exact ⟨q, hq, by simpa using hlength, hall⟩

theorem Sound.ids_nodup {p : Mint} (h : Sound p) (hp : p.given ≤ UInt64.size) :
    ((p.modules.flatMap nodes).map Node.id).Nodup := by
  have hbuild : ∀ b ∈ p.builds, (b.module.toList.flatMap ids).Subperm
      (b.drawn.map NodeId.minted) := by
    intro b hb
    cases hm : b.module with
    | none => exact List.nil_subperm
    | some m =>
      obtain ⟨hsize, answer, rfl⟩ := (h.builds b hb).made m hm
      simpa using b.ids_made hsize answer
  have hall := flatMap_subperm hbuild
  have hids : (p.modules.flatMap nodes).map Node.id =
      p.builds.flatMap fun b => b.module.toList.flatMap ids := by
    rw [modules, List.map_flatMap, List.filterMap_eq_flatMap_toList, List.flatMap_assoc]
    rfl
  rw [← List.map_flatMap, ← hids] at hall
  obtain ⟨l, hperm, hsub⟩ := hall
  refine hperm.nodup_iff.1 (hsub.nodup (.map_on (fun j hj k hk => NodeId.minted_inj ?_ ?_) h.apart))
  · exact Nat.lt_of_lt_of_le (h.given j hj) hp
  · exact Nat.lt_of_lt_of_le (h.given k hk) hp

theorem linked_ids_nodup (p : Mint) (answers : Nat → Answers) :
    (((p.linked answers).flatMap nodes).map Node.id).Nodup := by
  have hbuild (i : Nat) (b : Build) :
      ∀ id ∈ ((draftModule i b.root b.document b.depth).link (answers i)).nodes.map Node.id,
        id.build = i := by
    intro id hid
    obtain ⟨d, hd, rfl⟩ := List.mem_map.1 hid
    rw [nodes_link] at hd
    obtain ⟨e, he, rfl⟩ := List.mem_map.1 hd
    rw [id_link]
    exact (draftModule_nodes i b.root b.document b.depth e he).2.2.2
  rw [List.map_flatMap, List.nodup_flatMap]
  refine ⟨fun m hm => ?_, ?_⟩
  · obtain ⟨i, hi, rfl⟩ := List.mem_mapIdx.1 hm
    exact ids_linked_nodup ..
  · rw [List.pairwise_iff_getElem]
    intro i j hi hj hij id hid hjd
    simp only [linked, List.getElem_mapIdx] at hid hjd
    exact Nat.ne_of_lt hij ((hbuild i _ id hid).symm.trans (hbuild j _ id hjd))

end Mint

/-- Whatever builds draw from one counter, the nodes of all modules that come of it can be told
apart as long as it does not run over.  So can they where each module is numbered by itself, and
those are the same modules but for identities and outcomes. -/
theorem nodes_told_apart {p : Mint} (h : Mint.Run {} p) (answers : Nat → Answers) :
    (p.given ≤ UInt64.size → ToldApart p.modules) ∧ ToldApart (p.linked answers) ∧
      ∀ (i : Nat) (b : Build) (m : Node), p.builds[i]? = some b → b.module = some m →
        ∃ n, (p.linked answers)[i]? = some n ∧ n.blank = m.blank := by
  have hsound := Mint.Sound.of_run h
  refine ⟨fun hp => .of_nodup (hsound.ids_nodup hp), .of_nodup (p.linked_ids_nodup answers),
    fun i b m hb hm => ?_⟩
  have hlinked : (p.linked answers)[i]? =
      some ((draftModule i b.root b.document b.depth).link (answers i)) := by
    simp [Mint.linked, hb]
  obtain ⟨_, answer, rfl⟩ := (hsound.builds b (List.mem_of_getElem? hb)).made m hm
  refine ⟨_, hlinked, ?_⟩
  rw [blank_linked, Build.made, Making.blank_module]
  rfl

/-- A build of a module that imports another one. -/
def importingBuild : Build where
  root := .rule "module" ⟨0, 18⟩
    [.rule "importClause" ⟨0, 18⟩ [.token "import" ⟨0, 6⟩, .leaf "stringConstant" ⟨7, 18⟩]]
  document := ⟨⟨"file:///outer.pkl".toList, by decide⟩, none, "import \"inner.pkl\"".toList⟩
  depth := 0

def importedBuild : Build where
  root := .rule "module" ⟨0, 1⟩ [.leaf "identifier" ⟨0, 1⟩]
  document := ⟨⟨"file:///inner.pkl".toList, by decide⟩, none, "x".toList⟩
  depth := 1

/-- The imported module is built while the import is followed, after one number was drawn. -/
theorem nodes_told_apart_nested : ∃ (p : Mint) (m n : Node), Mint.Run {} p ∧
    p.given ≤ UInt64.size ∧ p.modules = [m, n] ∧ m.targets.map Node.id = [n.id] ∧
    m.nodes.map (fun d => d.id.index) = [5, 4, 1] ∧ n.nodes.map (fun d => d.id.index) = [3, 2] ∧
    ToldApart p.modules := by
  let begun : Build := { importingBuild with drawn := [0] }
  have hbegun : Mint.Run {} ⟨1, [begun, importedBuild]⟩ := by
    have hfirst := @Mint.run_draw 0 [] [] importingBuild rfl 1 (by decide +kernel)
    exact ((Relation.ReflTransGen.single (.begin {} ..)).trans hfirst).tail
      (.begin ⟨1, [begun]⟩ ..)
  let drawn : Build := { importedBuild with drawn := [1, 2] }
  let n := drawn.made fun _ _ => .notFound
  let imported : Build := { drawn with module := some n }
  have himported : Mint.Run ⟨1, [begun, importedBuild]⟩ ⟨3, [begun, imported]⟩ :=
    @Mint.run_finish 1 [begun] [] importedBuild rfl 2 (by decide +kernel) fun _ _ => .notFound
  let m := ({ begun with drawn := [0, 3, 4] } : Build).made fun _ _ => .resolved n
  have himporting : Mint.Run ⟨3, [begun, imported]⟩
      ⟨5, [{ begun with drawn := [0, 3, 4], module := some m }, imported]⟩ :=
    @Mint.run_finish 3 [] [imported] begun rfl 2 (by decide +kernel) fun _ _ => .resolved n
  have hrun := (hbegun.trans himported).trans himporting
  have hgiven : 5 ≤ UInt64.size := by decide
  exact ⟨_, m, n, hrun, hgiven, rfl, by decide +kernel, by decide +kernel, by decide +kernel,
    (nodes_told_apart hrun fun _ => {}).1 hgiven⟩

end ModuleLens
