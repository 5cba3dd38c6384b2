import ModuleLens.Proofs.Linker.Errands

/-! Interleavings of calling threads and workers.  A caller that builds an entry document reads it,
hands in a job for each import, and collects the answers in the order of the requests: by the reply
to the oldest job for the import, or on the spot if there is none.  A worker takes the oldest job,
does its errand and replies.  Every step of a thread is a step of the crew, in any order. -/

namespace ModuleLens

open Node

structure EntryBuild where
  tree : SyntaxTree
  document : Document
  number : Nat
  tickets : Linker.Tickets := {}
  answers : Answers := {}

def EntryBuild.draft (entry : EntryBuild) : Node :=
  draftModule entry.number entry.tree entry.document 0

inductive Caller where
  | reading (document : Document)
  /-- Hands in jobs for imports; those that are handed in have their numbers. -/
  | announcing (entry : EntryBuild) (edges : List ImportEdge) (numbered : List (ImportEdge × Nat))
  /-- Collects the answers to the requests that are left. -/
  | collecting (entry : EntryBuild) (requests : List Request)
  /-- Follows an import for which there is no job. -/
  | following (entry : EntryBuild) (request : Request) (requests : List Request)
      (errand : Errand (Outcome Node))
  /-- Follows a single import. -/
  | resolving (importing : Document) (depth : Nat) (edge : ImportEdge)
      (errand : Errand (Outcome Node))
  | built (tree : SyntaxTree) (document : Document) (module : Node)
  | failed (document : Document)
  | resolved (importing : Document) (depth : Nat) (edge : ImportEdge) (outcome : Outcome Node)
  | unwound

/-- The state of a crew: the jobs that workers are at, each with what is left of its errand, and
the calling threads. -/
structure Crew where
  linker : Linker
  active : List Job := []
  callers : List Caller

namespace Caller

inductive Step (env : ImportEnv) : Deed → Caller → Linker → Caller → Linker → Prop where
  | read {document : Document} {tree : SyntaxTree} (l : Linker)
      (h : env.source document = .tree tree) :
      Step env (.asked (document.edition 0)) (.reading document) l
        (.announcing { tree, document, number := l.drafts + 1 } (tree.scan document.text) [])
        { l.noteCall document.uri with drafts := l.drafts + 2 }
  | readFailed {document : Document} (l : Linker) (h : env.source document = .failed) :
      Step env (.asked (document.edition 0)) (.reading document) l (.failed document)
        (l.noteCall document.uri)
  | readUnwound (document : Document) (l : Linker) :
      Step env .unwound (.reading document) l .unwound (l.noteCall document.uri)
  | announce (entry : EntryBuild) (edge : ImportEdge) (edges : List ImportEdge)
      (numbered : List (ImportEdge × Nat)) (l : Linker) :
      Step env .quiet (.announcing entry (edge :: edges) numbered) l
        (.announcing entry edges (numbered ++ [(edge, l.tickets)]))
        { l with
          queue := l.queue ++ [⟨l.tickets, .follow env.maxDepth entry.document 0 edge⟩]
          tickets := l.tickets + 1 }
  | collect (entry : EntryBuild) (numbered : List (ImportEdge × Nat)) (l : Linker) :
      Step env .quiet (.announcing entry [] numbered) l
        (.collecting { entry with tickets := Linker.ticketsOf numbered } entry.draft.requests) l
  /-- Begins to wait for a reply. -/
  | wait {entry : EntryBuild} {r : Request} {ticket : Nat} {rest : Linker.Tickets}
      (rs : List Request) (l : Linker)
      (ht : Linker.takeTicket entry.tickets r.edge = some (ticket, rest)) :
      Step env .quiet (.collecting entry (r :: rs)) l (.collecting entry (r :: rs))
        { l with waits := l.waits + 1 }
  | reply {entry : EntryBuild} {r : Request} {l : Linker} {ticket : Nat} {rest : Linker.Tickets}
      {outcome : Outcome Node} (rs : List Request)
      (ht : Linker.takeTicket entry.tickets r.edge = some (ticket, rest))
      (ho : l.replies[ticket]? = some (some outcome)) :
      Step env .quiet (.collecting entry (r :: rs)) l
        (.collecting
          { entry with tickets := rest, answers := entry.answers.insert r.index outcome } rs) l
  | lost {entry : EntryBuild} {r : Request} {l : Linker} {ticket : Nat} {rest : Linker.Tickets}
      (rs : List Request) (ht : Linker.takeTicket entry.tickets r.edge = some (ticket, rest))
      (ho : l.replies[ticket]? = some none) :
      Step env .quiet (.collecting entry (r :: rs)) l
        (.collecting
          { entry with tickets := rest, answers := entry.answers.insert r.index .notFound } rs) l
  | giveUp {entry : EntryBuild} {r : Request} {l : Linker} {ticket : Nat} {rest : Linker.Tickets}
      (rs : List Request) (ht : Linker.takeTicket entry.tickets r.edge = some (ticket, rest))
      (ho : l.replies[ticket]? = none) :
      Step env .expired (.collecting entry (r :: rs)) l
        (.collecting
          { entry with tickets := rest, answers := entry.answers.insert r.index .timedOut } rs) l
  | inline {entry : EntryBuild} {r : Request} (rs : List Request) (l : Linker)
      (ht : Linker.takeTicket entry.tickets r.edge = none) :
      Step env .quiet (.collecting entry (r :: rs)) l
        (.following entry r rs (.follow env.maxDepth entry.document 0 r.edge)) l
  | follow {deed : Deed} {e e' : Errand (Outcome Node)} {l l' : Linker} (entry : EntryBuild)
      (r : Request) (rs : List Request) (h : Errand.Step env deed e l e' l') :
      Step env deed (.following entry r rs e) l (.following entry r rs e') l'
  | followed (entry : EntryBuild) (r : Request) (rs : List Request) (outcome : Outcome Node)
      (l : Linker) :
      Step env .quiet (.following entry r rs (.finished (some outcome))) l
        (.collecting { entry with answers := entry.answers.insert r.index outcome } rs) l
  | followUnwound (entry : EntryBuild) (r : Request) (rs : List Request) (l : Linker) :
      Step env .quiet (.following entry r rs (.finished none)) l .unwound l
  | link (entry : EntryBuild) (l : Linker) :
      Step env .quiet (.collecting entry []) l
        (.built entry.tree entry.document (entry.draft.link entry.answers)) l
  | resolve {deed : Deed} {e e' : Errand (Outcome Node)} {l l' : Linker} (importing : Document)
      (depth : Nat) (edge : ImportEdge) (h : Errand.Step env deed e l e' l') :
      Step env deed (.resolving importing depth edge e) l (.resolving importing depth edge e') l'
  | resolved (importing : Document) (depth : Nat) (edge : ImportEdge) (outcome : Outcome Node)
      (l : Linker) :
      Step env .quiet (.resolving importing depth edge (.finished (some outcome))) l
        (.resolved importing depth edge outcome) l
  | resolveUnwound (importing : Document) (depth : Nat) (edge : ImportEdge) (l : Linker) :
      Step env .quiet (.resolving importing depth edge (.finished none)) l .unwound l

end Caller

namespace Crew

inductive Step (env : ImportEnv) : Deed → Crew → Crew → Prop where
  | call {deed : Deed} {a a' : Caller} {l l' : Linker} (active : List Job) (pre post : List Caller)
      (h : Caller.Step env deed a l a' l') :
      Step env deed ⟨l, active, pre ++ a :: post⟩ ⟨l', active, pre ++ a' :: post⟩
  /-- A worker without a job takes the oldest one. -/
  | take {l : Linker} {job : Job} {rest : List Job} (active : List Job) (callers : List Caller)
      (hi : 0 < l.idle) (hq : l.queue = job :: rest) :
      Step env .quiet ⟨l, active, callers⟩
        ⟨{ l with idle := l.idle - 1, queue := rest }, job :: active, callers⟩
  | work {deed : Deed} {e e' : Errand (Outcome Node)} {l l' : Linker} (ticket : Nat)
      (pre post : List Job) (callers : List Caller) (h : Errand.Step env deed e l e' l') :
      Step env deed ⟨l, pre ++ ⟨ticket, e⟩ :: post, callers⟩
        ⟨l', pre ++ ⟨ticket, e'⟩ :: post, callers⟩
  /-- A worker replies; one that was thrown out replies with nothing. -/
  | reply (l : Linker) (ticket : Nat) (result : Option (Outcome Node)) (pre post : List Job)
      (callers : List Caller) :
      Step env .quiet ⟨l, pre ++ ⟨ticket, .finished result⟩ :: post, callers⟩
        ⟨{ l with idle := l.idle + 1, replies := l.replies.insert ticket result }, pre ++ post,
          callers⟩

/-- What a crew comes to, with what was done on the way, the latest first. -/
inductive Run (env : ImportEnv) (start : Crew) : List Deed → Crew → Prop where
  | refl : Run env start [] start
  | tail {deeds : List Deed} {c c' : Crew} {deed : Deed} (h : Run env start deeds c)
      (s : Step env deed c c') : Run env start (deed :: deeds) c'

variable {env : ImportEnv}

theorem Run.trans {a b c : Crew} {ds es : List Deed} (h : Run env a ds b)
    (h' : Run env b es c) : Run env a (es ++ ds) c := by
  induction h' with
  | refl => exact h
  | tail _ s ih => exact .tail ih s

/-- A run in which no wait takes too long and no build is thrown out. -/
def Calmly (env : ImportEnv) (c c' : Crew) : Prop :=
  ∃ deeds, (∀ deed ∈ deeds, deed.isCalm) ∧ Run env c deeds c'

theorem Calmly.refl (c : Crew) : Calmly env c c := ⟨[], by simp, .refl⟩

theorem Calmly.trans {a b c : Crew} (h : Calmly env a b) (h' : Calmly env b c) :
    Calmly env a c := by
  obtain ⟨ds, hd, h⟩ := h
  obtain ⟨es, he, h'⟩ := h'
  refine ⟨es ++ ds, fun deed hm => ?_, h.trans h'⟩
  rcases List.mem_append.1 hm with hm | hm
  · exact he deed hm
  · exact hd deed hm

theorem Calmly.tail {a b c : Crew} {deed : Deed} (h : Calmly env a b) (s : Step env deed b c)
    (hc : deed.isCalm) : Calmly env a c := by
  obtain ⟨deeds, hd, h⟩ := h
  refine ⟨deed :: deeds, fun d hm => ?_, .tail h s⟩
  rcases List.mem_cons.1 hm with rfl | hm
  · exact hc
  · exact hd d hm

theorem Step.calmly {a b : Crew} {deed : Deed} (s : Step env deed a b) (hc : deed.isCalm) :
    Calmly env a b :=
  (Calmly.refl a).tail s hc

end Crew

end ModuleLens
