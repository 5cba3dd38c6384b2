import ModuleLens.Proofs.Linker.Schedules
import ModuleLens.Proofs.Outline
import ModuleLens.Sketch

/-! Imports that are announced.  A build announces at once what a scan of its tree finds, and then
follows the imports of its clauses.  If all of these were announced, each is answered by the reply
to a job of its own. -/

namespace ModuleLens

namespace Linker

/-- Takes a ticket for each import, in order. -/
def takeAll : Tickets → List ImportEdge → Option (List Nat)
  | _, [] => some []
  | tickets, edge :: edges =>
    match takeTicket tickets edge with
    | none => none
    | some (ticket, rest) => (takeAll rest edges).map (ticket :: ·)

/-- Tickets for numbered imports, those for one import in their order. -/
def Lists (tickets : Tickets) (numbered : List (ImportEdge × Nat)) : Prop :=
  ∀ e, tickets.getD e [] = (numbered.filter fun n => n.1 = e).map Prod.snd

variable {tickets : Tickets}

theorem Lists.takeTicket {pre post : List (ImportEdge × Nat)} {edge : ImportEdge} {ticket : Nat}
    (h : Lists tickets (pre ++ (edge, ticket) :: post)) (hpre : ∀ n ∈ pre, n.1 ≠ edge) :
    ∃ rest, Linker.takeTicket tickets edge = some (ticket, rest) ∧ Lists rest (pre ++ post) := by
  have hnone : pre.filter (fun n => n.1 = edge) = [] :=
    List.filter_eq_nil_iff.2 fun n hn => by simpa using hpre n hn
  have hedge : tickets.getD edge [] =
      ticket :: (post.filter fun n => n.1 = edge).map Prod.snd := by
    rw [h edge, List.filter_append, hnone]
    simp
  refine ⟨tickets.insert edge ((post.filter fun n => n.1 = edge).map Prod.snd), ?_, fun e => ?_⟩
  · rw [Linker.takeTicket, hedge]
  · by_cases he : edge = e
    · subst he
      rw [List.filter_append, hnone]
      simp
    · have hc : ImportEdge.order edge e ≠ .eq := fun hc => he (Std.LawfulEqCmp.eq_of_compare hc)
      have hh := h e
      simpa [Std.TreeMap.getD_insert, hc, he] using hh

theorem Lists.takeAll {numbered : List (ImportEdge × Nat)} {edges : List ImportEdge}
    (h : Lists tickets numbered) (hs : edges.Subperm (numbered.map Prod.fst)) :
    ∃ ts, Linker.takeAll tickets edges = some ts ∧ ts.length = edges.length ∧
      (edges.zip ts).Subperm numbered := by
  induction edges generalizing tickets numbered with
  | nil => exact ⟨[], rfl, rfl, List.nil_subperm⟩
  | cons edge edges ih =>
    obtain ⟨n, hn, hne⟩ := List.mem_map.1 (hs.subset List.mem_cons_self)
    have hsome : (numbered.find? fun n => n.1 = edge).isSome :=
      List.find?_isSome.2 ⟨n, hn, by simpa using hne⟩
    obtain ⟨⟨e, ticket⟩, hfirst⟩ := Option.isSome_iff_exists.1 hsome
    obtain ⟨he, pre, post, rfl, hpre⟩ := List.find?_eq_some_iff_append.1 hfirst
    obtain rfl : e = edge := by simpa using he
    -- The ticket that is taken is the first one for its import; the others stay in their order.
    obtain ⟨rest, htake, hrest⟩ := h.takeTicket fun n hn => by simpa using hpre n hn
    have hperm : (pre ++ (e, ticket) :: post).Perm ((e, ticket) :: (pre ++ post)) :=
      List.perm_middle
    have hedges : edges.Subperm ((pre ++ post).map Prod.fst) :=
      (List.subperm_cons e).1 (hs.trans (hperm.map Prod.fst).subperm)
    obtain ⟨ts, hts, hlength, hzip⟩ := ih hrest hedges
    refine ⟨ticket :: ts, ?_, congrArg (· + 1) hlength, ?_⟩
    · rw [Linker.takeAll, htake]
      simp only [hts, Option.map_some]
    · rw [List.zip_cons_cons]
      exact ((List.subperm_cons _).2 hzip).trans hperm.symm.subperm

/-- Waits for the replies to jobs, one after the other. -/
def awaitAll (env : ImportEnv) (answers : Node.Answers) :
    Linker → List (Node.Request × Nat) → Node.Answers × Linker
  | l, [] => (answers, l)
  | l, (r, ticket) :: rest =>
    let (outcome, l) := l.awaitReply env ticket
    awaitAll env (answers.insert r.index outcome) l rest

theorem collect_eq {env : ImportEnv} {importing : Document} {rs : List Node.Request} {ts : List Nat}
    (h : takeAll tickets (rs.map Node.Request.edge) = some ts) (answers : Node.Answers)
    (l : Linker) :
    collect env importing answers l tickets rs =
      (.done (awaitAll env answers l (rs.zip ts)).1, (awaitAll env answers l (rs.zip ts)).2) := by
  induction rs generalizing tickets ts answers l with
  | nil =>
    cases h
    rfl
  | cons r rs ih =>
    rw [List.map_cons, takeAll] at h
    cases htake : takeTicket tickets r.edge with
    | none =>
      rw [htake] at h
      cases h
    | some taken =>
      obtain ⟨ticket, rest⟩ := taken
      rw [htake] at h
      obtain ⟨ts, hts, rfl⟩ := Option.map_eq_some_iff.1 h
      rw [collect, answer, htake]
      exact ih hts _ _

/-- Each request of an entry build is answered by the reply to a job of its own that was queued when
the imports were announced. -/
structure Served (env : ImportEnv) (document : Document) (edges : List ImportEdge)
    (rs : List Node.Request) (l : Linker) (served : List (Node.Request × Nat)) : Prop where
  requests : served.map Prod.fst = rs
  own : (served.map Prod.snd).Nodup
  queued : ∀ s ∈ served, Job.mk s.2 (.follow env.maxDepth document 0 s.1.edge) ∈
    (l.announce env document edges).2.queue
  awaited : ∀ answers l', collect env document answers l' (l.announce env document edges).1 rs =
    (.done (awaitAll env answers l' served).1, (awaitAll env answers l' served).2)

theorem served_of_subperm {edges : List ImportEdge} {rs : List Node.Request}
    (h : (rs.map Node.Request.edge).Subperm edges) (env : ImportEnv) (document : Document)
    (l : Linker) : ∃ served, Served env document edges rs l served := by
  have hlists : Lists (l.announce env document edges).1 (edges.zipIdx l.tickets) :=
    getD_ticketsOf _
  have hfst : (edges.zipIdx l.tickets).map Prod.fst = edges := List.zipIdx_map_fst _ _
  obtain ⟨ts, hts, hlength, hzip⟩ := hlists.takeAll (hfst.symm ▸ h)
  rw [List.length_map] at hlength
  have hmem {s : Node.Request × Nat} (hs : s ∈ rs.zip ts) :
      (s.1.edge, s.2) ∈ edges.zipIdx l.tickets := by
    refine hzip.subset ?_
    rw [List.zip_map_left]
    exact List.mem_map_of_mem (f := Prod.map Node.Request.edge id) hs
  have hnodup : ts.Nodup := by
    have hsnd : ((rs.map Node.Request.edge).zip ts).map Prod.snd = ts :=
      List.map_snd_zip (by simp [hlength])
    obtain ⟨m, hperm, hsub⟩ := hzip
    have hall : ((edges.zipIdx l.tickets).map Prod.snd).Nodup := by
      rw [List.zipIdx_map_snd]
      exact List.nodup_range'
    have hm := hall.sublist (hsub.map Prod.snd)
    rw [← hsnd]
    exact (hperm.map Prod.snd).nodup_iff.1 hm
  refine ⟨rs.zip ts, List.map_fst_zip (Nat.le_of_eq hlength.symm), ?_, fun s hs => ?_,
    fun answers l' => collect_eq hts answers l'⟩
  · rwa [List.map_snd_zip (Nat.le_of_eq hlength)]
  · exact List.mem_append_right _ (List.mem_map.2 ⟨_, hmem hs, rfl⟩)

end Linker

open Node

namespace ImportCall

def announced : ImportCall → List ImportEdge
  | announce edges => edges
  | follow _ => []

def followed? : ImportCall → Option ImportEdge
  | announce _ => none
  | follow edge => some edge

end ImportCall

def announcedBy (calls : List ImportCall) : List ImportEdge := calls.flatMap ImportCall.announced

def followedBy (calls : List ImportCall) : List ImportEdge := calls.filterMap ImportCall.followed?

section

variable (build depth : Nat) (root : SyntaxTree) (document : Document)

theorem announcedBy_importCalls :
    announcedBy (importCalls build root document depth) = root.scan document.text := by
  have hfollow (rs : List Request) :
      announcedBy (rs.map fun r => ImportCall.follow r.edge) = [] := by
    rw [announcedBy, List.flatMap_map]
    exact List.flatMap_eq_nil_iff.2 fun _ _ => rfl
  rw [importCalls, announcedBy, List.flatMap_append, ← announcedBy, ← announcedBy, hfollow,
    List.append_nil]
  split
  · next h => exact (List.isEmpty_iff.1 h).symm
  · simp [announcedBy, ImportCall.announced]

theorem followedBy_importCalls :
    followedBy (importCalls build root document depth) =
      (draftModule build root document depth).requests.map Request.edge := by
  have hfollow (rs : List Request) :
      followedBy (rs.map fun r => ImportCall.follow r.edge) = rs.map Request.edge := by
    rw [followedBy, List.filterMap_map]
    exact congrFun (List.filterMap_eq_map (f := Request.edge)) rs
  rw [importCalls, followedBy, List.filterMap_append, ← followedBy, ← followedBy, hfollow]
  split
  · rfl
  · rfl

end

/-- Imports are announced at most once, before any is followed. -/
def AnnouncesFirst (calls : List ImportCall) : Prop :=
  ∃ announcements : List (List ImportEdge), announcements.length ≤ 1 ∧
    calls = announcements.map .announce ++ (followedBy calls).map .follow

theorem announcesFirst_importCalls (build depth : Nat) (root : SyntaxTree) (document : Document) :
    AnnouncesFirst (importCalls build root document depth) := by
  let edges := root.scan document.text
  refine ⟨if edges.isEmpty then [] else [edges], ?_, ?_⟩
  · split <;> simp
  · rw [followedBy_importCalls, List.map_map, importCalls]
    congr 1
    split <;> rfl

/-- A build of a tree whose root is neither wrong nor absent follows the imports of the clauses that
chains of seats lead to.  All of them were announced, unless the root is a clause itself and others
are followed below it; then each is answered by a job of its own.  Of an outline just those imports
are announced that are followed. -/
theorem followed_announced_iff (build depth : Nat) {root : SyntaxTree} (document : Document)
    (hw : root.head.wrong = false) (ha : root.head.absent = false) :
    let calls := importCalls build root document depth
    let followed := root.followedInModule (.of document.text)
    AnnouncesFirst calls ∧ (followedBy calls).Perm followed ∧
      ((followedBy calls).Subperm (announcedBy calls) ↔
        ∀ edge, SyntaxTree.importEdge? (.of document.text) root.head root.children = some edge →
          followed.Subperm [edge]) ∧
      ((followedBy calls).Subperm (announcedBy calls) →
        ∀ env l, ∃ served, Linker.Served env document (announcedBy calls)
          (draftModule build root document depth).requests l served) ∧
      (root = Outline.parse document.text → (followedBy calls).Perm (announcedBy calls)) := by
  intro calls followed
  have hfollowed : (followedBy calls).Perm followed := by
    rw [followedBy_importCalls]
    exact requests_draftModule_perm build depth root document
  have hannounced : announcedBy calls = root.scanBy (.of document.text) :=
    announcedBy_importCalls build depth root document
  refine ⟨announcesFirst_importCalls build depth root document, hfollowed, ?_, fun h env l => ?_,
    fun h => ?_⟩
  · rw [hfollowed.subperm_right, hannounced]
    cases he : SyntaxTree.importEdge? (.of document.text) root.head root.children with
    | none => exact iff_of_true (SyntaxTree.followedInModule_subperm _ hw ha he) nofun
    | some edge =>
      rw [SyntaxTree.scanBy_of_edge _ hw ha he]
      exact ⟨fun h e hh => Option.some.inj hh ▸ h, fun h => h edge rfl⟩
  · rw [followedBy_importCalls] at h
    exact Linker.served_of_subperm h env document l
  · subst h
    rw [hannounced]
    exact hfollowed.trans (Outline.followedInModule_parse _ _)

def twiceDocument : Document :=
  ⟨⟨"file:///twice.pkl".toList, by decide⟩, some 1,
    "amends \"base.pkl\"\nimport \"a.pkl\"\nimport \"a.pkl\"\n".toList⟩

def twiceTree : SyntaxTree := Outline.parse twiceDocument.text

theorem followed_announced_iff_twice :
    twiceTree.head.wrong = false ∧ twiceTree.head.absent = false ∧
      announcedBy (importCalls 0 twiceTree twiceDocument 0) = [⟨.amending, "base.pkl".toList⟩,
        ⟨.plain, "a.pkl".toList⟩, ⟨.plain, "a.pkl".toList⟩] ∧
      (followedBy (importCalls 0 twiceTree twiceDocument 0)).Perm
        (announcedBy (importCalls 0 twiceTree twiceDocument 0)) := by
  have hw : twiceTree.head.wrong = false := rfl
  have ha : twiceTree.head.absent = false := rfl
  obtain ⟨_, _, _, _, hperm⟩ := followed_announced_iff 0 0 twiceDocument hw ha
  exact ⟨hw, ha, by decide +kernel, hperm rfl⟩

/-- A clause that stands for a whole module, with another one in it. -/
def clauseSketch : Sketch :=
  let clause (path : String) (inner : List Sketch) : Sketch :=
    .spaced "importClause" (.token "import".toList :: .named "stringConstant" path.toList :: inner)
  clause "\"a.pkl\"" [clause "\"b.pkl\"" []]

def clauseTree : SyntaxTree := clauseSketch.layout.2

def clauseDocument : Document :=
  ⟨⟨"file:///clause.pkl".toList, by decide⟩, some 1, clauseSketch.layout.1⟩

theorem clause_follows_unannounced :
    clauseTree.head.wrong = false ∧ clauseTree.head.absent = false ∧
      importCalls 0 clauseTree clauseDocument 0 =
        [.announce [⟨.plain, "a.pkl".toList⟩], .follow ⟨.plain, "b.pkl".toList⟩] ∧
      ¬ (followedBy (importCalls 0 clauseTree clauseDocument 0)).Subperm
        (announcedBy (importCalls 0 clauseTree clauseDocument 0)) := by
  have hcalls : importCalls 0 clauseTree clauseDocument 0 =
      [.announce [⟨.plain, "a.pkl".toList⟩], .follow ⟨.plain, "b.pkl".toList⟩] := by
    decide +kernel
  refine ⟨by decide +kernel, by decide +kernel, hcalls, fun h => ?_⟩
  rw [hcalls] at h
  have hmem := h.subset (List.mem_singleton_self (⟨.plain, "b.pkl".toList⟩ : ImportEdge))
  exact absurd hmem (by decide)

end ModuleLens
