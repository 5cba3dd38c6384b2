import ModuleLens.Linker

/-! Builds come back.  If the module source neither throws nor hangs, building an entry document
comes to a module over any catalog and in any state of the store: what is waited for in vain is
given up. -/

namespace ModuleLens

/-- Reading a document neither throws nor hangs. -/
def Reading.comesBack : Reading → Bool
  | tree _ | failed => true
  | unwinds | hangs => false

namespace Errand

variable {α β : Type} {source : Document → Reading}

/-- An errand that comes to a result when its documents are read by `source`, whatever is looked up
and claimed. -/
def Returns (source : Document → Reading) : Errand α → Prop
  | finished result => result.isSome
  | hung => False
  | load _ _ next => ∀ d, (next d).Returns source
  | call document _ next => ∀ build, (next (source document) build).Returns source
  | claim _ next => ∀ c, (next c).Returns source
  | publish _ _ next => next.Returns source
  | abandon _ next => next.Returns source

theorem Returns.bind {e : Errand α} {k : Option α → Errand β} (h : e.Returns source)
    (hk : ∀ a, (k (some a)).Returns source) : (e.bind k).Returns source := by
  induction e with
  | finished result =>
    cases result with
    | none => cases h
    | some a => exact hk a
  | hung => exact h.elim
  | load importing path next ih => exact fun d => ih d (h d)
  | call document depth next ih => exact fun build => ih _ build (h build)
  | claim edition next ih => exact fun c => ih c (h c)
  | publish edition product next ih => exact ih h
  | abandon edition next ih => exact ih h

theorem returns_answerAll {answer : ImportEdge → Errand (Outcome Node)}
    (h : ∀ edge, (answer edge).Returns source) (rs : List Node.Request) (answers : Node.Answers) :
    (answerAll answer answers rs).Returns source := by
  induction rs generalizing answers with
  | nil => rfl
  | cons r rs ih => exact (h r.edge).bind fun o => ih (answers.insert r.index o)

theorem returns_make {answer : ImportEdge → Errand (Outcome Node)}
    (h : ∀ edge, (answer edge).Returns source) (document : Document) (depth build : Nat)
    {reading : Reading} (hr : reading.comesBack) :
    (make answer document depth reading build).Returns source := by
  cases reading with
  | tree tree => exact (returns_answerAll h _ {}).bind fun _ => rfl
  | failed => rfl
  | _ => cases hr

theorem returns_followAt (hs : ∀ document, (source document).comesBack) (limit levels : Nat)
    (importing : Document) (depth : Nat) (edge : ImportEdge) :
    (followAt limit levels importing depth edge).Returns source := by
  induction levels generalizing importing depth edge with
  | zero => rfl
  | succ levels ih =>
    intro d
    cases d with
    | error e => rfl
    | ok document =>
      intro c
      cases c with
      | found product => rfl
      | expired => rfl
      | granted =>
        intro build
        exact (returns_make (ih document (depth + 1)) document (depth + 1) build (hs document)).bind
          fun _ => rfl

end Errand

namespace Linker

variable {env : ImportEnv} {α : Type}

theorem run_returns {wait : Linker → Edition → Option (Claimed × Linker)}
    (hw : ∀ l edition, (wait l edition).isSome) {e : Errand α} (h : e.Returns env.source)
    (l : Linker) : ∃ a l', run env wait e l = (.finished (some a), l') := by
  induction e generalizing l with
  | finished result =>
    cases result with
    | none => cases h
    | some a => exact ⟨a, l, rfl⟩
  | hung => exact h.elim
  | load importing path next ih => exact ih _ (h _) l
  | call document depth next ih => exact ih _ _ (h _) _
  | claim edition next ih =>
    rw [run]
    split
    · exact ih _ (h _) l
    · exact ih _ (h _) _
    · split
      · exact ih _ (h _) _
      · next hnone =>
        have hsome := hw l edition
        rw [hnone] at hsome
        cases hsome
  | publish edition product next ih => exact ih h _
  | abandon edition next ih => exact ih h _

theorem perform_returns {e : Errand α} (h : e.Returns env.source) (l : Linker) :
    ∃ a l', l.perform env e = (.done a, l') := by
  have hw (m : Linker) (edition : Edition) :
      (some ((m.await env (isSettled · edition)).lookAgain edition)).isSome := rfl
  obtain ⟨a, l', hr⟩ := run_returns hw h l
  refine ⟨a, l', ?_⟩
  rw [perform, hr]

theorem collect_returns (hs : ∀ document, (env.source document).comesBack) (importing : Document)
    (rs : List Node.Request) (answers : Node.Answers) (l : Linker) (tickets : Tickets) :
    ∃ final l', collect env importing answers l tickets rs = (.done final, l') := by
  induction rs generalizing answers l tickets with
  | nil => exact ⟨answers, l, rfl⟩
  | cons r rs ih =>
    have hanswer : ∃ outcome tickets' l',
        l.answer env importing tickets r.edge = (.done outcome, tickets', l') := by
      rw [answer]
      split
      · exact ⟨_, _, _, rfl⟩
      · obtain ⟨o, l', hp⟩ :=
          perform_returns (Errand.returns_followAt hs env.maxDepth _ importing 0 r.edge) l
        rw [Errand.follow, hp]
        exact ⟨o, tickets, l', rfl⟩
    obtain ⟨outcome, tickets', l', ha⟩ := hanswer
    rw [collect, ha]
    exact ih _ l' tickets'

theorem buildEntryTree_returns (hs : ∀ document, (env.source document).comesBack) (l : Linker)
    (tree : SyntaxTree) (document : Document) :
    ∃ module, (l.buildEntryTree env tree document).1 = .done module := by
  obtain ⟨final, l', hc⟩ := collect_returns hs document
    (draftModule l.drafts tree document 0).requests {}
    ({ l with drafts := l.drafts + 1 }.announce env document (tree.scan document.text)).2
    ({ l with drafts := l.drafts + 1 }.announce env document (tree.scan document.text)).1
  simp only [buildEntryTree, hc]
  exact ⟨_, rfl⟩

/-- What comes of building an entry document is its draft, linked to some answers. -/
theorem buildEntryTree_done {l : Linker} {tree : SyntaxTree} {document : Document} {module : Node}
    (h : (l.buildEntryTree env tree document).1 = .done module) :
    ∃ answers, module = (draftModule l.drafts tree document 0).link answers := by
  simp only [buildEntryTree] at h
  generalize (collect env document {} _ _ (draftModule l.drafts tree document 0).requests).1 = fate
    at h
  cases fate with
  | done answers =>
    cases h
    exact ⟨answers, rfl⟩
  | unwound => cases h
  | stuck => cases h

end Linker

end ModuleLens
