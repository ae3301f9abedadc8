import TraceLogic.Logic.Construction

/-!
# Constructions at the same time

Constructions that are carried out at the same time are tasks that share one vocabulary. At every
turn one task makes its next request, and a task is over when a request is refused. The others go
on. Two things are left open: whose turn it is, and which fault is reported if several tasks fail. A
`Schedule` fixes both.
-/

namespace TraceLogic

/-- A value, or a fault, that is reached from a vocabulary, and the vocabulary that is left. -/
abbrev Building (α : Type) := ExceptT Fault (StateM Vocabulary) α

variable {α β : Type}

/-- Makes all requests of a construction in a row. -/
def Construction.build (c : Construction α) : Building α := fun v => c.run v

instance : MonadLift Construction Building := ⟨Construction.build⟩

namespace Building

/-- A construction inside a building runs as it does alone. -/
@[simp]
theorem run_lift (c : Construction α) (v : Vocabulary) :
    (liftM c : Building α).run.run v = c.run v := rfl

/-- A value asks for nothing. -/
@[simp]
theorem run_pure (a : α) (v : Vocabulary) : (pure a : Building α).run.run v = (.ok a, v) := rfl

/-- What comes second starts from the vocabulary that the first one leaves. -/
theorem run_bind (x : Building α) (next : α → Building β) (v : Vocabulary) :
    (x >>= next).run.run v =
      match x.run.run v with
      | (.ok a, w) => (next a).run.run w
      | (.error fault, w) => (.error fault, w) := by
  simp only [bind, ExceptT.bind, ExceptT.mk, ExceptT.run, StateT.run, StateT.bind]
  rcases x v with ⟨_ | a, w⟩ <;> rfl

/-- One step after another succeeds if the first one does, and the second one does on the vocabulary
that the first one leaves. -/
theorem run_bind_eq_ok {x : Building α} {next : α → Building β} {v w : Vocabulary} {b : β} :
    (x >>= next).run.run v = (.ok b, w) ↔
      ∃ a u, x.run.run v = (.ok a, u) ∧ (next a).run.run u = (.ok b, w) := by
  rw [run_bind]
  rcases x.run.run v with ⟨_ | a, u⟩
  · constructor
    · rintro ⟨⟩
    · rintro ⟨_, _, ⟨⟩, _⟩
  · constructor
    · exact fun h => ⟨a, u, rfl, h⟩
    · rintro ⟨_, _, ⟨⟩, h⟩
      exact h

/-- Either of the two may be what fails. -/
theorem run_bind_eq_error {x : Building α} {next : α → Building β} {v w : Vocabulary}
    {fault : Fault} :
    (x >>= next).run.run v = (.error fault, w) ↔
      x.run.run v = (.error fault, w) ∨
        ∃ a u, x.run.run v = (.ok a, u) ∧ (next a).run.run u = (.error fault, w) := by
  rw [run_bind]
  rcases x.run.run v with ⟨_ | a, u⟩
  · constructor
    · rintro ⟨⟩
      exact .inl rfl
    · rintro (h | ⟨_, _, ⟨⟩, _⟩)
      cases h
      rfl
  · constructor
    · exact fun h => .inr ⟨a, u, rfl, h⟩
    · rintro (h | ⟨_, _, ⟨⟩, h⟩)
      · cases h
      · exact h

end Building

/-- Makes the next request, if there is one. -/
def Construction.advance (c : Construction α) (v : Vocabulary) : Construction α × Vocabulary :=
  match c.requests with
  | [] => (c, v)
  | r :: rs =>
    match v.serve r with
    | .ok w => (⟨rs, c.outcome⟩, w)
    | .error fault => (⟨[], .error fault⟩, v)

/-- Constructions that share a vocabulary. -/
structure Concurrent (α : Type) where
  vocabulary : Vocabulary
  tasks : List (Construction α)

namespace Concurrent

/-- The task with the given index makes its next request. -/
def step (s : Concurrent α) (i : Nat) : Concurrent α :=
  match s.tasks[i]? with
  | none => s
  | some c =>
    let (c', w) := c.advance s.vocabulary
    ⟨w, s.tasks.set i c'⟩

/-- The tasks make their requests in the order of some turns. -/
def run (s : Concurrent α) (turns : List Nat) : Concurrent α := turns.foldl step s

/-- Whether no task has a request left. -/
def Finished (s : Concurrent α) : Prop := ∀ c ∈ s.tasks, c.requests = []

/-- What the tasks have come to. -/
def outcomes (s : Concurrent α) : List (Except Fault α) := s.tasks.map (·.outcome)

end Concurrent

/-- Constructions that are run one after the other: their outcomes, and the vocabulary left. A fault
does not keep the later ones from being run. -/
def inTurn (v : Vocabulary) : List (Construction α) → List (Except Fault α) × Vocabulary
  | [] => ([], v)
  | c :: cs =>
    let rest := inTurn (c.run v).2 cs
    ((c.run v).1 :: rest.1, rest.2)

/-- What is left open when constructions are carried out at the same time. -/
structure Schedule where
  /-- Whose turn it is, one turn after the other. Tasks that have requests left when the turns are
  over make them task by task. -/
  turns : List Nat := []
  /-- Whose fault is reported, if that task has one. -/
  reported : Nat := 0
deriving DecidableEq

namespace Schedule

/-- The values of all tasks, or the fault of one. -/
def collect (schedule : Schedule) (outcomes : List (Except Fault α)) : Except Fault (List α) :=
  match outcomes[schedule.reported]? with
  | some (.error fault) => .error fault
  | _ => outcomes.mapM id

/-- Carries out constructions at the same time. -/
def carryOut (schedule : Schedule) (tasks : List (Construction α)) : Building (List α) := fun v =>
  let reached := Concurrent.run ⟨v, tasks⟩ schedule.turns
  let (outcomes, w) := inTurn reached.vocabulary reached.tasks
  (schedule.collect outcomes, w)

end Schedule

end TraceLogic
