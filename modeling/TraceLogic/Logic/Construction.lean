import TraceLogic.Logic.Vocabulary

/-!
# Constructions

Terms and formulas are built together with the vocabulary they need. A granted request never tells
its caller more than what was asked for, so what a construction asks for does not depend on the
vocabulary that it meets: a construction is the list of its requests and the outcome that it has if
all of them are granted. `Construction.run` puts the two together. Requests that precede a fault
stay granted.
-/

namespace TraceLogic

/-- Two steps succeed if the first one does and the second one does on its result. -/
theorem bind_eq_ok {ε α β : Type} {x : Except ε α} {next : α → Except ε β} {b : β} :
    (x >>= next) = .ok b ↔ ∃ a, x = .ok a ∧ next a = .ok b := by
  cases x <;> simp [bind, Except.bind]

/-- What has not failed has a value. Runs on samples are checked in this way. -/
theorem exists_eq_ok_of_isOk {ε α : Type} {x : Except ε α} (h : x.isOk = true) :
    ∃ a, x = .ok a := by
  cases x with
  | error e => cases h
  | ok a => exact ⟨a, rfl⟩

/-- Forgetting the error loses nothing about success. Errors need not be compared to decide the left
side. -/
theorem toOption_eq_some {ε α : Type} {x : Except ε α} {a : α} :
    x.toOption = some a ↔ x = .ok a := by
  cases x <;> simp [Except.toOption]

/-- A value, or a fault, that is reached after asking for sorts and symbols. -/
structure Construction (α : Type) where
  /-- What the construction asks for, in order. -/
  requests : List Request
  /-- What the construction comes to if everything is granted. -/
  outcome : Except Fault α

namespace Construction

variable {α β : Type}

/-- Asks for nothing. -/
def ofExcept (outcome : Except Fault α) : Construction α := ⟨[], outcome⟩

/-- Goes on with the value of a construction, if it has one. -/
def andThen (c : Construction α) (next : α → Construction β) : Construction β :=
  match c.outcome with
  | .ok a =>
    let d := next a
    ⟨c.requests ++ d.requests, d.outcome⟩
  | .error fault => ⟨c.requests, .error fault⟩

instance : Monad Construction where
  pure a := ⟨[], .ok a⟩
  bind := andThen

instance : MonadLift (Except Fault) Construction := ⟨ofExcept⟩

/-- Asks for a sort. -/
def sort (s : SortSymbol) : Construction SortSymbol := ⟨[.sort s], .ok s⟩

/-- Asks for a symbol. -/
def symbol (s : Symbol) : Construction Symbol := ⟨[.symbol s], .ok s⟩

/-- Asks for a symbol, after the sorts of its domain and its range. -/
def declare (f : Symbol) : Construction Symbol :=
  ⟨f.domain.map .sort ++ [.sort f.range, .symbol f], .ok f⟩

/-- Fails. -/
def fail (fault : Fault) : Construction α := ⟨[], .error fault⟩

/-- Carries out a construction for each member of a list, in order. -/
def each (make : α → Construction β) : List α → Construction (List β)
  | [] => pure []
  | a :: rest => do
    let b ← make a
    let bs ← each make rest
    pure (b :: bs)

/-- The outcome of a construction that starts from a vocabulary, and the vocabulary it leaves. -/
def run (c : Construction α) (v : Vocabulary) : Except Fault α × Vocabulary :=
  match v.serveAll c.requests with
  | (none, w) => (c.outcome, w)
  | (some fault, w) => (.error fault, w)

/-- A value asks for nothing. -/
@[simp]
theorem requests_pure (a : α) : (pure a : Construction α).requests = [] := rfl

/-- A value is its own outcome. -/
@[simp]
theorem outcome_pure (a : α) : (pure a : Construction α).outcome = .ok a := rfl

/-- What comes after a fault is not asked for. -/
theorem requests_bind (c : Construction α) (next : α → Construction β) :
    (c >>= next).requests =
      match c.outcome with
      | .ok a => c.requests ++ (next a).requests
      | .error _ => c.requests := by
  obtain ⟨requests, _ | a⟩ := c <;> rfl

/-- The outcome of two steps does not depend on what is asked for. -/
theorem outcome_bind (c : Construction α) (next : α → Construction β) :
    (c >>= next).outcome = c.outcome >>= fun a => (next a).outcome := by
  obtain ⟨requests, _ | a⟩ := c <;> rfl

/-- Two steps come to a value if the first one does, and the second one does from there. -/
theorem outcome_bind_eq_ok {c : Construction α} {next : α → Construction β} {b : β} :
    (c >>= next).outcome = .ok b ↔ ∃ a, c.outcome = .ok a ∧ (next a).outcome = .ok b := by
  rw [outcome_bind, bind_eq_ok]

/-- A value leaves the vocabulary as it is. -/
@[simp]
theorem run_pure (a : α) (v : Vocabulary) : (pure a : Construction α).run v = (.ok a, v) := rfl

/-- A run succeeds if the construction does and everything that it asks for is granted. -/
theorem run_eq_ok {c : Construction α} {v w : Vocabulary} {a : α} :
    c.run v = (.ok a, w) ↔ c.outcome = .ok a ∧ v.serveAll c.requests = (none, w) := by
  unfold run
  rcases v.serveAll c.requests with ⟨_ | fault, w'⟩ <;> simp

/-- Running two constructions in a row is running the second on the vocabulary that the first one
leaves. -/
theorem run_bind (c : Construction α) (next : α → Construction β) (v : Vocabulary) :
    (c >>= next).run v =
      match c.run v with
      | (.ok a, w) => (next a).run w
      | (.error fault, w) => (.error fault, w) := by
  obtain ⟨requests, outcome⟩ := c
  cases outcome with
  | error fault =>
    simp only [bind, andThen, run]
    rcases v.serveAll requests with ⟨_ | _, w⟩ <;> rfl
  | ok a =>
    simp only [bind, andThen, run, Vocabulary.serveAll_append]
    rcases v.serveAll requests with ⟨_ | _, w⟩ <;> rfl

/-- Two steps run through if the first one does, and the second one does on the vocabulary that the
first one leaves. -/
theorem run_bind_eq_ok {c : Construction α} {next : α → Construction β} {v w : Vocabulary} {b : β} :
    (c >>= next).run v = (.ok b, w) ↔
      ∃ a u, c.run v = (.ok a, u) ∧ (next a).run u = (.ok b, w) := by
  rw [run_bind]
  rcases c.run v with ⟨_ | a, u⟩
  · simp
  · constructor
    · exact fun h => ⟨a, u, rfl, h⟩
    · rintro ⟨_, _, ⟨⟩, h⟩
      exact h

instance : LawfulMonad Construction :=
  LawfulMonad.mk' Construction
    (fun c => by
      obtain ⟨requests, _ | a⟩ := c
      · rfl
      · simp [Functor.map, andThen])
    (fun a next => by simp [bind, pure, andThen])
    (fun c f g => by
      obtain ⟨requests, _ | a⟩ := c
      · rfl
      · simp only [bind, andThen]
        cases (f a).outcome <;> simp)

end Construction

end TraceLogic
