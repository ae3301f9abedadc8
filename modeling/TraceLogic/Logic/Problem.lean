import TraceLogic.Logic.Formula
import TraceLogic.Logic.Vocabulary

/-!
# Problems

A problem for the solver: axioms, lemmas and a conjecture to be refuted. Its text declares the
vocabulary, asserts axioms and lemmas under numbered names and the negated conjecture, and asks for
an answer. The text is written line by line, so that a sink that fills up has taken a prefix of it.
-/

namespace TraceLogic

/-- A problem for the solver. -/
structure Problem where
  axioms : List Formula := []
  lemmas : List Formula := []
  conjecture : Option Formula := none

namespace Problem

/-- The lines of a formula's text at an indentation. -/
def formulaLines (n : Nat) (f : Formula) : List String := (f.layout n).map (·.print)

/-- The lines that assert a formula under a name. -/
def assertion (name : String) (f : Formula) : List String :=
  ["", "(assert", " (!"] ++ formulaLines Formula.indentStep f ++ [" :named " ++ name ++ "))"]

/-- The lines that assert formulas under numbered names. -/
def assertions (stem : String) : Nat → List Formula → List String
  | _, [] => []
  | i, f :: fs => assertion (stem ++ i.repr) f ++ assertions stem (i + 1) fs

/-- The lines of the problem's text over a vocabulary. -/
def lines (p : Problem) (v : Vocabulary) : Except Fault (List String) :=
  match p.conjecture with
  | none => .error .missingConjecture
  | some goal =>
    .ok (["(set-option :produce-unsat-cores true)"] ++
      v.sorts.flatMap (·.declaration) ++
      v.symbols.flatMap (·.declaration) ++
      assertions "axiom" 0 p.axioms ++
      assertions "lemma" 0 p.lemmas ++
      ["", "(assert-not"] ++ formulaLines Formula.indentStep goal ++ [")"] ++
      ["(check-sat)", "(get-unsat-core)"])

/-- Lines as one text, each with a line break. -/
def unlines (ls : List String) : String := String.join (ls.map (· ++ "\n"))

/-- The text of a problem over a vocabulary. -/
def print (p : Problem) (v : Vocabulary) : Except Fault String :=
  (p.lines v).map unlines

/-- A problem with a goal has a text. -/
theorem exists_lines {p : Problem} (v : Vocabulary) {goal : Formula}
    (hgoal : p.conjecture = some goal) :
    ∃ ls, p.lines v = .ok ls ∧ p.print v = .ok (unlines ls) := by
  obtain ⟨ls, hls⟩ : ∃ ls, p.lines v = .ok ls := by simp [lines, hgoal]
  exact ⟨ls, hls, by rw [print, hls]; rfl⟩

end Problem

/-- Something that takes bytes until it is full. -/
structure Sink where
  /-- How many more bytes fit. -/
  room : Nat
  /-- The bytes taken so far. -/
  taken : List UInt8 := []

namespace Sink

/-- Takes as many of the bytes as fit. -/
def take (s : Sink) (bytes : List UInt8) : Sink :=
  ⟨s.room - bytes.length, s.taken ++ bytes.take s.room⟩

/-- Writes texts one after the other, until one does not fit. Tells whether all of them did. -/
def writeAll (s : Sink) : List String → Bool × Sink
  | [] => (true, s)
  | text :: rest =>
    let bytes := text.toUTF8.toList
    if bytes.length ≤ s.room then (s.take bytes).writeAll rest else (false, s.take bytes)

end Sink

/-- Writes a problem to a sink that fails for the given reason when it is full. -/
def Problem.writeTo (p : Problem) (v : Vocabulary) (reason : String) (s : Sink) :
    Option Fault × Sink :=
  match p.lines v with
  | .error fault => (some fault, s)
  | .ok ls =>
    match s.writeAll (ls.map (· ++ "\n")) with
    | (true, t) => (none, t)
    | (false, t) => (some (.sinkFailed reason), t)

end TraceLogic
