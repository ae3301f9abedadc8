import TraceLogic.Proofs.Conditions

/-!
# Adequacy of the axioms

An interpretation that satisfies the axiom of a function contains an execution of the function: it
starts in the store at the start of the first statement, it terminates in the store at the end of
the function, and it leaves every loop in the iteration that the interpretation gives to the loop.
-/

namespace TraceLogic

open Construction Statement

variable {τ : SortSymbol → Type}

/-- Where the first statement of a function starts. -/
def Timeline.functionStart? (tl : Timeline) (f : Function) : Option Term :=
  f.statements.head?.bind fun s => tl.starts.get? s.id

namespace Interpretation

variable (M : Interpretation τ)

/-- The moment that a term without bound iterations stands for. -/
def timeOf (t : Term) : Nat :=
  match M.eval (fun _ => .time 0) t with
  | .time n => n
  | _ => 0

/-- The store of a function's variables at a point of time. -/
def storeOf (f : Function) (t : Term) : Store := (M.storeAt [] (M.timeOf t)).restrict f.declared

variable {M}

/-- A term that denotes a moment under all assignments stands for it. -/
theorem Denotes.timeOf {t : Term} {n : Nat} (h : ∀ ρ, M.Denotes ρ t n) : M.timeOf t = n := by
  unfold Interpretation.timeOf
  rw [(h _).eval]

end Interpretation

/-- A function with statements starts where its first statement does. -/
theorem Program.Formed.functionStart?_eq {p : Program} (hp : p.Formed) {tl : Timeline}
    (hcovers : ∀ f ∈ p.functions, tl.Covers f) {f : Function} (hf : f ∈ p.functions)
    (hstatements : f.statements ≠ []) :
    tl.functionStart? f = some (blockStartTerm [] f.endTerm f.statements) := by
  obtain ⟨s, rest, hcons⟩ := List.exists_cons_of_ne_nil hstatements
  have hknows := (hcovers f hf).knows (hp.functions f hf) (hp.function_locations_nodup hf)
  rw [hcons] at hknows
  rw [Timeline.functionStart?, hcons, List.head?_cons, Option.bind_some]
  exact hknows.first_start

namespace Interpretation

variable {M : Interpretation τ} {f : Function}

/-- The store at the end of a function is the one that the chronicle gives there. -/
theorem storeOf_endTerm :
    M.storeOf f f.endTerm = (M.chronicle [] f.declared).storeAt f.endPoint := by
  have htime : M.timeOf f.endTerm = M.moment f.endPoint := by
    refine Denotes.timeOf fun ρ => ?_
    have hρ : M.Situated .one [] [] [] ρ := ⟨rfl, rfl⟩
    exact hρ.denotes_point _
  rw [storeOf, htime]
  rfl

/-- The store at the start of a function is the one that the chronicle gives there. -/
theorem storeOf_blockStartTerm :
    M.storeOf f (blockStartTerm [] f.endTerm f.statements) =
      (M.chronicle [] f.declared).storeAt (blockStart [] f.endPoint f.statements) := by
  have htime : M.timeOf (blockStartTerm [] f.endTerm f.statements) =
      M.moment (blockStart [] f.endPoint f.statements) := by
    refine Denotes.timeOf fun ρ => ?_
    have hρ : M.Situated .one [] [] [] ρ := ⟨rfl, rfl⟩
    exact hρ.denotes_blockStartTerm (hρ.denotes_point _) _
  rw [storeOf, htime]
  rfl

/-- In one-trace mode an axiom contains an execution, speculative and ordinary. -/
theorem run_of_blockObeys
    (h : (M.chronicle [] f.declared).BlockObeys [] f.endPoint f.statements) :
    Speculates f.statements (M.storeOf f (blockStartTerm [] f.endTerm f.statements))
        (M.storeOf f f.endTerm) ∧
      ExecutesWithin (fun e => e.iterations = M.time (lastName e.location) (e.enclosing.map .time))
        [] 0 f.statements (M.storeOf f (blockStartTerm [] f.endTerm f.statements))
        (M.storeOf f f.endTerm) := by
  have hcounts : (M.chronicle [] f.declared).Counts = fun e =>
      e.iterations = M.time (lastName e.location) (e.enclosing.map .time) := by
    funext e
    simp [Chronicle.Counts, chronicle, lastIteration]
  rw [storeOf_blockStartTerm, storeOf_endTerm, ← hcounts]
  exact h.run

/-- In one-trace mode the postconditions speak about the stores at the ends of the functions. -/
theorem postconditionsHold_one_iff {functions : List Function}
    (hfunctions : ∀ f ∈ functions, f.Formed) :
    M.PostconditionsHold .one functions ↔ ∀ f ∈ functions, ∀ post, f.postcondition = some post →
      (M.storeOf f f.endTerm).test post = true := by
  have htest : ∀ f ∈ functions, ∀ post, f.postcondition = some post →
      (M.storeOf f f.endTerm).test post = (M.storeAt [] (M.moment f.endPoint)).test post := by
    intro f hf post hpost
    rw [storeOf_endTerm]
    exact test_chronicle ((hfunctions f hf).postcondition post hpost) _
  constructor
  · intro h f hf post hpost
    rw [htest f hf post hpost]
    exact h f hf post hpost [] rfl
  · rintro h f hf post hpost _ rfl
    rw [← htest f hf post hpost]
    exact h f hf post hpost

end Interpretation

/-- Every interpretation of the axiom of a function contains the execution of the function from the
store at its start. It terminates in the store at its end, and leaves each loop in the iteration
that the interpretation gives to it. So the conjecture says of an interpretation of all axioms that
there is a postcondition and that these executions end in stores that satisfy their postconditions,
and it is valid if the functions are partially correct. -/
theorem axioms_adequate {source : String} {p : Program} (hload : Program.load source = .ok p)
    {tl : Timeline} {v w : Vocabulary} {axioms : List Formula}
    (hlocate : p.locate .one = .ok (tl, v))
    (haxioms : (Semantics.program ⟨.one, tl⟩ p).run v = (.ok axioms, w)) (M : Interpretation τ) :
    axioms.length = p.functions.length ∧
    (∀ f φ, (f, φ) ∈ p.functions.zip axioms → f.statements ≠ [] → M.Satisfies φ →
      ∃ start stop exits, tl.functionStart? f = some start ∧
        tl.functionEnds.get? f.name = some stop ∧
        Executes [] 0 f.statements (M.storeOf f start) exits (M.storeOf f stop) ∧
        ∀ e ∈ exits, e.iterations = M.time (lastName e.location) (e.enclosing.map .time)) ∧
    ∀ goal w', (Semantics.conjecture ⟨.one, tl⟩ p).run w = (.ok goal, w') →
      (∀ f ∈ p.functions, f.statements ≠ []) → (∀ φ ∈ axioms, M.Satisfies φ) →
      (M.Satisfies goal ↔ (∃ f ∈ p.functions, f.postcondition ≠ none) ∧
        ∀ f ∈ p.functions, ∀ post, f.postcondition = some post →
          ∀ start, tl.functionStart? f = some start → ∀ exits σ,
            Executes [] 0 f.statements (M.storeOf f start) exits σ → σ.test post = true) := by
  have hp := Program.formed_of_load hload
  have hcovers := hp.covers hlocate
  obtain ⟨houtcome, _⟩ := run_eq_ok.mp haxioms
  have hrun : ∀ f φ, (f, φ) ∈ p.functions.zip axioms → M.Satisfies φ →
      (M.chronicle [] f.declared).BlockObeys [] f.endPoint f.statements := by
    intro f φ hmem hφ
    exact (hp.satisfies_axiom_iff (S := ⟨.one, tl⟩) hcovers houtcome hmem).mp hφ [] rfl
  refine ⟨(Semantics.functions_of_program houtcome).length_eq.symm, ?_, ?_⟩
  · intro f φ hmem hstatements hφ
    have hf := (List.of_mem_zip hmem).1
    obtain ⟨exits, hexecutes, hexits⟩ := (Interpretation.run_of_blockObeys (hrun f φ hmem hφ)).2
    exact ⟨_, _, exits, hp.functionStart?_eq hcovers hf hstatements, (hcovers f hf).functionEnd,
      hexecutes, hexits⟩
  · intro goal w' hgoal hstatements hsatisfied
    obtain ⟨hgoal, _⟩ := run_eq_ok.mp hgoal
    have hobeys := (hp.satisfies_axioms_iff (S := ⟨.one, tl⟩) hcovers houtcome).mp hsatisfied
    rw [Interpretation.satisfies_conjecture_iff hcovers hgoal,
      Interpretation.postconditionsHold_one_iff hp.functions]
    -- the execution that the interpretation contains is the only one from the store at its start
    refine and_congr Iff.rfl (forall₂_congr fun f hf => forall₂_congr fun post hpost => ?_)
    obtain ⟨exits, hexecutes, _⟩ := (Interpretation.run_of_blockObeys (hobeys f hf [] rfl)).2
    constructor
    · intro htest start hstart exits' σ hexecutes'
      obtain rfl := Option.some.inj
        ((hp.functionStart?_eq hcovers hf (hstatements f hf)).symm.trans hstart)
      rw [← (hexecutes.deterministic hexecutes').2]
      exact htest
    · intro htest
      exact htest _ (hp.functionStart?_eq hcovers hf (hstatements f hf)) _ _ hexecutes

/-! ## A counting loop -/

/-- A function that counts up to three, and claims that it does. -/
def countingSource : String :=
  "[[[\"f\",[[\"x\"]],[\x7b\"while\":[" ++
    "\x7b\"lt\":[\x7b\"var\":\"x\"\x7d,\x7b\"const\":3\x7d]\x7d,[" ++
    "\x7b\"assign\":[\"x\",\x7b\"add\":[\x7b\"var\":\"x\"\x7d,\x7b\"const\":1\x7d]\x7d]\x7d" ++
    "]]\x7d]," ++
    "\x7b\"ge\":[\x7b\"var\":\"x\"\x7d,\x7b\"const\":3\x7d]\x7d]]]"

/-- The program that is loaded from it. -/
def countingProgram : Program :=
  let x : IntExpr Variable := .variable ⟨"x", false, false⟩
  ⟨[⟨"f", [⟨"x", false, false⟩],
    [.loop ⟨1, "l1"⟩ [] (.compare .less x (.literal 3))
      [.assign ⟨2, "l2"⟩ (.scalar ⟨"x", false, false⟩) (.arith .add x (.literal 1))]],
    some (.compare .greaterEq x (.literal 3))⟩]⟩

/-- The sample loads as the program that is given for it. -/
theorem load_countingSource : Program.load countingSource = .ok countingProgram := by
  apply toOption_eq_some.mp
  decide +kernel

/-- An interpretation in which every moment is an iteration, and the value of the scalar. -/
def countingModel : Interpretation fun _ => Unit :=
  .ofValues
    (fun _ args => match args with
      | [.time n] => n
      | _ => 0)
    (fun _ args => match args with
      | [.time i] => i
      | _ => 3)

/-- The chronicle of the sample's model obeys its function. All loops end in the iteration in which
the condition first fails. -/
theorem countingModel_obeys {f : Function} (hf : f ∈ countingProgram.functions) :
    (countingModel.chronicle [] f.declared).BlockObeys [] f.endPoint f.statements := by
  obtain rfl := List.mem_singleton.mp hf
  refine ⟨⟨fun i => rfl, fun i => ⟨?_, trivial⟩, fun i hi => ?_, rfl, rfl⟩, trivial⟩
  · change Store.merge _ (countingModel.storeAt [] (i + 1)) .zero =
      (Store.merge _ (countingModel.storeAt [] i) .zero).assign _ _
    rw [Store.assign_merge _ _ (by simp [Target.Scoped]) (by simp [IntExpr.Scoped]),
      Store.merge_eq_merge_iff]
    intro y hy
    obtain rfl := List.mem_singleton.mp hy
    simp [Store.AgreeAt, Store.assign, Store.int, ArithOp.eval, Interpretation.storeAt,
      Interpretation.timeValues, countingModel, Interpretation.ofValues]
  · have hlt : i < 3 := hi
    change decide ((i : Int) < 3) = true
    exact decide_eq_true (by omega)

/-- The sample can be located, and its meanings can be built. -/
theorem counting_generates : ∃ tl v axioms w, countingProgram.locate .one = .ok (tl, v) ∧
    (Semantics.program ⟨.one, tl⟩ countingProgram).run v = (.ok axioms, w) := by
  have hok : (countingProgram.locate .one >>= fun located =>
      ((Semantics.program ⟨.one, located.1⟩ countingProgram).run located.2).1).isOk = true := by
    decide +kernel
  obtain ⟨axioms, hok⟩ := exists_eq_ok_of_isOk hok
  obtain ⟨⟨tl, v⟩, hlocate, haxioms⟩ := bind_eq_ok.mp hok
  exact ⟨tl, v, axioms, _, hlocate, Prod.ext haxioms rfl⟩

/-- The sample's model satisfies its axioms. -/
theorem countingModel_satisfies {tl : Timeline} {v : Vocabulary} {axioms : List Formula}
    (hlocate : countingProgram.locate .one = .ok (tl, v))
    (haxioms : (Semantics.program ⟨.one, tl⟩ countingProgram).outcome = .ok axioms) :
    ∀ φ ∈ axioms, countingModel.Satisfies φ := by
  have hp := Program.formed_of_load load_countingSource
  refine (hp.satisfies_axioms_iff (hp.covers hlocate) haxioms).mpr ?_
  rintro f hf _ rfl
  exact countingModel_obeys hf

/-- The axiom of the counting function has an interpretation, which contains its execution. -/
theorem axioms_adequate_counting :
    ∃ p tl v axioms w f φ, Program.load countingSource = .ok p ∧ p.locate .one = .ok (tl, v) ∧
      (Semantics.program ⟨.one, tl⟩ p).run v = (.ok axioms, w) ∧
      (f, φ) ∈ p.functions.zip axioms ∧ f.statements ≠ [] ∧ countingModel.Satisfies φ ∧
      ∃ start stop exits, tl.functionStart? f = some start ∧
        tl.functionEnds.get? f.name = some stop ∧
        Executes [] 0 f.statements (countingModel.storeOf f start) exits
          (countingModel.storeOf f stop) ∧
        ∀ e ∈ exits, e.iterations = countingModel.time (lastName e.location)
          (e.enclosing.map .time) := by
  obtain ⟨tl, v, axioms, w, hlocate, haxioms⟩ := counting_generates
  obtain ⟨hlength, hexecutes, _⟩ :=
    axioms_adequate load_countingSource hlocate haxioms countingModel
  obtain ⟨φ, rfl⟩ := List.length_eq_one_iff.mp hlength
  have hφ := countingModel_satisfies hlocate (run_eq_ok.mp haxioms).1 φ List.mem_cons_self
  exact ⟨_, tl, v, [φ], w, _, φ, load_countingSource, hlocate, haxioms, List.mem_cons_self,
    List.cons_ne_nil _ _, hφ, hexecutes _ φ List.mem_cons_self (List.cons_ne_nil _ _) hφ⟩

end TraceLogic
