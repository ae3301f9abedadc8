import TraceLogic.Proofs.Clash
import TraceLogic.Proofs.Schedule

/-!
# Names that variables may have

A name that is accepted for a variable is none that a location, a last iteration or a literal has.
So whatever is asked for under the name of a variable is the symbol of a variable of that name, or
an operation of the solver: the names of these are not reserved. A problem is generated unless one
of two things happens: two functions declare a name in different ways, or a variable is named like
an operation that the problem asks for.
-/

namespace TraceLogic

open Construction

/-- The symbol of a variable tells which variable it is. -/
theorem TraceMode.variableSymbol_injective {mode : TraceMode} {x y : Variable}
    (h : mode.variableSymbol x = mode.variableSymbol y) : x = y := by
  obtain ⟨name, isArray, isConstant⟩ := x
  obtain ⟨name', isArray', isConstant'⟩ := y
  have hname : name = name' := congrArg Symbol.name h
  have hdomain :
      (if isConstant then [] else [SortSymbol.time]) ++ (if isArray then [.int] else []) =
      (if isConstant' then [] else [.time]) ++ (if isArray' then [.int] else []) :=
    List.append_cancel_right (congrArg Symbol.domain h)
  have hflags : isArray = isArray' ∧ isConstant = isConstant' := by
    revert hdomain
    cases isArray <;> cases isConstant <;> cases isArray' <;> cases isConstant' <;> decide
  rw [hname, hflags.1, hflags.2]

namespace Program

variable {p : Program} {mode : TraceMode}

/-- The symbols of all variables are asked for. -/
theorem Formed.variableSymbol_mem (hp : p.Formed) {x : Variable} (hx : x ∈ p.declared) :
    mode.variableSymbol x ∈ symbolsOf (p.build mode).requests := by
  obtain ⟨problem, houtcome⟩ := hp.exists_build mode
  obtain ⟨f, hf, hx⟩ := List.mem_flatMap.mp hx
  simp only [build, Semantics.posed, Semantics.program, outcome_bind_eq_ok] at houtcome
  obtain ⟨_, _, tl, htl, _, _, axioms, ⟨_, hdeclare, _⟩, _⟩ := houtcome
  obtain ⟨units, hunits, _⟩ := outcome_bind_eq_ok.mp hdeclare
  have hdeclared : .symbol (mode.variableSymbol x) ∈
      (Semantics.declareProgram ⟨mode, tl⟩ p).requests := by
    have hmem := Semantics.mem_declareFunction (σ := ⟨mode, tl⟩) (f := f) (n := .value x) hx
    rcases hmem with ⟨o, heq⟩ | hmem
    · cases heq
    · exact mem_requests_bind_left (mem_requests_each hunits hf hmem)
  rw [mem_symbolsOf]
  refine mem_requests_bind_right rfl (mem_requests_bind_right htl (mem_requests_bind_right rfl ?_))
  exact mem_requests_bind_left (mem_requests_bind_left hdeclared)

/-- What is asked for under the name of a variable is the symbol of a variable of that name, or an
operation of the solver. -/
theorem Formed.variable_or_operation (hp : p.Formed) {x : Variable} (hx : x ∈ p.declared)
    {s : Symbol} (hs : s ∈ symbolsOf (p.build mode).requests) (hname : s.name = x.name) :
    (∃ y ∈ p.declared, y.name = x.name ∧ s = mode.variableSymbol y) ∨
      s.interpreted = true ∧ x.name ∈ Interpreted.theoryNames := by
  obtain ⟨n, hn, rfl⟩ := hp.exists_notion hs
  obtain ⟨hpoint, hsymbol⟩ := hp.not_isPointName_of_mem_declared hx
  cases n with
  | location name depth =>
    have hlocation := (hp.isPointName_of_mem_locations (mem_locations hn)).1
    exact absurd (hname ▸ hlocation) hpoint
  | lastIteration loop enclosing =>
    have hloop := (hp.isPointName_of_mem_loops (mem_loops hn)).1
    exact absurd (hname ▸ hloop) hpoint
  | value y => exact .inl ⟨y, hn, hname, rfl⟩
  | operation o =>
    refine .inr ⟨o.interpreted_symbol, ?_⟩
    rcases o.mem_theory_or_literal with ho | ⟨k, rfl⟩
    · exact hname ▸ Operation.name_mem_theoryNames ho
    · have hdecimal : x.name = Interpreted.decimal k := hname.symm
      rw [hdecimal, Operation.isSymbol_decimal] at hsymbol
      cases hsymbol

/-- Names are not asked to stand for two symbols, as long as variables of one name are declared
alike and none is named like an operation that is asked for. -/
theorem Formed.coherent_iff (hp : p.Formed) :
    Coherent (symbolsOf (p.build mode).requests) ↔
      (∀ name, ¬ p.DeclaredApart name) ∧
        ∀ x ∈ p.declared, ∀ s ∈ symbolsOf (p.build mode).requests,
          s.interpreted = true → s.name ≠ x.name := by
  constructor
  · intro hcoherent
    constructor
    · rintro name ⟨f, hf, x, hx, rfl, g, hg, _, y, hy, hname, hflags⟩
      have hx : x ∈ p.declared := List.mem_flatMap.mpr ⟨f, hf, hx⟩
      have hy : y ∈ p.declared := List.mem_flatMap.mpr ⟨g, hg, hy⟩
      have hsymbols := hcoherent _ (hp.variableSymbol_mem hy) _ (hp.variableSymbol_mem hx) hname
      obtain rfl := TraceMode.variableSymbol_injective hsymbols
      exact hflags.elim (fun h => h rfl) (fun h => h rfl)
    · intro x hx s hs hinterpreted hname
      obtain rfl := hcoherent s hs _ (hp.variableSymbol_mem hx) hname
      cases hinterpreted
  · rintro ⟨hdeclared, hoperations⟩ s hs t ht hname
    obtain ⟨n, hn, rfl⟩ := hp.exists_notion hs
    obtain ⟨m, hm, rfl⟩ := hp.exists_notion ht
    rcases Notion.symbol_eq_or_variable hp hn hm hname with
      heq | ⟨x, y, rfl, rfl, hne⟩ | ⟨x, o, rfl, rfl⟩ | ⟨x, o, rfl, rfl⟩
    · exact heq
    · exact absurd (hp.declaredApart_of_ne hn hm hname hne) (hdeclared _)
    · exact absurd hname.symm (hoperations x hn _ ht o.interpreted_symbol)
    · exact absurd hname (hoperations x hm _ hs o.interpreted_symbol)

/-- Of everything that locating and meaning ask for, only the symbols of variables have the name of
a variable, unless it is one of the names of the solver's operations. So generation fails, under
every schedule, exactly when two functions declare a name in different ways or a variable has the
name of an operation that is asked for. -/
theorem generate_isOk_iff_not_declaredApart_and_no_operation {source : String}
    (hload : load source = .ok p) (mode : TraceMode) (schedule : Option Schedule) :
    (∀ x ∈ p.declared, ∀ s, .symbol s ∈ (p.build mode).requests → s.name = x.name →
      (∃ y ∈ p.declared, y.name = x.name ∧ s = mode.variableSymbol y) ∨
        s.interpreted = true ∧ x.name ∈ Interpreted.theoryNames) ∧
    ((∃ g, p.generate mode schedule = .ok g) ↔
      (∀ name, ¬ p.DeclaredApart name) ∧
        ∀ x ∈ p.declared, ∀ s, .symbol s ∈ (p.build mode).requests →
          s.interpreted = true → s.name ≠ x.name) := by
  have hp := formed_of_load hload
  constructor
  · intro x hx s hs hname
    exact hp.variable_or_operation hx (mem_symbolsOf.mpr hs) hname
  · obtain ⟨problem, houtcome⟩ := hp.exists_build mode
    rw [generate_isOk_iff_coherent houtcome, hp.coherent_iff]
    simp only [mem_symbolsOf]

/-- A function that adds one to a variable with the name of addition. -/
def plusSource : String :=
  "[[[\"f\",[[\"int_plus\"]],[\x7b\"assign\":[\"int_plus\"," ++
    "\x7b\"add\":[\x7b\"var\":\"int_plus\"\x7d,\x7b\"const\":1\x7d]\x7d]\x7d]]]]"

/-- The program that is loaded from it. -/
def plusProgram : Program :=
  let x : Variable := ⟨"int_plus", false, false⟩
  ⟨[⟨"f", [x], [.assign ⟨1, "l1"⟩ (.scalar x) (.arith .add (.variable x) (.literal 1))], none⟩]⟩

/-- The sample loads as the program that is given for it. -/
theorem load_plusSource : load plusSource = .ok plusProgram := by
  apply toOption_eq_some.mp
  decide +kernel

/-- Addition is asked for in both modes. -/
theorem plus_mem_requests (mode : TraceMode) :
    .symbol (Interpreted.arithSymbol .add) ∈ (plusProgram.build mode).requests := by
  cases mode <;> decide +kernel

/-- No problem can be generated for the sample, whose variable is named like an operation that it
uses. -/
theorem generate_plusProgram :
    load plusSource = .ok plusProgram ∧ ¬ ∃ g, plusProgram.generate .two (some {}) = .ok g := by
  obtain ⟨_, hgenerate⟩ :=
    generate_isOk_iff_not_declaredApart_and_no_operation load_plusSource .two (some {})
  refine ⟨load_plusSource, fun hg => ?_⟩
  have hoperations := (hgenerate.mp hg).2 ⟨"int_plus", false, false⟩ List.mem_cons_self
  exact hoperations _ (plus_mem_requests .two) rfl rfl

/-- The name of addition is accepted for a variable of a single function, and is then asked to stand
for addition as well. -/
theorem plusProgram_not_reserved :
    load plusSource = .ok plusProgram ∧ (∀ name, ¬ plusProgram.DeclaredApart name) ∧
      (∃ x ∈ plusProgram.declared, ∃ s, .symbol s ∈ (plusProgram.build .one).requests ∧
        s.name = x.name ∧ ∀ y, s ≠ TraceMode.one.variableSymbol y) ∧
      ∃ fault, plusProgram.generate .one none = .error fault := by
  refine ⟨load_plusSource, ?_, ?_, ?_⟩
  · rintro name ⟨f, hf, x, _, _, g, hg, hne, _⟩
    rw [List.mem_singleton.mp hf, List.mem_singleton.mp hg] at hne
    exact hne rfl
  · refine ⟨_, List.mem_cons_self, _, plus_mem_requests .one, rfl, fun y heq => ?_⟩
    have hinterpreted : true = false := congrArg Symbol.interpreted heq
    cases hinterpreted
  · have hfails : (plusProgram.generate .one none).isOk = false := by decide +kernel
    cases hgenerate : plusProgram.generate .one none with
    | error fault => exact ⟨fault, rfl⟩
    | ok g => simp [hgenerate, Except.isOk, Except.toBool] at hfails

end Program

end TraceLogic
