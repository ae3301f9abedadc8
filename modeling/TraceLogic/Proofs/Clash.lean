import TraceLogic.Proofs.Totality

/-!
# Clashes of names

A problem fails to be generated only when a name is asked to stand for two symbols. The names of
locations and last iterations are made up so that they clash with nothing, and the solver's own
names are different from each other. So one of the two symbols is that of a variable, and the other
one is that of a variable of another function or that of an operation of the solver.
-/

namespace TraceLogic

open Construction Description.Scope Identifier

namespace Program

/-- Whether a name can stand for two symbols: two functions declare it in different ways, or it is
a variable and an operation of the solver. -/
def Ambiguous (p : Program) (name : String) : Prop :=
  ∃ f ∈ p.functions, ∃ x ∈ f.declared, x.name = name ∧
    ((∃ g ∈ p.functions, g.name ≠ f.name ∧ ∃ y ∈ g.declared, y.name = name ∧
        (y.isArray ≠ x.isArray ∨ y.isConstant ≠ x.isConstant)) ∨
      name ∈ Interpreted.theoryNames)

/-- Whether two functions declare a name in different ways. -/
def DeclaredApart (p : Program) (name : String) : Prop :=
  ∃ f ∈ p.functions, ∃ x ∈ f.declared, x.name = name ∧
    ∃ g ∈ p.functions, g.name ≠ f.name ∧ ∃ y ∈ g.declared, y.name = name ∧
      (y.isArray ≠ x.isArray ∨ y.isConstant ≠ x.isConstant)

/-- A name that two functions declare with different flags has two meanings. -/
theorem DeclaredApart.ambiguous {p : Program} {name : String} (h : p.DeclaredApart name) :
    p.Ambiguous name := by
  obtain ⟨f, hf, x, hx, hname, hother⟩ := h
  exact ⟨f, hf, x, hx, hname, .inl hother⟩

/-- Whether a name is one that the locations and last iterations of a program have. -/
def IsPointName (p : Program) (name : String) : Prop :=
  isLocationName name.toList = true ∨ ∃ f ∈ p.functions, name = Timeline.functionEnd f.name

end Program

namespace Program.Formed

variable {p : Program} (hp : p.Formed)

include hp

/-- The names of points are made up in a form that the check of variables knows, and they are
symbols. -/
theorem isPointName_of_mem_locations {name : String} (h : name ∈ p.locations) :
    p.IsPointName name ∧ isSymbol name.toList = true := by
  obtain ⟨f, hf, hname⟩ := List.mem_flatMap.mp h
  rcases List.mem_cons.mp hname with rfl | hname
  · exact ⟨.inr ⟨f, hf, rfl⟩, isSymbol_functionEnd (hp.functions f hf).accepted⟩
  · obtain ⟨s, hs, hname⟩ := List.mem_flatMap.mp hname
    obtain ⟨n, hsite⟩ := hp.exists_site_eq hf hs
    exact ⟨.inl (isLocationName_of_mem_ownLocations hsite hname),
      isSymbol_of_mem_ownLocations hsite hname⟩

/-- The names of last iterations are made up in a form that the check of variables knows, and they
are symbols. -/
theorem isPointName_of_mem_loops {loop : String} (h : loop ∈ p.loops) :
    p.IsPointName (lastName loop) ∧ isSymbol (lastName loop).toList = true := by
  obtain ⟨n, rfl⟩ := hp.exists_eq_siteOf_of_mem_loops h
  exact ⟨.inl (isLocationName_lastName n), isSymbol_lastName n⟩

/-- No variable is named like a point, since its name has been checked. -/
theorem not_isPointName_of_mem_declared {x : Variable} (h : x ∈ p.declared) :
    ¬ p.IsPointName x.name ∧ isSymbol x.name.toList = true := by
  obtain ⟨f, hf, hx⟩ := List.mem_flatMap.mp h
  obtain ⟨hsymbol, hlocation, hends⟩ := checkVariable_eq_ok (hp.variable_accepted f hf x hx)
  refine ⟨?_, hsymbol⟩
  rintro (h | ⟨g, hg, heq⟩)
  · rw [hlocation] at h
    cases h
  · exact hends g.name (List.mem_map_of_mem hg) heq

/-- A location depends on one number of iterations. -/
theorem place_eq {place place' : String × Nat} (h : place ∈ p.places) (h' : place' ∈ p.places)
    (hname : place.1 = place'.1) : place = place' := by
  have hnodup := hp.locations_nodup
  rw [← p.map_fst_places] at hnodup
  exact List.inj_on_of_nodup_map hnodup h h' hname

/-- The head of a loop is a place one level further in. -/
theorem headOf_mem_places {nest : String × List String} (h : nest ∈ p.nests) :
    Statement.headOf nest ∈ p.places := by
  obtain ⟨f, hf, hnest⟩ := List.mem_flatMap.mp h
  have hhead := Statement.headOf_mem_blockPlaces (hp.functions f hf).statements hnest
  exact List.mem_flatMap.mpr ⟨f, hf, List.mem_cons_of_mem _ hhead⟩

/-- Two variables of one name are declared by two functions, in different ways. -/
theorem declaredApart_of_ne {x y : Variable} (hx : x ∈ p.declared) (hy : y ∈ p.declared)
    (hname : x.name = y.name) (hne : x ≠ y) : p.DeclaredApart x.name := by
  obtain ⟨f, hf, hx⟩ := List.mem_flatMap.mp hx
  obtain ⟨g, hg, hy⟩ := List.mem_flatMap.mp hy
  have hflags : y.isArray ≠ x.isArray ∨ y.isConstant ≠ x.isConstant := by
    by_contra hsame
    rw [not_or, not_not, not_not] at hsame
    obtain ⟨name, isArray, isConstant⟩ := x
    obtain ⟨name', isArray', isConstant'⟩ := y
    simp_all
  refine ⟨f, hf, x, hx, rfl, g, hg, fun hsame => hne ?_, y, hy, hname.symm, hflags⟩
  obtain rfl : g = f := List.inj_on_of_nodup_map hp.functions_nodup hg hf hsame
  exact List.inj_on_of_nodup_map (hp.functions g hg).declared_nodup hx hy hname

end Program.Formed

namespace Interpreted

/-- No operation is named like a point. -/
theorem not_isPointName_of_mem_theoryNames {p : Program} {name : String}
    (h : name ∈ theoryNames) : ¬ p.IsPointName name := by
  have hlocations : ∀ name ∈ theoryNames, isLocationName name.toList = false := by decide
  have hends : ∀ name ∈ theoryNames, beforeEnding? endSuffix.toList name.toList = none := by decide
  rintro (hlocation | ⟨f, _, rfl⟩)
  · rw [hlocations name h] at hlocation
    cases hlocation
  · have hend : beforeEnding? endSuffix.toList (Timeline.functionEnd f.name).toList =
        some f.name.toList := by
      rw [Timeline.functionEnd, String.toList_append]
      exact beforeEnding?_append _ _
    rw [hends _ h] at hend
    cases hend

end Interpreted

namespace Notion

variable {p : Program} {n m : Notion} {mode : TraceMode}

/-- Whether a notion is a location or a last iteration. -/
def isPoint : Notion → Bool
  | location _ _ => true
  | lastIteration _ _ => true
  | value _ => false
  | operation _ => false

/-- The name of a notion tells whether it is a location or a last iteration. -/
theorem isPoint_iff (hp : p.Formed) (hn : n.OfProgram p) (mode : TraceMode) :
    n.isPoint = true ↔
      p.IsPointName (n.symbol mode).name ∧ isSymbol (n.symbol mode).name.toList = true := by
  cases n with
  | location name depth =>
    exact iff_of_true rfl (hp.isPointName_of_mem_locations (Program.mem_locations hn))
  | lastIteration loop enclosing =>
    exact iff_of_true rfl (hp.isPointName_of_mem_loops (Program.mem_loops hn))
  | value x =>
    refine iff_of_false Bool.false_ne_true fun h => ?_
    exact (hp.not_isPointName_of_mem_declared hn).1 h.1
  | operation o =>
    refine iff_of_false Bool.false_ne_true fun h => ?_
    rcases o.mem_theory_or_literal with ho | ⟨k, rfl⟩
    · exact Interpreted.not_isPointName_of_mem_theoryNames (Operation.name_mem_theoryNames ho) h.1
    · exact absurd h.2 (by simp [symbol, Operation.symbol, Interpreted.literalSymbol,
        Interpreted.interpreted, Operation.isSymbol_decimal])

/-- Locations and last iterations have names of their own. -/
theorem symbol_eq_of_isPoint (hp : p.Formed) (hn : n.OfProgram p) (hm : m.OfProgram p)
    (hnpoint : n.isPoint = true) (hmpoint : m.isPoint = true)
    (hname : (n.symbol mode).name = (m.symbol mode).name) : n.symbol mode = m.symbol mode := by
  cases n with
  | value x => cases hnpoint
  | operation o => cases hnpoint
  | location name depth =>
    cases m with
    | value x => cases hmpoint
    | operation o => cases hmpoint
    | location name' depth' =>
      cases hp.place_eq hn hm hname
      rfl
    | lastIteration loop enclosing =>
      exact absurd hname.symm
        (hp.lastName_ne (Program.mem_loops hm) (Program.mem_locations hn))
  | lastIteration loop enclosing =>
    cases m with
    | value x => cases hmpoint
    | operation o => cases hmpoint
    | location name depth =>
      exact absurd hname (hp.lastName_ne (Program.mem_loops hn) (Program.mem_locations hm))
    | lastIteration loop' enclosing' =>
      -- only the number of enclosing loops matters, and the head of the loop has that
      obtain rfl : loop = loop' := lastName_injective hname
      have hplaces := hp.place_eq (hp.headOf_mem_places hn) (hp.headOf_mem_places hm) rfl
      have hlength : enclosing.length = enclosing'.length :=
        Nat.succ.inj (congrArg Prod.snd hplaces)
      simp [symbol, TraceMode.lastIterationSymbol, hlength]

/-- A variable shares its name with an operation only if the program may be ambiguous about it. -/
theorem ambiguous_of_operation (hp : p.Formed) {x : Variable} (hx : x ∈ p.declared) {o : Operation}
    (hname : x.name = o.symbol.name) : p.Ambiguous x.name := by
  obtain ⟨f, hf, hmem⟩ := List.mem_flatMap.mp hx
  refine ⟨f, hf, x, hmem, rfl, .inr ?_⟩
  rcases o.mem_theory_or_literal with ho | ⟨k, rfl⟩
  · exact hname ▸ Operation.name_mem_theoryNames ho
  · have hsymbol := (hp.not_isPointName_of_mem_declared hx).2
    have hdecimal : x.name = Interpreted.decimal k := hname
    rw [hdecimal, Operation.isSymbol_decimal] at hsymbol
    cases hsymbol

/-- Two notions of a program with one name have one symbol, or they are two variables, or a variable
and an operation. -/
theorem symbol_eq_or_variable (hp : p.Formed) (hn : n.OfProgram p) (hm : m.OfProgram p)
    (hname : (n.symbol mode).name = (m.symbol mode).name) :
    n.symbol mode = m.symbol mode ∨ (∃ x y, n = value x ∧ m = value y ∧ x ≠ y) ∨
      (∃ x o, n = value x ∧ m = operation o) ∨ ∃ x o, n = operation o ∧ m = value x := by
  have hpoints : n.isPoint = true ↔ m.isPoint = true := by
    rw [isPoint_iff hp hn mode, isPoint_iff hp hm mode, hname]
  by_cases hpoint : n.isPoint = true
  · exact .inl (symbol_eq_of_isPoint hp hn hm hpoint (hpoints.mp hpoint) hname)
  -- two operations with one name are one operation, which leaves the cases with a variable
  · have hmpoint : m.isPoint ≠ true := fun h => hpoint (hpoints.mpr h)
    cases n with
    | location name depth => exact absurd rfl hpoint
    | lastIteration loop enclosing => exact absurd rfl hpoint
    | value x =>
      cases m with
      | location name depth => exact absurd rfl hmpoint
      | lastIteration loop enclosing => exact absurd rfl hmpoint
      | value y =>
        by_cases hxy : x = y
        · exact .inl (by rw [hxy])
        · exact .inr (.inl ⟨x, y, rfl, rfl, hxy⟩)
      | operation o => exact .inr (.inr (.inl ⟨x, o, rfl, rfl⟩))
    | operation o =>
      cases m with
      | location name depth => exact absurd rfl hmpoint
      | lastIteration loop enclosing => exact absurd rfl hmpoint
      | value y => exact .inr (.inr (.inr ⟨y, o, rfl, rfl⟩))
      | operation o' =>
        have heq : o = o' := Operation.eq_of_name hname
        exact .inl (by rw [heq])

/-- Two notions of a program with one name have one symbol, or the program is ambiguous. -/
theorem symbol_eq_or_ambiguous (hp : p.Formed) (hn : n.OfProgram p) (hm : m.OfProgram p)
    (hname : (n.symbol mode).name = (m.symbol mode).name) :
    n.symbol mode = m.symbol mode ∨ p.Ambiguous (m.symbol mode).name := by
  rcases symbol_eq_or_variable hp hn hm hname with
    heq | ⟨x, y, rfl, rfl, hne⟩ | ⟨x, o, rfl, rfl⟩ | ⟨x, o, rfl, rfl⟩
  · exact .inl heq
  · exact .inr (hp.declaredApart_of_ne hm hn hname.symm hne.symm).ambiguous
  · have hambiguous := ambiguous_of_operation hp hn (o := o) hname
    exact .inr (by rwa [← hname])
  · exact .inr (ambiguous_of_operation hp hm hname.symm)

end Notion

namespace Program

variable {p : Program}

/-- What is asked for is the symbol of a notion of the program. -/
theorem Formed.exists_notion (hp : p.Formed) {mode : TraceMode} {s : Symbol}
    (hs : s ∈ symbolsOf (p.build mode).requests) :
    ∃ n : Notion, n.OfProgram p ∧ s = n.symbol mode := by
  obtain ⟨notions, hnotions, hbuild⟩ := hp.uniform_build
  obtain ⟨⟨hsymbols, _⟩, _⟩ := hbuild mode
  rw [hsymbols] at hs
  obtain ⟨n, hn, rfl⟩ := List.mem_map.mp hs
  exact ⟨n, hnotions n hn, rfl⟩

/-- Whether a fault says that an ambiguous name of a program stands for two symbols. -/
def ReportsAmbiguity (p : Program) (fault : Fault) : Prop :=
  ∃ existing requested, fault = .signatureConflict existing requested ∧
    existing.name = requested.name ∧ p.Ambiguous requested.name

/-- Two symbols of notions that clash have an ambiguous name. -/
theorem Formed.reportsAmbiguity (hp : p.Formed) {mode : TraceMode} {symbols : List Symbol}
    (hsymbols : ∀ s ∈ symbols, ∃ n : Notion, n.OfProgram p ∧ s = n.symbol mode) {fault : Fault}
    (h : Clashes symbols fault) : p.ReportsAmbiguity fault := by
  obtain ⟨existing, hexisting, requested, hrequested, hfault, hname, hne⟩ := h
  obtain ⟨n, hn, rfl⟩ := hsymbols existing hexisting
  obtain ⟨m, hm, rfl⟩ := hsymbols requested hrequested
  exact ⟨_, _, hfault, hname, (Notion.symbol_eq_or_ambiguous hp hn hm hname).resolve_left hne⟩

/-- What generation fails with, under any schedule. -/
theorem Formed.fault_of_generate (hp : p.Formed) {mode : TraceMode} {schedule : Option Schedule}
    {fault : Fault} (h : p.generate mode schedule = .error fault) : p.ReportsAmbiguity fault := by
  obtain ⟨problem, houtcome⟩ := hp.exists_build mode
  exact hp.reportsAmbiguity (fun _ hs => hp.exists_notion hs) (clashes_of_generate houtcome h)

/-- What a function fails with after any turns, also if others still have requests to make. -/
theorem Formed.fault_of_turns (hp : p.Formed) {mode : TraceMode} {tl : Timeline}
    {v₀ v : Vocabulary} (hlocate : p.locate mode = .ok (tl, v₀))
    (hdeclare : (do mode.prepare; Semantics.declareProgram ⟨mode, tl⟩ p).run v₀ = (.ok (), v))
    {turns : List Nat} {fault : Fault}
    (h : .error fault ∈
      (Concurrent.run ⟨v, p.functions.map (Semantics.function ⟨mode, tl⟩)⟩ turns).outcomes) :
    p.ReportsAmbiguity fault := by
  obtain ⟨problem, houtcome⟩ := hp.exists_build mode
  have hlocate := locate_eq_ok.mp hlocate
  have hlocated := (run_eq_ok.mp hlocate).1
  rw [build_eq, outcome_bind, hlocated] at houtcome
  obtain ⟨_, hprepared, houtcome⟩ := outcome_bind_eq_ok.mp houtcome
  obtain ⟨_, hprogram, _⟩ := outcome_bind_eq_ok.mp houtcome
  obtain ⟨_, hdeclares, heach⟩ := outcome_bind_eq_ok.mp hprogram
  -- all that is asked for up to here, and all that the functions ask for, the problem asks for
  have hposed {r : Request} (hr : r ∈ (Semantics.posed ⟨mode, tl⟩ p).requests) :
      r ∈ (p.build mode).requests := by
    rw [build_eq]
    exact mem_requests_bind_right hlocated hr
  have hprogramRequests {r : Request} (hr : r ∈ (Semantics.program ⟨mode, tl⟩ p).requests) :
      r ∈ (p.build mode).requests :=
    hposed (mem_requests_bind_right hprepared (mem_requests_bind_left hr))
  have hstart : Concurrent.Within (symbolsOf (p.build mode).requests)
      ⟨v, p.functions.map (Semantics.function ⟨mode, tl⟩)⟩ := by
    refine ⟨?_, List.forall_mem_map.mpr fun f hf s hs => ?_, List.forall_mem_map.mpr fun f hf => ?_⟩
    · refine ((reaches_of_run hlocate).append (reaches_of_run hdeclare)).symbols_subset
        (List.nil_subset _) fun s hs => mem_symbolsOf.mpr ?_
      rcases List.mem_append.mp (mem_symbolsOf.mp hs) with hs | hs
      · rw [build_eq]
        exact mem_requests_bind_left hs
      · rw [requests_bind, hprepared] at hs
        rcases List.mem_append.mp hs with hs | hs
        · exact hposed (mem_requests_bind_left hs)
        · exact hprogramRequests (mem_requests_bind_left hs)
    · refine mem_symbolsOf.mpr (hprogramRequests (mem_requests_bind_right hdeclares ?_))
      exact mem_requests_each heach hf (mem_symbolsOf.mp hs)
    · intro other hother
      obtain ⟨φ, _, hφ⟩ := exists_of_mem_each heach hf
      cases hφ.symm.trans hother
  obtain ⟨c, hc, hfault⟩ := List.mem_map.mp h
  exact hp.reportsAmbiguity (fun _ hs => hp.exists_notion hs)
    ((hstart.run turns).faults c hc fault hfault)

/-- Generation gives a text, or it fails because a name of a variable stands for two symbols: two
functions declare it in different ways, or it is the name of an operation of the solver. If the
functions are worked on at the same time, this holds of every schedule, and of the fault of every
function, also while others are still being worked on. -/
theorem conditions_eq_ok_or_ambiguous {source : String} (hload : load source = .ok p)
    (options : Options) :
    (∀ schedule, (∃ text, p.conditions options schedule = .ok text) ∨
      ∃ existing requested,
        p.conditions options schedule = .error (.signatureConflict existing requested) ∧
        existing.name = requested.name ∧ p.Ambiguous requested.name) ∧
    ∀ tl v₀ v, p.locate (.ofFlag options.twoTraces) = .ok (tl, v₀) →
      let σ : Semantics := ⟨.ofFlag options.twoTraces, tl⟩
      (do σ.mode.prepare; σ.declareProgram p).run v₀ = (.ok (), v) →
      ∀ turns fault, .error fault ∈
        (Concurrent.run ⟨v, p.functions.map σ.function⟩ turns).outcomes →
        p.ReportsAmbiguity fault := by
  have hp := formed_of_load hload
  refine ⟨fun schedule => ?_, fun tl v₀ v hlocate hdeclare turns fault hfault =>
    hp.fault_of_turns hlocate hdeclare hfault⟩
  unfold conditions
  cases hgenerate : p.generate (.ofFlag options.twoTraces)
      (if options.parallel then some schedule else none) with
  | error fault =>
    obtain ⟨existing, requested, rfl, hclash⟩ := hp.fault_of_generate hgenerate
    exact .inr ⟨existing, requested, rfl, hclash⟩
  | ok g =>
    obtain ⟨v, _, hrun⟩ := generate_eq_ok.mp hgenerate
    obtain ⟨goal, _, _, hgoal⟩ := Semantics.parts_of_problem hrun
    obtain ⟨ls, _, hprint⟩ := Problem.exists_lines g.vocabulary hgoal
    refine .inl ?_
    cases htimepoints : options.timepoints with
    | true => exact ⟨_, bind_eq_ok.mpr ⟨g, rfl, bind_eq_ok.mpr ⟨_, hprint, rfl⟩⟩⟩
    | false => exact ⟨_, bind_eq_ok.mpr ⟨g, rfl, bind_eq_ok.mpr ⟨_, hprint, rfl⟩⟩⟩

/-- The name that a clash is about. -/
def clashingName? : Except Fault String → Option String
  | .error (.signatureConflict _ requested) => some requested.name
  | _ => none

/-- Two functions, each with a variable that has the name of an operation it uses. -/
def clashingSource : String :=
  "[[[\"f\",[[\"int_plus\"]],[\x7b\"assign\":[\"int_plus\"," ++
    "\x7b\"add\":[\x7b\"const\":1\x7d,\x7b\"const\":1\x7d]\x7d]\x7d]]," ++
    "[\"g\",[[\"int_minus\"]],[\x7b\"assign\":[\"int_minus\"," ++
    "\x7b\"sub\":[\x7b\"const\":1\x7d,\x7b\"const\":1\x7d]\x7d]\x7d]]]]"

/-- The program that is loaded from it. -/
def clashingProgram : Program :=
  let x : Variable := ⟨"int_plus", false, false⟩
  let y : Variable := ⟨"int_minus", false, false⟩
  ⟨[⟨"f", [x], [.assign ⟨1, "l1"⟩ (.scalar x) (.arith .add (.literal 1) (.literal 1))], none⟩,
    ⟨"g", [y], [.assign ⟨2, "l2"⟩ (.scalar y) (.arith .sub (.literal 1) (.literal 1))], none⟩]⟩

/-- The sample loads as the program that is given for it. -/
theorem load_clashingSource : load clashingSource = .ok clashingProgram := by
  apply toOption_eq_some.mp
  decide +kernel

/-- Both functions fail, and it depends on the schedule which of the two clashes is reported. -/
theorem conditions_clashingProgram :
    load clashingSource = .ok clashingProgram ∧
    ∀ report ∈ [(0, "int_plus"), (1, "int_minus")], ∃ existing requested,
      clashingProgram.conditions { parallel := true } { turns := [1, 0, 1], reported := report.1 } =
        .error (.signatureConflict existing requested) ∧
      requested.name = report.2 ∧ existing.name = requested.name ∧
      clashingProgram.Ambiguous requested.name := by
  have hclash : ∀ report ∈ [(0, "int_plus"), (1, "int_minus")],
      clashingName? (clashingProgram.conditions { parallel := true }
        { turns := [1, 0, 1], reported := report.1 }) = some report.2 := by
    decide +kernel
  refine ⟨load_clashingSource, fun report hreport => ?_⟩
  rcases (conditions_eq_ok_or_ambiguous load_clashingSource { parallel := true }).1
    { turns := [1, 0, 1], reported := report.1 } with
    ⟨text, htext⟩ | ⟨existing, requested, hfails, h⟩
  · have hname := hclash report hreport
    rw [htext] at hname
    cases hname
  · have hname := hclash report hreport
    rw [hfails] at hname
    exact ⟨existing, requested, hfails, Option.some.inj hname, h⟩

end Program

end TraceLogic
