import TraceLogic.Proofs.ClosedScript

/-!
# No name is captured

A formula captures a name if a quantifier binds a name that is bound around it, or if a symbol is
printed like a variable that is bound around it. The quantifiers of a problem bind variables of
`Program.binders`, each under a name that is not bound around. No symbol that is asked for is
printed like one of these. So `Formula.capturesName` is false of every formula of a problem.
-/

namespace TraceLogic

open Construction Statement

namespace Formula

/-! ## Symbols that are printed like no bound variable -/

variable {names : List String}

/-- Terms print a name if one of them does. -/
theorem printsAnyOf_eq_any (names : List String) (ts : List Term) :
    printsAny.printsAnyOf names ts = ts.any (printsAny names) := by
  induction ts with
  | nil => rfl
  | cons t ts ih => rw [printsAny.printsAnyOf, ih, List.any_cons]

mutual

/-- The names that a term prints are those of the symbols that it applies. -/
theorem printsAny_eq_any (names : List String) :
    (t : Term) → printsAny names t = t.heads.any (fun g => names.contains g.printedName)
  | .var _ => rfl
  | .app f ts => by
    rw [printsAny, printsAnyOf_eq_any_heads names ts, Term.heads, List.any_cons]

/-- The names that terms print are those of the symbols that they apply. -/
theorem printsAnyOf_eq_any_heads (names : List String) : (ts : List Term) →
    printsAny.printsAnyOf names ts =
      (Term.headsOf ts).any (fun g => names.contains g.printedName)
  | [] => rfl
  | t :: ts => by
    rw [printsAny.printsAnyOf, printsAny_eq_any names t, printsAnyOf_eq_any_heads names ts,
      Term.headsOf, List.any_append]

end

/-- A term whose symbols are printed differently prints none of the names. -/
theorem printsAny_eq_false (t : Term) (h : ∀ g ∈ t.heads, g.printedName ∉ names) :
    printsAny names t = false := by
  rw [printsAny_eq_any]
  simpa using h

/-- Terms whose symbols are printed differently print none of the names. -/
theorem printsAnyOf_eq_false (ts : List Term) (h : ∀ g ∈ Term.headsOf ts, g.printedName ∉ names) :
    printsAny.printsAnyOf names ts = false := by
  rw [printsAnyOf_eq_any_heads]
  simpa using h

mutual

/-- A formula that binds new names captures none, if no symbol of it is printed like a variable that
may be bound. The names that are bound around belong to variables in scope. -/
theorem capturesUnder_eq_false : {names : List String} → {scope : List Symbol} → (f : Formula) →
    (∀ g ∈ f.heads, g.printedName ∉ allowed.map (·.name)) → scope ⊆ allowed →
    names ⊆ scope.map (·.name) → f.BindsApart allowed scope → capturesUnder names f = false
  | _, _, .equal s t, hheads, hscope, hnames, _ => by
    have hfresh g hg hmem := hheads g hg (List.map_subset _ hscope (hnames hmem))
    obtain ⟨hs, ht⟩ := List.forall_mem_append.mp hfresh
    rw [capturesUnder, printsAny_eq_false s hs, printsAny_eq_false t ht, Bool.or_false]
  | _, _, .distinct s t, hheads, hscope, hnames, _ => by
    have hfresh g hg hmem := hheads g hg (List.map_subset _ hscope (hnames hmem))
    obtain ⟨hs, ht⟩ := List.forall_mem_append.mp hfresh
    rw [capturesUnder, printsAny_eq_false s hs, printsAny_eq_false t ht, Bool.or_false]
  | _, _, .predicate p ts, hheads, hscope, hnames, _ => by
    have hfresh g hg hmem := hheads g hg (List.map_subset _ hscope (hnames hmem))
    obtain ⟨hp, hts⟩ := List.forall_mem_cons.mp hfresh
    rw [capturesUnder, ← printsAnyOf_eq_any, printsAnyOf_eq_false ts hts, Bool.or_false]
    simpa using hp
  | _, _, .negation f, hheads, hscope, hnames, h =>
    capturesUnder_eq_false f hheads hscope hnames h
  | _, _, .implication f g, hheads, hscope, hnames, h => by
    obtain ⟨hf, hg⟩ := List.forall_mem_append.mp hheads
    rw [capturesUnder, capturesUnder_eq_false f hf hscope hnames h.1,
      capturesUnder_eq_false g hg hscope hnames h.2, Bool.or_false]
  | _, _, .junction _ fs, hheads, hscope, hnames, h =>
    capturesInParts_eq_false fs hheads hscope hnames h
  | names, scope, .quantified _ binders f, hheads, hscope, hnames, h => by
    -- the names that are bound around belong to variables in scope, which the binders avoid
    obtain ⟨hbinders, hf⟩ := h
    have hnew : binders.any (fun b => names.contains b.name) = false := by
      simp only [List.any_eq_false, List.contains_iff_mem]
      intro b hb hmem
      obtain ⟨x, hx, hname⟩ := List.mem_map.mp (hnames hmem)
      exact (hbinders b hb).2 x hx hname
    have hscope' : binders ++ scope ⊆ allowed :=
      List.append_subset.mpr ⟨fun b hb => (hbinders b hb).1, hscope⟩
    have hnames' : names ++ binders.map (·.name) ⊆ (binders ++ scope).map (·.name) := by
      rw [List.map_append, List.append_subset]
      exact ⟨List.Subset.trans hnames (List.subset_append_right _ _),
        List.subset_append_left _ _⟩
    rw [capturesUnder, hnew, Bool.false_or]
    exact capturesUnder_eq_false f hheads hscope' hnames' hf
  | _, _, .labelled _ f, hheads, hscope, hnames, h =>
    capturesUnder_eq_false f hheads hscope hnames h

/-- Formulas that bind new names capture none, if no symbol of them is printed like a variable that
may be bound. -/
theorem capturesInParts_eq_false : {names : List String} → {scope : List Symbol} →
    (fs : List Formula) → (∀ g ∈ headsOf fs, g.printedName ∉ allowed.map (·.name)) →
    scope ⊆ allowed → names ⊆ scope.map (·.name) → AllBindApart allowed scope fs →
    capturesInParts names fs = false
  | _, _, [], _, _, _, _ => rfl
  | _, _, f :: fs, hheads, hscope, hnames, h => by
    obtain ⟨hf, hfs⟩ := List.forall_mem_append.mp hheads
    rw [capturesInParts, capturesUnder_eq_false f hf hscope hnames h.1,
      capturesInParts_eq_false fs hfs hscope hnames h.2, Bool.or_false]

end

end Formula

/-! ## What symbols are printed like -/

/-- No operation is printed like a variable that a problem may bind. -/
theorem Operation.stemOf_printedName_not_mem (o : Operation) :
    stemOf o.symbol.printedName ∉ ["pos", "tr"] ++ ["It_l"] := by
  rcases o.mem_theory_or_literal with ho | ⟨n, rfl⟩
  · have htheory : ∀ o ∈ theory, stemOf o.symbol.printedName ∉ ["pos", "tr"] ++ ["It_l"] := by
      decide
    exact htheory o ho
  · rw [symbol, Interpreted.printedName_literalSymbol]
    cases n with
    | ofNat k =>
      have hstem : stemOf ("" ++ k.repr) = stemOf "" := stemOf_append_repr "" k
      rw [String.empty_append] at hstem
      rw [Interpreted.decimal, hstem]
      decide
    | negSucc k =>
      rw [Interpreted.decimal, stemOf_append_repr]
      decide

namespace Program.Formed

variable {p : Program} (hp : p.Formed)

include hp

/-- No symbol of a program is printed like a variable that its problem may bind. -/
theorem printedName_not_mem_binders {n : Notion} (hn : n.OfProgram p) (mode : TraceMode) :
    (n.symbol mode).printedName ∉ p.binders.map (·.name) := by
  have hstems := hp.apart_binders.stemOf_mem
  cases n with
  | operation o => exact fun hmem => o.stemOf_printedName_not_mem (hstems _ hmem)
  | location name depth =>
    intro hmem
    have hlocation := hp.stemOf_not_mem_of_mem_locations (mem_locations hn)
    exact hlocation (List.mem_append_right _ (List.mem_append_left _ (hstems _ hmem)))
  | lastIteration loop enclosing =>
    intro hmem
    have hlast := hp.apart_lastNames.stemOf_mem _ (List.mem_map_of_mem (mem_loops hn))
    have hstem : stemOf (lastName loop) ∈ ["pos", "tr"] ++ ["It_l"] := hstems _ hmem
    rw [List.mem_singleton.mp hlast] at hstem
    exact absurd hstem (by decide)
  | value x =>
    intro hmem
    have hx := hp.not_mem_madeUpNames hn 0
    exact hx (List.mem_append_right _ (List.mem_append_left _ hmem))

/-- No formula of a generated problem captures a name. Its symbols have been asked for, so that they
belong to the program and are printed unlike its variables. -/
theorem capturesName_eq_false {mode : TraceMode} {schedule : Option Schedule} {g : Generated}
    (hg : p.generate mode schedule = .ok g) :
    ∀ φ ∈ g.problem.formulas, φ.capturesName = false := by
  intro φ hφ
  refine φ.capturesUnder_eq_false (fun f hf => ?_) (List.nil_subset _) (List.nil_subset _)
    (hp.bindsApart_formulas hg φ hφ)
  have hlookup := φ.lookup?_of_mem_heads (hp.wellSorted_formulas hg φ hφ) f hf
  have hrequest := request_of_mem_symbols hg (Vocabulary.lookup?_eq_some hlookup).1
  obtain ⟨n, hn, rfl⟩ := hp.exists_notion (mem_symbolsOf.mpr hrequest)
  exact hp.printedName_not_mem_binders hn mode

end Program.Formed

namespace Program

/-- No name is captured in the meaning of a function or in the conjecture of a problem. -/
theorem noCapture_of_generate {source : String} {p : Program} (hload : load source = .ok p)
    {mode : TraceMode} {schedule : Option Schedule} {g : Generated}
    (hg : p.generate mode schedule = .ok g) :
    List.Forall₂ (fun f φ => (Semantics.function ⟨mode, g.timeline⟩ f).outcome = .ok φ ∧
        φ.capturesName = false) p.functions g.problem.axioms ∧
      ∃ goal, g.problem.conjecture = some goal ∧ goal.capturesName = false := by
  have hp := formed_of_load hload
  have hcaptures := hp.capturesName_eq_false hg
  obtain ⟨v, _, hrun⟩ := generate_eq_ok.mp hg
  obtain ⟨goal, haxioms, _, hgoal⟩ := Semantics.parts_of_problem hrun
  simp only [Problem.formulas, hgoal, List.forall_mem_append] at hcaptures
  refine ⟨?_, goal, hgoal, hcaptures.2 goal List.mem_cons_self⟩
  have hfunctions := Semantics.functions_of_program haxioms
  rw [List.forall₂_iff_zip] at hfunctions ⊢
  refine ⟨hfunctions.1, fun hmem => ⟨hfunctions.2 hmem, ?_⟩⟩
  exact hcaptures.1.1 _ (List.of_mem_zip hmem).2

/-- The sample binds a position and a trace inside two loops. -/
theorem noCapture_nestedProgram : load nestedSource = .ok nestedProgram ∧
    ∃ g, nestedProgram.generate .two none = .ok g ∧
      List.Forall₂ (fun f φ => (Semantics.function ⟨.two, g.timeline⟩ f).outcome = .ok φ ∧
          φ.capturesName = false) nestedProgram.functions g.problem.axioms ∧
        ∃ goal, g.problem.conjecture = some goal ∧ goal.capturesName = false := by
  have hok : (nestedProgram.generate .two none).isOk = true := by decide +kernel
  obtain ⟨g, hg⟩ := exists_eq_ok_of_isOk hok
  exact ⟨load_nestedSource, g, hg, noCapture_of_generate load_nestedSource hg⟩

end Program

end TraceLogic
