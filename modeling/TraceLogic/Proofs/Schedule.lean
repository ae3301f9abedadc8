import TraceLogic.Proofs.Totality

/-!
# Working on functions at the same time

The meanings of functions are built by tasks that share one vocabulary. A schedule says whose turn
it is; that task then makes its next request, and it is over when a request is refused.

Once the symbols of a program have been asked for, its functions ask only for what is there and for
operations of the solver. Whether an operation is granted does not depend on the other operations
that have been asked for. So every schedule comes to the outcomes that the functions have one after
the other, and to a vocabulary with the same sorts and the same free symbols.
-/

namespace TraceLogic

open Construction Statement

variable {α : Type}

/-! ## Operations -/

namespace Vocabulary

variable {v w : Vocabulary}

/-- Whether a vocabulary has been extended by operations of the solver only. -/
structure AddsOperations (v w : Vocabulary) : Prop where
  sorts : w.sorts = v.sorts
  symbols : ∃ added : List Operation, w.symbols = v.symbols ++ added.map Operation.symbol

/-- A vocabulary that stays the same has been extended by no operation. -/
theorem AddsOperations.refl (v : Vocabulary) : v.AddsOperations v := ⟨rfl, [], by simp⟩

/-- Adding operations takes nothing away. -/
theorem AddsOperations.extends (h : v.AddsOperations w) : v.Extends w := by
  obtain ⟨added, hsymbols⟩ := h.symbols
  exact ⟨h.sorts ▸ List.prefix_rfl, hsymbols ▸ List.prefix_append _ _⟩

/-- A request that a vocabulary has an answer to, whatever operations are added: it is granted
already, or it is for an operation. -/
def Decides (v : Vocabulary) (r : Request) : Prop :=
  v.Grants r ∨ ∃ o : Operation, r = .symbol o.symbol

/-- The fault of a request, if it is refused. -/
def refusal? (v : Vocabulary) (r : Request) : Option Fault :=
  match v.serve r with
  | .ok _ => none
  | .error fault => some fault

/-- A granted request changes nothing. -/
theorem serve_of_grants {r : Request} (h : v.Grants r) : v.serve r = .ok v := by
  cases r with
  | sort s =>
    have hs : s ∈ v.sorts := h
    simp [serve, addSort, hs]
  | symbol f =>
    have hf : v.lookup? f.name = some f := h
    rcases addSymbol_cases v f with ⟨hnone, _⟩ | ⟨_, heq⟩ | ⟨t, ht, hne, _⟩
    · simp [hf] at hnone
    · exact heq
    · exact absurd (Option.some.inj (ht.symm.trans hf)) hne

/-- A decided request is answered as it would be without the operations that have been added. -/
theorem serve_of_decides (hvw : v.AddsOperations w) {r : Request} (hr : v.Decides r) :
    (v.refusal? r = none ∧ ∃ u, w.serve r = .ok u ∧ v.AddsOperations u) ∨
      ∃ fault, v.refusal? r = some fault ∧ w.serve r = .error fault := by
  rcases hr with hgrants | ⟨o, rfl⟩
  · refine .inl ⟨by rw [refusal?, serve_of_grants hgrants], w, ?_, hvw⟩
    exact serve_of_grants (hvw.extends.grants hgrants)
  · obtain ⟨added, hsymbols⟩ := hvw.symbols
    have hrefusal : v.refusal? (.symbol o.symbol) = match v.addSymbol o.symbol with
      | .ok _ => none
      | .error fault => some fault := rfl
    change _ ∧ (∃ u, w.addSymbol o.symbol = .ok u ∧ _) ∨
      ∃ fault, _ ∧ w.addSymbol o.symbol = .error fault
    rcases addSymbol_cases v o.symbol with ⟨hnone, heq⟩ | ⟨hsome, heq⟩ | ⟨t, ht, hne, heq⟩
    · refine .inl ⟨by rw [hrefusal, heq], ?_⟩
      rcases addSymbol_cases w o.symbol with ⟨_, hw⟩ | ⟨_, hw⟩ | ⟨t, ht, hne, _⟩
      · refine ⟨_, hw, hvw.sorts, added ++ [o], ?_⟩
        simp [hsymbols]
      · exact ⟨w, hw, hvw⟩
      · -- the name stands for an operation that has been added, which can only be this one
        obtain ⟨hmem, hname⟩ := lookup?_eq_some ht
        rw [hsymbols, List.mem_append] at hmem
        rcases hmem with hmem | hmem
        · exact absurd hname (lookup?_eq_none.mp hnone t hmem)
        · obtain ⟨o', _, rfl⟩ := List.mem_map.mp hmem
          exact absurd (congrArg Operation.symbol (Operation.eq_of_name hname)) hne
    · refine .inl ⟨by rw [hrefusal, heq], w, ?_, hvw⟩
      exact serve_of_grants (r := .symbol o.symbol) (hvw.extends.lookup? hsome)
    · refine .inr ⟨_, by rw [hrefusal, heq], ?_⟩
      rcases addSymbol_cases w o.symbol with ⟨hnone, _⟩ | ⟨hsome, _⟩ | ⟨t', ht', _, hw⟩
      · simp [hvw.extends.lookup? ht] at hnone
      · exact absurd (Option.some.inj ((hvw.extends.lookup? ht).symm.trans hsome)) hne
      · rw [Option.some.inj ((hvw.extends.lookup? ht).symm.trans ht'), hw]

/-- Whether two vocabularies have the same sorts, and the same symbols apart from those that the
solver interprets. -/
def SameFree (v w : Vocabulary) : Prop :=
  w.sorts = v.sorts ∧
    w.symbols.filter (fun f => !f.interpreted) = v.symbols.filter (fun f => !f.interpreted)

/-- Adding operations adds no sorts and no free symbols. -/
theorem AddsOperations.sameFree (h : v.AddsOperations w) : v.SameFree w := by
  obtain ⟨added, hsymbols⟩ := h.symbols
  refine ⟨h.sorts, ?_⟩
  have hnone : (added.map Operation.symbol).filter (fun f => !f.interpreted) = [] := by
    rw [List.filter_eq_nil_iff]
    intro f hf
    obtain ⟨o, _, rfl⟩ := List.mem_map.mp hf
    simp [o.interpreted_symbol]
  rw [hsymbols, List.filter_append, hnone, List.append_nil]

/-- Having the same free part has no direction. -/
theorem SameFree.symm (h : v.SameFree w) : w.SameFree v := ⟨h.1.symm, h.2.symm⟩

/-- Having the same free part is transitive. -/
theorem SameFree.trans {u : Vocabulary} (h : u.SameFree v) (h' : v.SameFree w) : u.SameFree w :=
  ⟨h'.1.trans h.1, h'.2.trans h.2⟩

end Vocabulary

/-- The text of a problem does not show the symbols that the solver interprets. -/
theorem Problem.print_eq_of_sameFree {v w : Vocabulary} (h : v.SameFree w) (p : Problem) :
    p.print w = p.print v := by
  have hdeclarations (symbols : List Symbol) : symbols.flatMap (·.declaration) =
      (symbols.filter fun f => !f.interpreted).flatMap (·.declaration) := by
    induction symbols with
    | nil => rfl
    | cons f symbols ih =>
      cases hf : f.interpreted with
      | true =>
        have hnone : f.declaration = [] := by rw [Symbol.declaration, if_pos hf]
        simp [hf, hnone, ih]
      | false => simp [hf, ih]
  have hlines : p.lines w = p.lines v := by
    simp only [lines, h.1, hdeclarations w.symbols, hdeclarations v.symbols, h.2]
  rw [print, print, hlines]

/-! ## Schedules -/

namespace Construction

variable {v w : Vocabulary}

/-- What a construction comes to if its requests are answered by a vocabulary as it is. -/
def settled (v : Vocabulary) (c : Construction α) : Except Fault α :=
  match c.requests.findSome? v.refusal? with
  | some fault => .error fault
  | none => c.outcome

/-- Whether a vocabulary has an answer to all requests of a construction. -/
def DecidedBy (v : Vocabulary) (c : Construction α) : Prop := ∀ r ∈ c.requests, v.Decides r

/-- A request does not change what a construction comes to. -/
theorem advance_settled {c : Construction α} (hc : c.DecidedBy v) (hvw : v.AddsOperations w) :
    (c.advance w).1.settled v = c.settled v ∧ (c.advance w).1.DecidedBy v ∧
      v.AddsOperations (c.advance w).2 := by
  obtain ⟨requests, outcome⟩ := c
  cases requests with
  | nil => exact ⟨rfl, hc, hvw⟩
  | cons r rs =>
    obtain ⟨hr, hrs⟩ := List.forall_mem_cons.mp hc
    rcases Vocabulary.serve_of_decides hvw hr with ⟨hnone, u, hserve, hvu⟩ | ⟨fault, hsome, hserve⟩
    · simp only [advance, hserve]
      refine ⟨?_, hrs, hvu⟩
      simp [settled, hnone]
    · simp only [advance, hserve]
      refine ⟨?_, by simp [DecidedBy], hvw⟩
      simp [settled, hsome]

/-- Running a construction to its end comes to the same. -/
theorem run_settled {c : Construction α} (hc : c.DecidedBy v) (hvw : v.AddsOperations w) :
    ∃ u, c.run w = (c.settled v, u) ∧ v.AddsOperations u := by
  obtain ⟨requests, outcome⟩ := c
  induction requests generalizing w with
  | nil => exact ⟨w, rfl, hvw⟩
  | cons r rs ih =>
    obtain ⟨hr, hrs⟩ := List.forall_mem_cons.mp hc
    rcases Vocabulary.serve_of_decides hvw hr with ⟨hnone, u, hserve, hvu⟩ | ⟨fault, hsome, hserve⟩
    · obtain ⟨x, hrun, hvx⟩ := ih hvu hrs
      refine ⟨x, ?_, hvx⟩
      have hsettled : settled v (⟨r :: rs, outcome⟩ : Construction α) =
          settled v ⟨rs, outcome⟩ := by
        simp [settled, hnone]
      rw [hsettled, ← hrun]
      simp only [run, Vocabulary.serveAll, hserve]
    · refine ⟨w, ?_, hvw⟩
      simp [run, Vocabulary.serveAll, hserve, settled, hsome]

end Construction

/-- Constructions that are decided by a vocabulary come to what they are settled at. -/
theorem inTurn_settled {v w : Vocabulary} {cs : List (Construction α)}
    (hcs : ∀ c ∈ cs, c.DecidedBy v) (hvw : v.AddsOperations w) :
    (inTurn w cs).1 = cs.map (settled v) ∧ v.AddsOperations (inTurn w cs).2 := by
  induction cs generalizing w with
  | nil => exact ⟨rfl, hvw⟩
  | cons c cs ih =>
    obtain ⟨hc, hcs⟩ := List.forall_mem_cons.mp hcs
    obtain ⟨u, hrun, hvu⟩ := run_settled hc hvw
    obtain ⟨houtcomes, hlast⟩ := ih hcs hvu
    simp only [inTurn, hrun, List.map_cons]
    exact ⟨congrArg _ houtcomes, hlast⟩

namespace Concurrent

variable {v : Vocabulary} {outcomes : List (Except Fault α)} {s : Concurrent α}

/-- What every schedule keeps: the vocabulary has grown by operations only, and the tasks are
settled at the same outcomes. -/
structure Keeps (v : Vocabulary) (outcomes : List (Except Fault α)) (s : Concurrent α) : Prop where
  vocabulary : v.AddsOperations s.vocabulary
  decided : ∀ c ∈ s.tasks, c.DecidedBy v
  settled : s.tasks.map (Construction.settled v) = outcomes

/-- One step of a task adds an operation at most, and leaves the task settled as it was. -/
theorem Keeps.step (h : s.Keeps v outcomes) (i : Nat) : (s.step i).Keeps v outcomes := by
  unfold Concurrent.step
  cases htask : s.tasks[i]? with
  | none => exact h
  | some c =>
    have hc := h.decided c (List.mem_of_getElem? htask)
    obtain ⟨hsettled, hdecided, hvocabulary⟩ := advance_settled hc h.vocabulary
    refine ⟨hvocabulary, ?_, ?_⟩
    · intro d hd
      rcases List.mem_or_eq_of_mem_set hd with hd | rfl
      · exact h.decided d hd
      · exact hdecided
    · obtain ⟨hi, rfl⟩ := List.getElem?_eq_some_iff.mp htask
      rw [← h.settled, List.map_set, hsettled, ← List.map_set, List.set_getElem_self]

/-- All steps of a run add operations at most, and leave the tasks settled as they were. -/
theorem Keeps.run (h : s.Keeps v outcomes) (schedule : List Nat) :
    (s.run schedule).Keeps v outcomes := by
  induction schedule generalizing s with
  | nil => exact h
  | cons i schedule ih => exact ih (h.step i)

/-- When no request is left, the tasks have come to what they are settled at. -/
theorem Keeps.outcomes_eq (h : s.Keeps v outcomes) (hfinished : s.Finished) :
    s.outcomes = outcomes := by
  rw [← h.settled, Concurrent.outcomes]
  refine List.map_congr_left fun c hc => ?_
  simp [Construction.settled, hfinished c hc]

end Concurrent

/-- Constructions for the members of a list succeed if they do one after the other. -/
theorem inTurn_of_each {β : Type} {make : α → Construction β} {as : List α} {bs : List β}
    {v w : Vocabulary} (h : (each make as).run v = (.ok bs, w)) :
    inTurn v (as.map make) = (bs.map .ok, w) := by
  induction as generalizing v bs with
  | nil =>
    cases h
    rfl
  | cons a as ih =>
    rw [each] at h
    obtain ⟨b, u, hfirst, h⟩ := run_bind_eq_ok.mp h
    obtain ⟨bs', u', hothers, h⟩ := run_bind_eq_ok.mp h
    cases h
    simp only [List.map_cons, inTurn, hfirst, ih hothers]

/-! ## Programs -/

namespace Semantics

variable {σ : Semantics}

/-- Asking for a symbol is one of the requests that are made for it. -/
theorem symbol_mem_declare (f : Symbol) : .symbol f ∈ (declare f).requests := by
  simp [declare]

/-- Asking for symbols comes to the symbols. -/
theorem outcome_each_declare (make : α → Symbol) (as : List α) :
    (each (fun a => declare (make a)) as).outcome = .ok (as.map make) := by
  induction as with
  | nil => rfl
  | cons a as ih =>
    rw [each]
    refine outcome_bind_eq_ok.mpr ⟨make a, rfl, outcome_bind_eq_ok.mpr ⟨_, ih, rfl⟩⟩

/-- The symbols of a program have been asked for before its functions are worked on. -/
theorem declares_of_axioms {p : Program} {schedule : Option Schedule} {u w : Vocabulary}
    {axioms : List Formula} (h : (σ.axioms schedule p).run.run u = (.ok axioms, w)) :
    ∃ v, (σ.declareProgram p).run u = (.ok (), v) := by
  cases schedule with
  | none =>
    obtain ⟨_, v, hdeclare, _⟩ := run_bind_eq_ok.mp h
    exact ⟨v, hdeclare⟩
  | some schedule =>
    obtain ⟨_, v, hdeclare, _⟩ := Building.run_bind_eq_ok.mp h
    exact ⟨v, hdeclare⟩

/-- The symbols of loops are asked for. -/
theorem mem_declareLoops {ss : List Statement} {nest : String × List String}
    (h : nest ∈ ss.flatMap ownNests) :
    .symbol (.loopHead nest.1 nest.2) ∈ (σ.declareLoops ss).requests ∧
      .symbol (σ.mode.lastIterationSymbol nest.1 nest.2) ∈ (σ.declareLoops ss).requests := by
  induction ss with
  | nil => cases h
  | cons s ss ih =>
    cases s with
    | loop site enclosing c body =>
      rcases List.mem_cons.mp h with rfl | h
      · exact ⟨mem_requests_bind_left (symbol_mem_declare _),
          mem_requests_bind_right rfl (mem_requests_bind_left (symbol_mem_declare _))⟩
      · obtain ⟨hhead, hlast⟩ := ih h
        exact ⟨mem_requests_bind_right rfl (mem_requests_bind_right rfl hhead),
          mem_requests_bind_right rfl (mem_requests_bind_right rfl hlast)⟩
    | assign site target value => exact ih h
    | branch site c thens elses => exact ih h
    | skip site => exact ih h

/-- The symbols of a function are asked for, operations apart. -/
theorem mem_declareFunction {f : Function} {n : Notion}
    (h : n.OfBlock f.declared f.statements) :
    (∃ o, n = .operation o) ∨ .symbol (n.symbol σ.mode) ∈ (σ.declareFunction f).requests := by
  have hvariables := outcome_each_declare σ.mode.variableSymbol f.declared
  cases n with
  | operation o => exact .inl ⟨o, rfl⟩
  | value x =>
    refine .inr (mem_requests_bind_left (mem_requests_each hvariables h ?_))
    exact symbol_mem_declare _
  | location name depth =>
    obtain ⟨nest, hnest, heq⟩ := List.mem_map.mp h
    cases heq
    exact .inr (mem_requests_bind_right hvariables (mem_declareLoops hnest).1)
  | lastIteration loop enclosing =>
    exact .inr (mem_requests_bind_right hvariables (mem_declareLoops h).2)

end Semantics

/-- The stages of generation after the symbols have been asked for: the meanings of the functions,
which start by asking for them, and the conjecture. -/
theorem Program.stages_of_generate {p : Program} {mode : TraceMode} {tl : Timeline}
    {v₀ v : Vocabulary} (hlocate : p.locate mode = .ok (tl, v₀))
    (hdeclare : (do mode.prepare; Semantics.declareProgram ⟨mode, tl⟩ p).run v₀ = (.ok (), v))
    {schedule : Option Schedule} {g : Generated} (hg : p.generate mode schedule = .ok g) :
    ∃ u axioms w goal, (Semantics.declareProgram ⟨mode, tl⟩ p).run u = (.ok (), v) ∧
      (Semantics.axioms ⟨mode, tl⟩ schedule p).run.run u = (.ok axioms, w) ∧
      (Semantics.conjecture ⟨mode, tl⟩ p).run w = (.ok goal, g.vocabulary) ∧
      g.problem = { axioms, conjecture := some goal } := by
  obtain ⟨v', hlocate', hrun⟩ := generate_eq_ok.mp hg
  obtain ⟨rfl, rfl⟩ : tl = g.timeline ∧ v₀ = v' :=
    Prod.mk.inj (Except.ok.inj (hlocate.symm.trans hlocate'))
  obtain ⟨u, axioms, w, goal, hprepare, haxioms, hgoal, hproblem⟩ :=
    Semantics.stages_of_problem hrun
  obtain ⟨_, u', hprepare', hdeclared⟩ := run_bind_eq_ok.mp hdeclare
  obtain rfl : u' = u := congrArg Prod.snd (hprepare'.symm.trans hprepare)
  exact ⟨u', axioms, w, goal, hdeclared, haxioms, hgoal, hproblem⟩

namespace Program.Formed

variable {p : Program} {mode : TraceMode} {tl : Timeline} {v₀ v : Vocabulary} (hp : p.Formed)
  (hlocate : p.locate mode = .ok (tl, v₀))
  (hdeclare : (do mode.prepare; Semantics.declareProgram ⟨mode, tl⟩ p).run v₀ = (.ok (), v))

include hdeclare

/-- The symbols of a program are there once they have been asked for. -/
theorem grants_symbol {f : Function} (hf : f ∈ p.functions) {n : Notion}
    (hn : n.OfBlock f.declared f.statements) : v.Decides (.symbol (n.symbol mode)) := by
  obtain ⟨houtcome, hserved⟩ := run_eq_ok.mp hdeclare
  rcases Semantics.mem_declareFunction (σ := ⟨mode, tl⟩) hn with ⟨o, rfl⟩ | hmem
  · exact .inr ⟨o, rfl⟩
  · obtain ⟨_, _, houtcome⟩ := outcome_bind_eq_ok.mp houtcome
    obtain ⟨units, hunits, _⟩ := outcome_bind_eq_ok.mp houtcome
    refine .inl ((Vocabulary.serveAll_eq_none hserved).2 _ ?_)
    exact mem_requests_bind_right rfl (mem_requests_bind_left (mem_requests_each hunits hf hmem))

include hlocate

/-- The sorts of a problem about some function are there. -/
theorem sorts_subset (hne : p.functions ≠ []) : ∀ s ∈ mode.sorts, s ∈ v.sorts := by
  obtain ⟨hinitial, hgranted⟩ :=
    Vocabulary.serveAll_eq_none (run_eq_ok.mp (locate_eq_ok.mp hlocate)).2
  have hlater := (Vocabulary.serveAll_eq_none (run_eq_ok.mp hdeclare).2).1
  exact sorts_of_grants (hinitial.trans hlater) (fun r hr => hlater.grants (hgranted r hr)) hne

/-- A construction that asks for notions that are there or are operations is decided. -/
theorem decided_of_uniform {α : Type} {ask : Notion → Prop} {c : TraceMode → Construction α}
    {P : α → Prop} (hc : Uniform ask c P) (hne : p.functions ≠ [])
    (hask : ∀ n, ask n → v.Decides (.symbol (n.symbol mode))) : (c mode).DecidedBy v := by
  obtain ⟨notions, hnotions, hall⟩ := hc
  obtain ⟨⟨hsymbols, hgrounded⟩, _⟩ := hall mode
  intro r hr
  cases r with
  | sort s => exact .inl (sorts_subset hlocate hdeclare hne s (hgrounded.sorts s hr))
  | symbol g =>
    have hg := mem_symbolsOf.mpr hr
    rw [hsymbols] at hg
    obtain ⟨n, hn, rfl⟩ := List.mem_map.mp hg
    exact hask n (hnotions n hn)

include hp

/-- The meaning of a function asks for what is there, and for operations. -/
theorem function_decided {f : Function} (hf : f ∈ p.functions) :
    (Semantics.function ⟨mode, tl⟩ f).DecidedBy v := by
  have huniform := Semantics.uniform_function (hp.functions f hf) (hp.function_locations_nodup hf)
    (hp.covers hlocate f hf) fun n hn => hn
  exact decided_of_uniform hlocate hdeclare huniform (List.ne_nil_of_mem hf) fun n hn =>
    grants_symbol hdeclare hf hn

/-- Once the symbols of a program have been asked for, the meanings of its functions ask for nothing
new but operations. -/
theorem functions_decided :
    ∀ c ∈ p.functions.map (Semantics.function ⟨mode, tl⟩), c.DecidedBy v :=
  List.forall_mem_map.mpr fun _ hf => hp.function_decided hlocate hdeclare hf

/-- So does the conjecture. -/
theorem conjecture_decided : (Semantics.conjecture ⟨mode, tl⟩ p).DecidedBy v := by
  by_cases hne : p.functions = []
  · -- only `false` is asked for
    obtain ⟨functions⟩ := p
    obtain rfl : functions = [] := hne
    have hinitial := (Vocabulary.serveAll_eq_none (run_eq_ok.mp (locate_eq_ok.mp hlocate)).2).1
    have hlater := (Vocabulary.serveAll_eq_none (run_eq_ok.mp hdeclare).2).1
    have hrequests : (Semantics.conjecture ⟨mode, tl⟩ ⟨[]⟩).requests =
        [.sort .bool, .symbol (Operation.truth false).symbol] := rfl
    intro r hr
    rw [hrequests, List.mem_cons, List.mem_singleton] at hr
    rcases hr with rfl | rfl
    · exact .inl ((hinitial.trans hlater).sorts.subset (by decide))
    · exact .inr ⟨_, rfl⟩
  · have huniform := hp.uniform_conjecture (hp.covers hlocate) fun n hn => hn
    refine decided_of_uniform hlocate hdeclare huniform hne fun n hn => ?_
    cases n with
    | location name depth => cases hn
    | lastIteration loop enclosing => cases hn
    | operation o => exact .inr ⟨o, rfl⟩
    | value x =>
      obtain ⟨f, hf, hx⟩ := List.mem_flatMap.mp hn
      exact grants_symbol hdeclare (n := .value x) hf hx

/-- The functions of a program add operations only, however they are worked on. -/
theorem addsOperations_of_axioms {schedule : Option Schedule} {u w : Vocabulary}
    {axioms : List Formula}
    (hdeclared : (Semantics.declareProgram ⟨mode, tl⟩ p).run u = (.ok (), v))
    (h : (Semantics.axioms ⟨mode, tl⟩ schedule p).run.run u = (.ok axioms, w)) :
    v.AddsOperations w := by
  have htasks := hp.functions_decided hlocate hdeclare
  cases schedule with
  | none =>
    obtain ⟨_, u', hdeclared', heach⟩ := run_bind_eq_ok.mp h
    obtain rfl : v = u' := congrArg Prod.snd (hdeclared.symm.trans hdeclared')
    have hturns := (inTurn_settled htasks (.refl v)).2
    rwa [inTurn_of_each heach] at hturns
  | some schedule =>
    obtain ⟨_, u', hdeclared', hcarried⟩ := Building.run_bind_eq_ok.mp h
    obtain rfl : v = u' := congrArg Prod.snd (hdeclared.symm.trans hdeclared')
    have hstart : Concurrent.Keeps v _ ⟨v, p.functions.map (Semantics.function ⟨mode, tl⟩)⟩ :=
      ⟨.refl v, htasks, rfl⟩
    have hkeeps := hstart.run schedule.turns
    have hturns := (inTurn_settled hkeeps.decided hkeeps.vocabulary).2
    rwa [show w = _ from (Prod.mk.inj hcarried).2.symm]

/-- So does all of generation from there on. -/
theorem addsOperations_of_generate {schedule : Option Schedule} {g : Generated}
    (hg : p.generate mode schedule = .ok g) : v.AddsOperations g.vocabulary := by
  obtain ⟨u, axioms, w, goal, hdeclared, haxioms, hgoal, -⟩ :=
    stages_of_generate hlocate hdeclare hg
  have hvw := hp.addsOperations_of_axioms hlocate hdeclare hdeclared haxioms
  obtain ⟨x, hsettled, hvx⟩ := run_settled (hp.conjecture_decided hlocate hdeclare) hvw
  rw [hsettled] at hgoal
  rwa [← (Prod.mk.inj hgoal).2]

end Program.Formed

namespace Program

variable {p : Program} {mode : TraceMode} {tl : Timeline} {v₀ v : Vocabulary}

/-- What a problem is made of that is generated one function after the other: the meanings of the
functions in turn, and the conjecture. -/
theorem generate_eq_inTurn (hlocate : p.locate mode = .ok (tl, v₀))
    (hdeclare : (do mode.prepare; Semantics.declareProgram ⟨mode, tl⟩ p).run v₀ = (.ok (), v))
    {g : Generated} (hg : p.generate mode none = .ok g) :
    ∃ axioms w goal, inTurn v (p.functions.map (Semantics.function ⟨mode, tl⟩)) =
        (axioms.map .ok, w) ∧
      (Semantics.conjecture ⟨mode, tl⟩ p).run w = (.ok goal, g.vocabulary) ∧
      g.problem = { axioms, conjecture := some goal } := by
  obtain ⟨u, axioms, w, goal, hdeclared, haxioms, hgoal, hproblem⟩ :=
    stages_of_generate hlocate hdeclare hg
  obtain ⟨_, v', hdeclared', heach⟩ := run_bind_eq_ok.mp haxioms
  obtain rfl : v = v' := congrArg Prod.snd (hdeclared.symm.trans hdeclared')
  exact ⟨axioms, w, goal, inTurn_of_each heach, hgoal, hproblem⟩

/-- Two ways to work on the functions of a program succeed together, with the same problem. Only the
operations in the vocabularies may differ. -/
theorem Formed.generate_eq_generate (hp : p.Formed) {first : Option Schedule} {g : Generated}
    (hg : p.generate mode first = .ok g) (second : Option Schedule) :
    ∃ w, p.generate mode second = .ok { g with vocabulary := w } ∧ g.vocabulary.SameFree w := by
  obtain ⟨problem, houtcome⟩ := hp.exists_build mode
  have hcoherent := (generate_isOk_iff_coherent houtcome).mp ⟨g, hg⟩
  obtain ⟨g', hg'⟩ :=
    (generate_isOk_iff_coherent houtcome : (∃ g, p.generate mode second = .ok g) ↔ _).mpr hcoherent
  -- both have the timeline of the program, and the problem that is built from it
  obtain ⟨v₀, hlocate, hrun⟩ := generate_eq_ok.mp hg
  obtain ⟨_, hlocate', _⟩ := generate_eq_ok.mp hg'
  obtain ⟨htimeline, -⟩ := Prod.mk.inj (Except.ok.inj (hlocate.symm.trans hlocate'))
  have hproblem : g.problem = g'.problem :=
    Except.ok.inj ((build_of_generate hg).1.symm.trans (build_of_generate hg').1)
  obtain ⟨u, axioms, u', goal, hprepare, haxioms, -, -⟩ := Semantics.stages_of_problem hrun
  obtain ⟨v, hdeclared⟩ := Semantics.declares_of_axioms haxioms
  have hdeclare : (do mode.prepare; Semantics.declareProgram ⟨mode, g.timeline⟩ p).run v₀ =
      (.ok (), v) := run_bind_eq_ok.mpr ⟨(), u, hprepare, hdeclared⟩
  have hfirst := hp.addsOperations_of_generate hlocate hdeclare hg
  have hsecond := hp.addsOperations_of_generate hlocate hdeclare hg'
  refine ⟨g'.vocabulary, ?_, hfirst.sameFree.symm.trans hsecond.sameFree⟩
  rw [hg', htimeline, hproblem]

/-- Under any schedule the text is the one that is generated one function after the other. -/
theorem Formed.conditions_parallel_iff (hp : p.Formed) (options : Options) (schedule : Schedule)
    (text : String) :
    p.conditions { options with parallel := true } schedule = .ok text ↔
      p.conditions { options with parallel := false } = .ok text := by
  have hone {first : Option Schedule} {g : Generated}
      (hg : p.generate (.ofFlag options.twoTraces) first = .ok g) (second : Option Schedule) :
      ∃ g', p.generate (.ofFlag options.twoTraces) second = .ok g' ∧ g'.timeline = g.timeline ∧
        g'.problem.print g'.vocabulary = g.problem.print g.vocabulary := by
    obtain ⟨w, hg', hfree⟩ := hp.generate_eq_generate hg second
    exact ⟨_, hg', rfl, Problem.print_eq_of_sameFree hfree _⟩
  simp only [conditions, bind_eq_ok, if_true, Bool.false_eq_true, if_false]
  constructor
  · rintro ⟨g, hg, text', hprint, htext⟩
    obtain ⟨g', hg', htimeline, hprint'⟩ := hone hg none
    exact ⟨g', hg', text', hprint'.trans hprint, by rwa [htimeline]⟩
  · rintro ⟨g, hg, text', hprint, htext⟩
    obtain ⟨g', hg', htimeline, hprint'⟩ := hone hg (some schedule)
    exact ⟨g', hg', text', hprint'.trans hprint, by rwa [htimeline]⟩

/-- Once the symbols of a program have been asked for, the meanings of its functions can be built
under any schedule. The text of the problem is the one that is generated one function after the
other, if there is one, and else there is none. The schedule adds no sorts and no free symbols, nor
does the conjecture after it. If it leaves no request, the functions have the outcomes that they
have one after the other. -/
theorem schedule_eq_inTurn {source : String} (hload : load source = .ok p)
    (hlocate : p.locate mode = .ok (tl, v₀))
    (hdeclare : (do mode.prepare; Semantics.declareProgram ⟨mode, tl⟩ p).run v₀ = (.ok (), v))
    (turns : List Nat) :
    let σ : Semantics := ⟨mode, tl⟩
    let tasks := p.functions.map σ.function
    let final := Concurrent.run ⟨v, tasks⟩ turns
    let later := (σ.conjecture p).run final.vocabulary
    (∀ (options : Options) reported text, TraceMode.ofFlag options.twoTraces = mode →
      (p.conditions { options with parallel := true } ⟨turns, reported⟩ = .ok text ↔
        p.conditions { options with parallel := false } = .ok text)) ∧
      v.SameFree final.vocabulary ∧ v.SameFree later.2 ∧
      (final.Finished →
        final.outcomes = (inTurn v tasks).1 ∧
        ∀ g, p.generate mode none = .ok g → ∃ axioms φ,
          final.outcomes = axioms.map .ok ∧ later.1 = .ok φ ∧
            Problem.print { axioms, conjecture := some φ } later.2 =
              g.problem.print g.vocabulary) := by
  intro σ tasks final later
  have hp := formed_of_load hload
  have htasks : ∀ c ∈ tasks, c.DecidedBy v := hp.functions_decided hlocate hdeclare
  have hconjecture : (σ.conjecture p).DecidedBy v := hp.conjecture_decided hlocate hdeclare
  obtain ⟨houtcomes, hturns⟩ := inTurn_settled htasks (.refl v)
  have hkeeps : Concurrent.Keeps v (inTurn v tasks).1 final :=
    Concurrent.Keeps.run ⟨.refl v, htasks, houtcomes.symm⟩ turns
  obtain ⟨w, hgoal, hvw⟩ := run_settled hconjecture hkeeps.vocabulary
  rw [show later = _ from hgoal]
  refine ⟨?_, hkeeps.vocabulary.sameFree, hvw.sameFree, fun hfinished => ?_⟩
  · rintro options reported text rfl
    exact hp.conditions_parallel_iff options ⟨turns, reported⟩ text
  have hfinal := hkeeps.outcomes_eq hfinished
  refine ⟨hfinal, fun g hg => ?_⟩
  -- the conjecture settles after the sequential run as it does after the schedule
  obtain ⟨axioms, w', φ, hturn, hφ, hproblem⟩ := generate_eq_inTurn hlocate hdeclare hg
  obtain ⟨w'', hgoal', hvw''⟩ := run_settled hconjecture hturns
  have hw' : (inTurn v tasks).2 = w' := congrArg Prod.snd hturn
  rw [hw', hφ, Prod.mk.injEq] at hgoal'
  obtain ⟨hsettled, rfl⟩ := hgoal'
  refine ⟨axioms, φ, hfinal.trans (congrArg Prod.fst hturn), hsettled.symm, ?_⟩
  rw [hproblem, Problem.print_eq_of_sameFree hvw.sameFree,
    Problem.print_eq_of_sameFree hvw''.sameFree]

/-! ### Two functions that take turns -/

/-- Two functions that ask for the same operations. -/
def twinSource : String :=
  "[[[\"f\",[[\"x\"]],[\x7b\"assign\":[\"x\",\x7b\"add\":[\x7b\"var\":\"x\"\x7d,\x7b\"const\":1\x7d]\x7d]\x7d]]," ++
    "[\"g\",[[\"y\"]],[\x7b\"assign\":[\"y\",\x7b\"add\":[\x7b\"const\":1\x7d,\x7b\"var\":\"y\"\x7d]\x7d]\x7d]]]]"

/-- The program that is loaded from it. -/
def twinProgram : Program :=
  let x : Variable := ⟨"x", false, false⟩
  let y : Variable := ⟨"y", false, false⟩
  ⟨[⟨"f", [x], [.assign ⟨1, "l1"⟩ (.scalar x) (.arith .add (.variable x) (.literal 1))], none⟩,
    ⟨"g", [y], [.assign ⟨2, "l2"⟩ (.scalar y) (.arith .add (.literal 1) (.variable y))], none⟩]⟩

/-- The sample loads as the program that is given for it. -/
theorem load_twinSource : load twinSource = .ok twinProgram := by
  apply toOption_eq_some.mp
  decide +kernel

/-- The second function goes first, and then the two take turns. -/
def twinSchedule : List Nat := (List.replicate 40 [1, 0]).flatten

/-- The schedule leaves none of the sample's requests. -/
theorem twin_finishes : ∃ tl v₀ v, twinProgram.locate .two = .ok (tl, v₀) ∧
    (do TraceMode.prepare .two; Semantics.declareProgram ⟨.two, tl⟩ twinProgram).run v₀ =
      (.ok (), v) ∧
    (Concurrent.run ⟨v, twinProgram.functions.map (Semantics.function ⟨.two, tl⟩)⟩
      twinSchedule).Finished := by
  have hok : (twinProgram.locate .two >>= fun located =>
      let declared := (do
        TraceMode.prepare .two
        Semantics.declareProgram ⟨.two, located.1⟩ twinProgram).run located.2
      let final := Concurrent.run
        ⟨declared.2, twinProgram.functions.map (Semantics.function ⟨.two, located.1⟩)⟩ twinSchedule
      declared.1 >>= fun _ =>
        if final.tasks.all (·.requests.isEmpty) then .ok () else .error .emptyQuantifier).isOk =
      true := by
    decide +kernel
  obtain ⟨_, hok⟩ := exists_eq_ok_of_isOk hok
  obtain ⟨⟨tl, v₀⟩, hlocate, hok⟩ := bind_eq_ok.mp hok
  obtain ⟨_, hdeclare, hok⟩ := bind_eq_ok.mp hok
  refine ⟨tl, v₀, _, hlocate, Prod.ext hdeclare rfl, fun c hc => ?_⟩
  split at hok
  · rename_i hall
    exact List.isEmpty_iff.mp (List.all_eq_true.mp hall c hc)
  · cases hok

/-- The two functions take turns, and have the outcomes and the text that they have one after the
other. -/
theorem schedule_twinProgram : ∃ tl v₀ v g axioms φ text,
    let σ : Semantics := ⟨.two, tl⟩
    let final := Concurrent.run ⟨v, twinProgram.functions.map σ.function⟩ twinSchedule
    let later := (σ.conjecture twinProgram).run final.vocabulary
    load twinSource = .ok twinProgram ∧ twinProgram.locate .two = .ok (tl, v₀) ∧
      (do TraceMode.prepare .two; σ.declareProgram twinProgram).run v₀ = (.ok (), v) ∧
      final.Finished ∧ twinProgram.generate .two none = .ok g ∧
      final.outcomes = axioms.map .ok ∧ later.1 = .ok φ ∧
      Problem.print { axioms, conjecture := some φ } later.2 = g.problem.print g.vocabulary ∧
      twinProgram.conditions { twoTraces := true } = .ok text ∧
      twinProgram.conditions { twoTraces := true, parallel := true } ⟨twinSchedule, 1⟩ =
        .ok text := by
  obtain ⟨tl, v₀, v, hlocate, hdeclare, hfinished⟩ := twin_finishes
  have hok : (twinProgram.generate .two none).isOk = true := by decide +kernel
  obtain ⟨g, hg⟩ := exists_eq_ok_of_isOk hok
  have htext : (twinProgram.conditions { twoTraces := true }).isOk = true := by decide +kernel
  obtain ⟨text, htext⟩ := exists_eq_ok_of_isOk htext
  obtain ⟨hparallel, _, _, hfinal⟩ :=
    schedule_eq_inTurn load_twinSource hlocate hdeclare twinSchedule
  obtain ⟨axioms, φ, houtcomes, hgoal, hprint⟩ := (hfinal hfinished).2 g hg
  exact ⟨tl, v₀, v, g, axioms, φ, text, load_twinSource, hlocate, hdeclare, hfinished, hg,
    houtcomes, hgoal, hprint, htext, (hparallel { twoTraces := true } 1 text rfl).mpr htext⟩

end Program

end TraceLogic
