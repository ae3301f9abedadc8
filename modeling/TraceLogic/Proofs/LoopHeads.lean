import TraceLogic.Proofs.Nesting

/-!
# The head of a loop

The location pass follows the nesting of statements, and the meaning of a loop goes by the list of
loops that the loop carries. Both speak about the same head: the head in the bound iteration, with
that iteration replaced, is where the loop starts, where its body ends and where its condition
fails.
-/

namespace TraceLogic

open Construction Statement Timeline

namespace Term

mutual

/-- Replaces a variable by a term. -/
def subst : Term → Symbol → Term → Term
  | .var y, x, u => if y = x then u else .var y
  | .app f ts, x, u => .app f (substAll ts x u)

/-- Replaces a variable in all terms. -/
def substAll : List Term → Symbol → Term → List Term
  | [], _, _ => []
  | t :: ts, x, u => subst t x u :: substAll ts x u

end

mutual

/-- The variables of a term from left to right, each as often as it occurs. -/
def vars : Term → List Symbol
  | .var x => [x]
  | .app _ ts => varsOf ts

/-- The variables of terms. -/
def varsOf : List Term → List Symbol
  | [] => []
  | t :: ts => vars t ++ varsOf ts

end

/-- Substitution goes through two lists of terms one after the other. -/
theorem substAll_append (ts us : List Term) (x : Symbol) (u : Term) :
    substAll (ts ++ us) x u = substAll ts x u ++ substAll us x u := by
  induction ts with
  | nil => rfl
  | cons t ts ih => rw [List.cons_append, substAll, ih, substAll, List.cons_append]

/-- The variables of two lists of terms are those of the one and those of the other. -/
theorem varsOf_append (ts us : List Term) : varsOf (ts ++ us) = varsOf ts ++ varsOf us := by
  induction ts with
  | nil => rfl
  | cons t ts ih => rw [List.cons_append, varsOf, ih, varsOf, List.append_assoc]

/-- The variables of iterations are the iterations. -/
theorem varsOf_iterations (loops : List String) :
    varsOf (loops.map .iteration) = loops.map Symbol.iteration := by
  induction loops with
  | nil => rfl
  | cons l loops ih =>
    rw [List.map_cons, varsOf, ih, List.map_cons, iteration, vars, List.singleton_append]

/-- Different loops bind different iterations. -/
theorem iteration_symbol_ne {loop other : String} (h : other ≠ loop) :
    Symbol.iteration other ≠ .iteration loop :=
  fun heq => h (iterationName_injective (congrArg Symbol.name heq))

/-- Substituting for an iteration replaces the iteration itself. -/
theorem subst_iteration_self (loop : String) (u : Term) :
    (iteration loop).subst (.iteration loop) u = u :=
  if_pos rfl

/-- The iterations of other loops stay. -/
theorem substAll_iterations {loop : String} {loops : List String} (hloop : loop ∉ loops)
    (u : Term) : substAll (loops.map .iteration) (.iteration loop) u = loops.map .iteration := by
  induction loops with
  | nil => rfl
  | cons l loops ih =>
    obtain ⟨hne, hloop⟩ := List.ne_and_not_mem_of_not_mem_cons hloop
    rw [List.map_cons, substAll, ih hloop, iteration, subst, if_neg (iteration_symbol_ne hne.symm)]

/-- The head of a loop in another iteration. -/
theorem subst_loopHead {loop : String} {loops : List String} (hloop : loop ∉ loops) (u : Term) :
    (loopHead loop loops loops (.iteration loop)).subst (.iteration loop) u =
      loopHead loop loops loops u := by
  rw [loopHead, subst, substAll_append, substAll_iterations hloop, substAll, substAll,
    subst_iteration_self, loopHead]

/-- The variables of the last iteration of a loop. -/
theorem vars_lastIteration (mode : TraceMode) (location : String) (loops : List String) :
    (Term.app (mode.lastIterationSymbol location loops)
      (loops.map .iteration ++ mode.traceArgs)).vars =
        loops.map .iteration ++ mode.traceSymbol?.toList := by
  rw [vars, varsOf_append, varsOf_iterations]
  cases mode <;> rfl

/-- The last iteration of a loop does not mention the iteration of the loop itself. -/
theorem iteration_not_mem_lastIteration (mode : TraceMode) {loop : String}
    {loops : List String} (hloop : loop ∉ loops) :
    Symbol.iteration loop ∉ loops.map .iteration ++ mode.traceSymbol?.toList := by
  intro hmem
  rcases List.mem_append.mp hmem with hmem | hmem
  · obtain ⟨other, hother, heq⟩ := List.mem_map.mp hmem
    have hne : other ≠ loop := fun h => hloop (h ▸ hother)
    exact iteration_symbol_ne hne heq
  · cases mode with
    | one => cases hmem
    | two =>
      have hsort : SortSymbol.time = .trace := congrArg Symbol.range (List.mem_singleton.mp hmem)
      exact absurd hsort (by decide)

end Term

namespace Semantics

variable {σ : Semantics} {site : Site} {enclosing : List String} {c : BoolExpr Variable}
  {body : List Statement}

/-- Whether the meaning of a loop takes the negated condition at a point, and the values after the
loop are those at that point. -/
def ExitsAt (σ : Semantics) (site : Site) (enclosing : List String) (c : BoolExpr Variable)
    (body : List Statement) (t : Term) : Prop :=
  ∃ start stop vars parts ends exit,
    (σ.startOf site).outcome = .ok start ∧ (σ.stopOf site).outcome = .ok stop ∧
    (σ.activeAt start).outcome = .ok vars ∧
    (σ.mode.boolFormula t c).outcome = .ok ends ∧
    (σ.sameValues stop t (changing vars)).outcome = .ok exit ∧
    (σ.statement (.loop site enclosing c body)).outcome =
      .ok ((Formula.conjunction (parts ++
        [(Formula.negation ends).withLabel "The loop condition fails in the last iteration",
          (Formula.conjunction exit).withLabel
            "Values after the loop are the values of the last iteration"])).withLabel
        ("Loop at location " ++ site.location))

/-- The points that a loop collects, where the location pass does not come in. -/
theorem loopPoints_eq_ok {points : LoopPoints}
    (h : (σ.loopPoints site enclosing body).outcome = .ok points) :
    points.last = .app (σ.mode.lastIterationSymbol site.location enclosing)
        (enclosing.map .iteration ++ σ.mode.traceArgs) ∧
      points.headNow = .loopHead site.location enclosing enclosing (.iteration site.location) ∧
      points.headLast = .loopHead site.location enclosing enclosing points.last ∧
      (σ.startOf site).outcome = .ok points.start ∧ (σ.stopOf site).outcome = .ok points.stop := by
  simp only [loopPoints, outcome_bind_eq_ok] at h
  obtain ⟨last, hlast, head, ⟨⟩, now, hnow, after, hafter, start, hstart, stop, hstop,
    _, _, _, _, ⟨⟩⟩ := h
  exact ⟨Term.app?_eq_ok hlast, Term.app?_eq_ok hnow, Term.app?_eq_ok hafter, hstart, hstop⟩

/-- A loop that has a meaning ends at its head in the last iteration. -/
theorem exists_exitsAt {φ : Formula}
    (h : (σ.statement (.loop site enclosing c body)).outcome = .ok φ) :
    ∃ points, (σ.loopPoints site enclosing body).outcome = .ok points ∧
      σ.ExitsAt site enclosing c body points.headLast := by
  have hφ := h
  simp only [statement, forAllIterations_eq, pure_bind, outcome_bind_eq_ok] at h
  obtain ⟨points, hpoints, vars, hvars, entry, _, inside, _, bounds, hbounds, exit, hexit, ⟨⟩⟩ := h
  simp only [loopCondition, forAllIterations_eq, pure_bind, outcome_bind_eq_ok] at hbounds
  obtain ⟨early, _, runs, _, ends, hends, ⟨⟩⟩ := hbounds
  obtain ⟨_, _, _, hstart, hstop⟩ := loopPoints_eq_ok hpoints
  exact ⟨points, hpoints, points.start, points.stop, vars, [_, _, _], ends, exit, hstart, hstop,
    hvars, hends, hexit, hφ⟩

/-- A statement of a block that is known has a meaning. -/
theorem exists_statement {vars : List Variable} {loops : List String} {stop : Term}
    {s : Statement} {rest : List Statement}
    (hk : σ.timeline.Knows vars loops stop (s :: rest)) (hstop : stop.sort = .time) :
    ∃ φ, (σ.statement s).outcome = .ok φ := by
  have huniform : Uniform (fun _ => True) (fun mode => block ⟨mode, σ.timeline⟩ (s :: rest))
      (fun _ => True) := uniform_block hk hstop fun _ _ => trivial
  obtain ⟨_, _, hblock⟩ := huniform
  obtain ⟨_, _, hfs, _⟩ := hblock σ.mode
  obtain ⟨φ, hφ, _⟩ := outcome_bind_eq_ok.mp hfs
  exact ⟨φ, hφ⟩

/-- How the points of a loop are related to its head in the bound iteration. -/
structure HeadsAgree (σ : Semantics) (loops : List String) (site : Site) (enclosing : List String)
    (c : BoolExpr Variable) (body : List Statement) (points : LoopPoints) : Prop where
  headNow : points.headNow =
    .loopHead site.location enclosing enclosing (.iteration site.location)
  /-- The loop starts at its head in the first iteration. -/
  first : σ.timeline.starts.get? site.id =
    some (points.headNow.subst (.iteration site.location) .zero)
  /-- Its body ends at the head in the next iteration. -/
  next : ∃ s, body.getLast? = some s ∧ σ.timeline.stops.get? s.id =
    some (points.headNow.subst (.iteration site.location) (.succ (.iteration site.location)))
  /-- The loop is left at its head in the last iteration. -/
  exits : σ.ExitsAt site enclosing c body
    (points.headNow.subst (.iteration site.location) points.last)
  /-- The last iteration depends on the loops around, and not on the loop itself. -/
  vars_last : points.last.vars = loops.map .iteration ++ σ.mode.traceSymbol?.toList
  iteration_not_mem : Symbol.iteration site.location ∉ points.last.vars

end Semantics

/-- The end of a block is a point of time. -/
theorem Function.HasBlock.sort_stop {f : Function} {loops : List String} {stop : Term}
    {b : List Statement} (hb : f.HasBlock loops stop b) : stop.sort = .time := by
  cases hb <;> rfl

/-- A loop in a block that is known has one head. -/
theorem Semantics.exists_headsAgree {σ : Semantics} {vars : List Variable} {loops : List String}
    {stop : Term} {site : Site} {enclosing : List String} {c : BoolExpr Variable}
    {body rest : List Statement}
    (hk : σ.timeline.Knows vars loops stop (.loop site enclosing c body :: rest))
    (hstop : stop.sort = .time) :
    ∃ points, (σ.loopPoints site enclosing body).outcome = .ok points ∧
      σ.HeadsAgree loops site enclosing c body points := by
  obtain ⟨φ, hφ⟩ := exists_statement hk hstop
  obtain ⟨points, hpoints, hexits⟩ := exists_exitsAt hφ
  obtain ⟨hlast, hnow, hheadLast, _⟩ := loopPoints_eq_ok hpoints
  obtain ⟨rfl, _, hbody, _⟩ := hk.formed.1
  have hfresh := hk.location_not_mem
  have hhead (u : Term) : points.headNow.subst (.iteration site.location) u =
      .loopHead site.location enclosing enclosing u := by
    rw [hnow, Term.subst_loopHead hfresh]
  have hvars : points.last.vars = enclosing.map .iteration ++ σ.mode.traceSymbol?.toList := by
    rw [hlast, Term.vars_lastIteration]
  refine ⟨points, hpoints, hnow, ?_, ⟨body.getLast hbody, ?_, ?_⟩, ?_, hvars, ?_⟩
  · rw [hhead]
    exact hk.first_start
  · exact List.getLast?_eq_some_getLast hbody
  · rw [hhead]
    exact hk.of_body.stop_of_getLast? (List.getLast?_eq_some_getLast hbody)
  · rwa [hhead, ← hheadLast]
  · rw [hvars]
    exact Term.iteration_not_mem_lastIteration σ.mode hfresh

namespace Program

/-- The location pass and the meaning of a loop speak about the same head. The last iteration
depends on the loops that are passed on the way to the loop. -/
theorem headsAgree_of_load {source : String} {p : Program} (hload : load source = .ok p)
    (mode : TraceMode) :
    ∃ tl v, p.locate mode = .ok (tl, v) ∧
      ∀ f ∈ p.functions, ∀ site enclosing c body,
        .loop site enclosing c body ∈ f.statementsInOrder →
          ∃ loops points, Within f.statements loops (.loop site enclosing c body) ∧
            (Semantics.loopPoints ⟨mode, tl⟩ site enclosing body).outcome = .ok points ∧
            Semantics.HeadsAgree ⟨mode, tl⟩ loops site enclosing c body points := by
  have hp := formed_of_load hload
  obtain ⟨tl, v, hlocate⟩ := hp.exists_locate mode
  refine ⟨tl, v, hlocate, fun f hf site enclosing c body hloop => ?_⟩
  obtain ⟨loops, hwithin⟩ := exists_within hloop
  obtain ⟨stop, b, hb, hs⟩ := Function.HasBlock.top.exists_of_within hwithin
  obtain ⟨before, after, rfl⟩ := List.append_of_mem hs
  obtain ⟨points, hpoints, hagree⟩ := Semantics.exists_headsAgree (σ := ⟨mode, tl⟩)
    (hp.knows_block hlocate hf hb).of_append hb.sort_stop
  exact ⟨loops, points, hwithin, hpoints, hagree⟩

/-- The inner loop of the sample stands in a branch inside the outer loop. -/
theorem headsAgree_nestedProgram : load nestedSource = .ok nestedProgram ∧
    ∃ tl v, nestedProgram.locate .two = .ok (tl, v) ∧
      ∃ points,
        (Semantics.loopPoints ⟨.two, tl⟩ ⟨4, "l4"⟩ ["l1"] [.skip ⟨5, "l5"⟩]).outcome = .ok points ∧
        Semantics.HeadsAgree ⟨.two, tl⟩ ["l1"] ⟨4, "l4"⟩ ["l1"] (.constant false)
          [.skip ⟨5, "l5"⟩] points := by
  obtain ⟨tl, v, hlocate, hloops⟩ := headsAgree_of_load load_nestedSource .two
  have hf := (formed_of_load load_nestedSource).functions _ List.mem_cons_self
  have hinner : .loop ⟨4, "l4"⟩ ["l1"] (.constant false) [.skip ⟨5, "l5"⟩] ∈
      nestedProgram.functions[0].statementsInOrder := .tail _ (.tail _ (.tail _ (.head _)))
  obtain ⟨loops, points, hwithin, hpoints, hagree⟩ :=
    hloops _ List.mem_cons_self _ _ _ _ hinner
  obtain rfl := (hf.within_loop_iff hinner).mp hwithin
  exact ⟨load_nestedSource, tl, v, hlocate, points, hpoints, hagree⟩

end Program

end TraceLogic
