import TraceLogic.Proofs.Script
import TraceLogic.Proofs.Sorts
import TraceLogic.Proofs.Totality

/-!
# The problem of a program is well-sorted

The points of time in a timeline are sorted, and a point inside loops mentions only the iterations
of these loops, which are bound around it. So the formulas of a statement are well-sorted in the
scope of the loops around it, and a loop binds its own iteration for its body. The main statement,
`Program.Formed.yields_posed`, says that every formula of a problem is well-sorted in the empty
scope, once everything that was asked for is there.
-/

namespace TraceLogic

open Construction Statement Timeline

/-! ## Points of time are sorted -/

namespace Timeline

variable {v : Vocabulary} {set : VariableSet} {tl : Timeline}

/-- Whether the points of time in a timeline are sorted. -/
structure Sorted (v : Vocabulary) (tl : Timeline) : Prop where
  starts : ∀ id t, tl.starts.get? id = some t → t.Sorted v
  stops : ∀ id t, tl.stops.get? id = some t → t.Sorted v
  functionEnds : ∀ name t, tl.functionEnds.get? name = some t → t.Sorted v

/-- A timeline without points is sorted. -/
theorem sorted_empty (v : Vocabulary) : Sorted v {} :=
  ⟨by simp, by simp, by simp⟩

/-- A table of sorted points stays one if a sorted point is added. -/
theorem sorted_of_insert {κ : Type} [DecidableEq κ] {table : Table κ Term}
    (htable : ∀ k t, table.get? k = some t → t.Sorted v) {key : κ} {u : Term} (hu : u.Sorted v) :
    ∀ k t, (table.insert key u).get? k = some t → t.Sorted v := by
  intro k t ht
  by_cases hk : k = key
  · rw [hk, Table.get?_insert_self] at ht
    exact Option.some.inj ht ▸ hu
  · rw [Table.get?_insert_of_ne _ _ hk] at ht
    exact htable k t ht

/-- Recording the ends of a statement keeps a timeline sorted if they are sorted. -/
theorem Sorted.locate (h : tl.Sorted v) (statement : Nat) {start stop : Term}
    (hstart : start.Sorted v) (hstop : stop.Sorted v) :
    (tl.locate statement start stop).Sorted v :=
  ⟨sorted_of_insert h.starts hstart, sorted_of_insert h.stops hstop, h.functionEnds⟩

/-- Recording what matters at points adds no point. -/
theorem Sorted.activateAll (h : tl.Sorted v) (set : VariableSet) (ts : List Term) :
    (ts.foldl (Timeline.activate · set ·) tl).Sorted v := by
  induction ts generalizing tl with
  | nil => exact h
  | cons t ts ih => exact ih ⟨h.starts, h.stops, h.functionEnds⟩

/-- An iteration is a variable without arguments. -/
theorem sorted_iteration (loop : String) : (Term.iteration loop).Sorted v := rfl

/-- A location is applied to the iterations of loops, and maybe to one more. -/
theorem sorted_of_app? {f : Symbol} (hf : v.lookup? f.name = some f) (loops : List String)
    {more : List Term} (hmore : ∀ t ∈ more, t.Sorted v) {t : Term}
    (ht : Term.app? f (loops.map .iteration ++ more) = .ok t) : t.Sorted v := by
  obtain rfl := Term.app?_eq_ok ht
  refine ⟨hf, Term.sorts_of_app? ht, Term.allSorted_iff.mpr fun u hu => ?_⟩
  rcases List.mem_append.mp hu with hu | hu
  · obtain ⟨loop, _, rfl⟩ := List.mem_map.mp hu
    exact sorted_iteration loop
  · exact hmore u hu

/-- A location yields a sorted point, the iterations of the loops around as its arguments. -/
theorem yields_pointAt (location : String) (loops : List String) :
    Yields v (pointAt location loops) (Term.Sorted v) := by
  refine .bind (.declare _) fun f _ hf => .after ?_
  rintro its ⟨⟩
  obtain ⟨rfl, hf⟩ := hf
  refine .ofExcept fun t ht => sorted_of_app? hf loops (List.forall_mem_nil _) ?_
  rwa [List.append_nil]

/-- The head of a loop yields a sorted point if the iteration does. -/
theorem yields_loopHead (location : String) (enclosing loops : List String)
    {iteration : Construction Term} (hiteration : Yields v iteration (Term.Sorted v)) :
    Yields v (loopHead location enclosing loops iteration) (Term.Sorted v) := by
  refine .bind (.declare _) fun f _ hf => .after ?_
  rintro its ⟨⟩
  obtain ⟨rfl, hf⟩ := hf
  refine .bind hiteration fun i _ hi => .ofExcept fun t ht => ?_
  exact sorted_of_app? hf loops (List.forall_mem_singleton.mpr hi) ht

/-- Every statement starts at a sorted point: a loop at its head in iteration zero, and any other
one at its location. -/
theorem yields_startPoint (loops : List String) (s : Statement) :
    Yields v (startPoint loops s) (Term.Sorted v) := by
  cases s with
  | loop site enclosing c body =>
    have hzero : Yields v Interpreted.zero (Term.WellSorted v []) := .apply (by simp)
    exact yields_loopHead _ _ _ fun hgrants t ht => (hzero hgrants t ht).sorted
  | assign site target value => exact yields_pointAt _ _
  | branch site c thens elses => exact yields_pointAt _ _
  | skip site => exact yields_pointAt _ _

/-- Whether locating a block keeps a timeline sorted. -/
def KeepsSorted (v : Vocabulary) (set : VariableSet) (b : List Statement) : Prop :=
  ∀ (loops : List String) {stop : Term} {tl : Timeline} {starts : List Term}, stop.Sorted v →
    (∀ t ∈ starts, t.Sorted v) → tl.Sorted v →
    Yields v (locateAll set loops stop tl starts b) (Sorted v)

/-- A block keeps a timeline sorted if its first statement and the rest do. The first statement ends
where the rest starts. -/
theorem KeepsSorted.cons {s : Statement} {rest : List Statement}
    (hnested : ∀ (loops : List String) {tl : Timeline}, tl.Sorted v →
      Yields v (locateNested set loops tl s) (Sorted v))
    (hrest : KeepsSorted v set rest) : KeepsSorted v set (s :: rest) := by
  intro loops stop tl starts hstop hstarts htl
  cases starts with
  | nil => exact .pure htl
  | cons start later =>
    obtain ⟨hstart, hlater⟩ := List.forall_mem_cons.mp hstarts
    have hend : (later.headD stop).Sorted v := by
      cases later with
      | nil => exact hstop
      | cons t ts => exact hlater t List.mem_cons_self
    exact .bind (hnested loops (htl.locate s.id hstart hend)) fun tl₁ _ htl₁ =>
      hrest loops hstop hlater htl₁

/-- Locating a block with its starting points keeps a timeline sorted. -/
theorem KeepsSorted.block {b : List Statement} (h : KeepsSorted v set b) (loops : List String)
    {stop : Term} (hstop : stop.Sorted v) (htl : tl.Sorted v) :
    Yields v (locateBlock set loops stop tl b) (Sorted v) :=
  .bind (.each fun s _ => yields_startPoint loops s) fun starts _ hstarts =>
    h loops hstop hstarts (htl.activateAll set starts)

/-- Locating keeps a timeline sorted, whatever the block is. The blocks of a branch end at points of
their own, and the body of a loop at its head in the next iteration. -/
theorem keepsSorted (v : Vocabulary) (set : VariableSet) (b : List Statement) :
    KeepsSorted v set b := by
  induction b using blockInduction with
  | nil =>
    intro loops stop tl starts _ _ htl
    exact .pure htl
  | assign site target value rest ih => exact .cons (fun _ _ htl => .pure htl) ih
  | skip site rest ih => exact .cons (fun _ _ htl => .pure htl) ih
  | branch site c thens elses rest ihthens ihelses ih =>
    refine .cons (fun loops tl htl => ?_) ih
    refine .bind (yields_pointAt _ loops) fun left _ hleft => ?_
    refine .bind (yields_pointAt _ loops) fun right _ hright => ?_
    have hactive := htl.activateAll set [left, right]
    refine .bind (.each fun s _ => yields_startPoint loops s) fun thenStarts _ hthenStarts => ?_
    have hthens := ihthens loops hleft hthenStarts (hactive.activateAll set thenStarts)
    refine .bind hthens fun tl₁ _ htl₁ => ?_
    exact ihelses.block loops hright htl₁
  | loop site enclosing c body rest ihbody ih =>
    refine .cons (fun loops tl htl => ?_) ih
    have hnext : Yields v (Interpreted.succ (Term.iteration site.location)) (Term.Sorted v) := by
      intro hgrants t ht
      have hnow := Term.wellSorted_bound (v := v) (.iteration site.location) rfl []
      exact (Yields.apply (List.forall_mem_singleton.mpr hnow) hgrants t ht).sorted
    refine .bind (yields_loopHead _ _ loops hnext) fun next _ hnext => ?_
    exact ihbody.block _ hnext htl

/-- Locating a function keeps a timeline sorted. -/
theorem yields_locateFunction (htl : tl.Sorted v) (f : Function) :
    Yields v (tl.locateFunction f) (Sorted v) := by
  refine .bind (yields_pointAt _ _) fun stop _ hstop => ?_
  refine .bind ((keepsSorted v _ f.statements).block [] hstop
    ⟨htl.starts, htl.stops, htl.functionEnds⟩) fun tl₁ _ htl₁ => .pure ?_
  exact ⟨htl₁.starts, htl₁.stops, sorted_of_insert htl₁.functionEnds hstop⟩

/-- Locating functions keeps a timeline sorted. -/
theorem yields_locateFunctions (htl : tl.Sorted v) (fs : List Function) :
    Yields v (tl.locateFunctions fs) (Sorted v) := by
  induction fs generalizing tl with
  | nil => exact .pure htl
  | cons f fs ih => exact .bind (yields_locateFunction htl f) fun tl₁ _ htl₁ => ih htl₁

end Timeline

/-! ## Points of time are closed -/

namespace TraceMode

variable {v : Vocabulary} {mode : TraceMode} {loops : List String}

/-- The variables that are bound around a statement inside loops, the innermost one first. -/
def scope (mode : TraceMode) (loops : List String) : List Symbol :=
  (loops.map Symbol.iteration).reverse ++ mode.traceSymbol?.toList

/-- A loop binds its iteration. -/
theorem scope_concat (mode : TraceMode) (loops : List String) (loop : String) :
    mode.scope (loops ++ [loop]) = Symbol.iteration loop :: mode.scope loops := by
  simp [scope]

/-- Only the iterations of the loops around and the trace are in scope. -/
theorem eq_of_mem_scope {x : Symbol} (h : x ∈ mode.scope loops) :
    (∃ loop ∈ loops, x = .iteration loop) ∨ x = .trace := by
  rw [scope, List.mem_append, List.mem_reverse, List.mem_map] at h
  rcases h with ⟨loop, hloop, rfl⟩ | h
  · exact .inl ⟨loop, hloop, rfl⟩
  · cases mode with
    | one => cases h
    | two => exact .inr (List.mem_singleton.mp h)

/-- Variables of one name are the same in a scope. -/
theorem eq_of_name_mem_scope {x y : Symbol} (hx : x ∈ mode.scope loops) (hy : y ∈ mode.scope loops)
    (hname : x.name = y.name) : x = y := by
  have htrace (loop : String) : "It_" ++ loop ≠ "tr" := iterationName_ne (by decide)
  rcases eq_of_mem_scope hx with ⟨l, _, rfl⟩ | rfl <;>
    rcases eq_of_mem_scope hy with ⟨m, _, rfl⟩ | rfl
  · rw [iterationName_injective hname]
  · exact absurd hname (htrace l)
  · exact absurd hname.symm (htrace m)
  · rfl

/-- A variable that is in scope is the innermost one of its name. -/
theorem closed_of_mem_scope {x : Symbol} (h : x ∈ mode.scope loops) :
    (Term.var x).Closed (mode.scope loops) := by
  have hfound : ((mode.scope loops).find? (fun b => b.name = x.name)).isSome :=
    List.find?_isSome.mpr ⟨x, h, by simp⟩
  obtain ⟨y, hy⟩ := Option.isSome_iff_exists.mp hfound
  have hname : y.name = x.name := by simpa using List.find?_some hy
  exact hy.trans (congrArg some (eq_of_name_mem_scope (List.mem_of_find?_eq_some hy) h hname))

/-- The iterations of loops around are bound. -/
theorem closed_iterations {enclosing : List String} (h : enclosing ⊆ loops) :
    ∀ t ∈ enclosing.map Term.iteration, t.Closed (mode.scope loops) := by
  intro t ht
  obtain ⟨loop, hloop, rfl⟩ := List.mem_map.mp ht
  refine closed_of_mem_scope (List.mem_append_left _ (List.mem_reverse.mpr ?_))
  exact List.mem_map_of_mem (h hloop)

/-- The iterations of loops around may be used as arguments. -/
theorem wellSorted_iterations {enclosing : List String} (h : enclosing ⊆ loops) :
    ∀ t ∈ enclosing.map Term.iteration, t.WellSorted v (mode.scope loops) := by
  intro t ht
  refine ⟨?_, closed_iterations h t ht⟩
  obtain ⟨loop, _, rfl⟩ := List.mem_map.mp ht
  exact sorted_iteration loop

/-- The trace may be used as an argument, if there is one. -/
theorem wellSorted_traceArgs : ∀ t ∈ mode.traceArgs, t.WellSorted v (mode.scope loops) := by
  intro t ht
  cases mode with
  | one => cases ht
  | two =>
    obtain rfl := List.mem_singleton.mp ht
    exact ⟨rfl, closed_of_mem_scope (by simp [scope, traceSymbol?])⟩

/-- A position can be bound inside any loops, as nothing in scope has its name. -/
theorem position_fresh : ∀ x ∈ mode.scope loops, x.name ≠ Symbol.position.name := by
  intro x hx
  rcases eq_of_mem_scope hx with ⟨loop, _, rfl⟩ | rfl
  · exact iterationName_ne (by decide)
  · decide

/-- A loop that is not inside itself can bind its iteration. -/
theorem iteration_fresh {loop : String} (h : loop ∉ loops) :
    ∀ x ∈ mode.scope loops, x.name ≠ (Symbol.iteration loop).name := by
  intro x hx hname
  rcases eq_of_mem_scope hx with ⟨other, hother, rfl⟩ | rfl
  · exact h (iterationName_injective hname ▸ hother)
  · exact iterationName_ne (by decide) hname.symm

/-- A term around a loop may stand in its body. -/
theorem wellSorted_enter {loop : String} (h : loop ∉ loops) {t : Term}
    (ht : t.WellSorted v (mode.scope loops)) : t.WellSorted v (mode.scope (loops ++ [loop])) :=
  scope_concat mode loops loop ▸ ht.cons (iteration_fresh h)

/-- A location inside loops mentions only their iterations. -/
theorem closed_point (location : String) :
    (Term.point location loops).Closed (mode.scope loops) :=
  Term.allClosed_iff.mpr (closed_iterations (List.Subset.refl _))

/-- The head of a loop mentions the iterations of the loops around and the one it is given. -/
theorem closed_loopHead (location : String) {enclosing : List String} (h : enclosing ⊆ loops)
    {around : List String} {i : Term} (hi : i.Closed (mode.scope loops)) :
    (Term.loopHead location around enclosing i).Closed (mode.scope loops) :=
  Term.allClosed_iff.mpr
    (List.forall_mem_append.mpr ⟨closed_iterations h, List.forall_mem_singleton.mpr hi⟩)

/-- A statement starts at a point that mentions only the iterations of the loops around. -/
theorem closed_startTerm (s : Statement) : (s.startTerm loops).Closed (mode.scope loops) := by
  cases s with
  | loop site enclosing c body => exact closed_loopHead _ (List.Subset.refl _) trivial
  | assign site target value => exact closed_point _
  | branch site c thens elses => exact closed_point _
  | skip site => exact closed_point _

end TraceMode

/-! ## Statements -/

namespace Semantics

variable {v : Vocabulary} {mode : TraceMode} {tl : Timeline} {loops : List String}
  {vars : List Variable} {stop : Term} {site : Site} {b rest : List Statement}

/-- A block starts at a point that is well-sorted around it, if it ends at one. -/
theorem wellSorted_blockStartTerm (htl : tl.Sorted v) (hk : tl.Knows vars loops stop b)
    (hstop : stop.WellSorted v (mode.scope loops)) :
    (blockStartTerm loops stop b).WellSorted v (mode.scope loops) := by
  cases b with
  | nil => exact hstop
  | cons s rest => exact ⟨htl.starts _ _ hk.first_start, TraceMode.closed_startTerm s⟩

/-- The point at which a block ends is sorted, since a statement ends there. -/
theorem sorted_of_knows (htl : tl.Sorted v) (hk : tl.Knows vars loops stop b) (hb : b ≠ []) :
    stop.Sorted v :=
  htl.stops _ _ (hk.stop_of_getLast? (List.getLast?_eq_some_getLast hb))

/-- An element of an array at the position that is bound. -/
theorem yields_element {t : Term} (ht : t.WellSorted v (mode.scope loops)) (a : Variable) :
    Yields v (mode.elementAt a t Term.position)
      (Term.WellSorted v (Symbol.position :: mode.scope loops)) :=
  .elementAt (ht.cons TraceMode.position_fresh)
    (fun u hu => (TraceMode.wellSorted_traceArgs u hu).cons TraceMode.position_fresh)
    (Term.wellSorted_bound _ rfl _) a

/-- Both blocks of a branch end at well-sorted points, since neither is empty. -/
theorem wellSorted_branchEnds {c : BoolExpr Variable} {thens elses : List Statement}
    (mode : TraceMode) (htl : tl.Sorted v)
    (hk : tl.Knows vars loops stop (.branch site c thens elses :: rest)) :
    (Term.point (leftEnd site.location) loops).WellSorted v (mode.scope loops) ∧
      (Term.point (rightEnd site.location) loops).WellSorted v (mode.scope loops) := by
  obtain ⟨⟨_, ⟨hthens, _⟩, helses, _⟩, _⟩ := hk.formed
  exact ⟨⟨sorted_of_knows htl hk.of_thens hthens, TraceMode.closed_point _⟩,
    ⟨sorted_of_knows htl hk.of_elses helses, TraceMode.closed_point _⟩⟩

/-- A function that is covered ends at a well-sorted point. -/
theorem wellSorted_endTerm (htl : tl.Sorted v) {f : Function} (hcovers : tl.Covers f) :
    f.endTerm.WellSorted v (mode.scope []) :=
  ⟨htl.functionEnds _ _ hcovers.functionEnd, TraceMode.closed_point _⟩

/-- The formulas of a block are of a kind if that of its first statement and those of the rest
are. -/
theorem yields_block_cons {σ : Semantics} {s : Statement} {P : Formula → Prop}
    (hs : Yields v (σ.statement s) P) (hrest : Yields v (σ.block rest) (fun fs => ∀ f ∈ fs, P f)) :
    Yields v (σ.block (s :: rest)) (fun fs => ∀ f ∈ fs, P f) :=
  .bind hs fun _ _ hf => .bind hrest fun _ _ hfs => .pure (List.forall_mem_cons.mpr ⟨hf, hfs⟩)

section

variable (hsorts : ∀ s ∈ mode.sorts, s ∈ v.sorts)

include hsorts

/-- A formula about a position may be said of all positions around it. -/
theorem wellSorted_forAllPositions {f : Formula}
    (hf : f.WellSorted v (Symbol.position :: mode.scope loops)) :
    (Formula.quantified .all [.position] f).WellSorted v (mode.scope loops) :=
  ⟨List.forall_mem_singleton.mpr ⟨rfl, hsorts .int (by simp [TraceMode.sorts])⟩, hf⟩

/-- A formula in the body of a loop may be said of all iterations around the loop. -/
theorem wellSorted_forAllIterations {location : String} {f : Formula}
    (hf : f.WellSorted v (mode.scope (loops ++ [location]))) :
    (Formula.quantified .all [.iteration location] f).WellSorted v (mode.scope loops) := by
  have htime := hsorts .time (by simp [TraceMode.sorts])
  rw [TraceMode.scope_concat] at hf
  exact ⟨List.forall_mem_singleton.mpr ⟨rfl, htime⟩, hf⟩

/-- A formula outside all loops may be said of all traces around everything. -/
theorem wellSorted_overTraces {f : Formula} (hf : f.WellSorted v (mode.scope [])) :
    (overTraces ⟨mode, tl⟩ f).WellSorted v [] := by
  cases mode with
  | one => exact hf
  | two =>
    have htrace := hsorts .trace (by simp [TraceMode.sorts, TraceMode.traceDomain])
    exact ⟨List.forall_mem_singleton.mpr ⟨rfl, htrace⟩, hf⟩

section

variable {t u : Term} (ht : t.WellSorted v (mode.scope loops))
  (hu : u.WellSorted v (mode.scope loops))

include ht hu

/-- That a variable keeps its value between two points is well-sorted. For an array it is said of
all positions. -/
theorem yields_sameValue (x : Variable) :
    Yields v (sameValue ⟨mode, tl⟩ t u x) (Formula.WellSorted v (mode.scope loops)) := by
  simp only [sameValue, forAllPositions_eq]
  split
  · refine .bind (yields_element ht x) fun l _ hl => .bind (yields_element hu x) fun r _ hr => ?_
    exact .bind (.equal hl hr) fun f _ hf => .pure (wellSorted_forAllPositions hsorts hf)
  · refine .bind (.valueAt ht TraceMode.wellSorted_traceArgs x) fun l _ hl => ?_
    exact .bind (.valueAt hu TraceMode.wellSorted_traceArgs x) fun r _ hr => .equal hl hr

/-- That variables keep their values between two points is well-sorted. -/
theorem yields_sameValues (xs : List Variable) :
    Yields v (sameValues ⟨mode, tl⟩ t u xs)
      (fun fs => ∀ f ∈ fs, f.WellSorted v (mode.scope loops)) :=
  .each fun x _ => yields_sameValue hsorts ht hu x

/-- An update between two points is well-sorted. For an element it is also said of the other
positions. -/
theorem yields_update (target : Target Variable) (value : IntExpr Variable) :
    Yields v (update ⟨mode, tl⟩ t u value target)
      (fun fs => ∀ f ∈ fs, f.WellSorted v (mode.scope loops)) := by
  have htrace : ∀ s ∈ mode.traceArgs, s.WellSorted v (mode.scope loops) :=
    TraceMode.wellSorted_traceArgs
  cases target with
  | scalar x =>
    refine .bind (.valueAt hu htrace x) fun new _ hnew => ?_
    refine .bind (.intTerm ht htrace value) fun old _ hold => ?_
    exact .bind (.equal hnew hold) fun f _ hf => .pure (List.forall_mem_singleton.mpr hf)
  | element a index =>
    refine .bind (.intTerm ht htrace index) fun i _ hi => ?_
    refine .bind (.elementAt hu htrace hi a) fun new _ hnew => ?_
    refine .bind (.intTerm ht htrace value) fun old _ hold => ?_
    refine .bind (.equal hnew hold) fun written _ hwritten => ?_
    -- the other elements are at the positions that are bound
    have hother := hi.cons TraceMode.position_fresh
    refine .bind (.distinct (Term.wellSorted_bound _ rfl _) hother) fun other _ hother => ?_
    refine .bind (yields_element hu a) fun after _ hafter => ?_
    refine .bind (yields_element ht a) fun before _ hbefore => ?_
    refine .bind (.equal hafter hbefore) fun kept _ hkept => .pure ?_
    have hothers := wellSorted_forAllPositions hsorts (f := .implication other kept) ⟨hother, hkept⟩
    exact List.forall_mem_cons.mpr ⟨hwritten, List.forall_mem_singleton.mpr hothers⟩

end

variable (htl : tl.Sorted v)

include htl

/-- The meaning of an assignment is well-sorted inside the loops around it. -/
theorem yields_assignment {target : Target Variable} {value : IntExpr Variable}
    (hk : tl.Knows vars loops stop (.assign site target value :: rest))
    (hstop : stop.WellSorted v (mode.scope loops)) :
    Yields v (assignment ⟨mode, tl⟩ site target value)
      (Formula.WellSorted v (mode.scope loops)) := by
  have hstart := wellSorted_blockStartTerm htl hk hstop
  have hend := wellSorted_blockStartTerm htl hk.of_rest hstop
  rw [assignment_eq hk]
  refine .bind (yields_update hsorts hstart hend target value) fun updates _ hupdates => ?_
  refine .bind (yields_sameValues hsorts hend hstart _) fun frame _ hframe => .pure ?_
  refine Formula.WellSorted.withLabel (Formula.wellSorted_conjunction ?_) _
  exact List.forall_mem_append.mpr ⟨hupdates, hframe⟩

/-- The joints of a branch are well-sorted inside the loops around it. -/
theorem yields_branching {c : BoolExpr Variable} {thens elses : List Statement}
    (hk : tl.Knows vars loops stop (.branch site c thens elses :: rest))
    (hstop : stop.WellSorted v (mode.scope loops)) :
    Yields v (branching ⟨mode, tl⟩ site c thens elses)
      (fun fs => ∀ f ∈ fs, f.WellSorted v (mode.scope loops)) := by
  have hstart := wellSorted_blockStartTerm htl hk hstop
  have hend := wellSorted_blockStartTerm htl hk.of_rest hstop
  obtain ⟨hleft, hright⟩ := wellSorted_branchEnds mode htl hk
  have hleftStart := wellSorted_blockStartTerm htl hk.of_thens hleft
  have hrightStart := wellSorted_blockStartTerm htl hk.of_elses hright
  rw [branching_eq hk]
  refine .bind (yields_sameValues hsorts hleftStart hstart _) fun intoLeft _ hintoLeft => ?_
  refine .bind (yields_sameValues hsorts hrightStart hstart _) fun intoRight _ hintoRight => ?_
  refine .bind (.boolFormula hstart TraceMode.wellSorted_traceArgs c) fun chosen _ hchosen => ?_
  refine .bind (yields_sameValues hsorts hend hleft _) fun fromLeft _ hfromLeft => ?_
  refine .bind (yields_sameValues hsorts hend hright _) fun fromRight _ hfromRight => .pure ?_
  have hinto := Formula.wellSorted_conjunction
    (List.forall_mem_append.mpr ⟨hintoLeft, hintoRight⟩)
  have hfrom : (Formula.conjunction (fromLeft.map (.implication chosen) ++
      fromRight.map (.implication (.negation chosen)))).WellSorted v (mode.scope loops) :=
    Formula.wellSorted_conjunction (List.forall_mem_append.mpr
      ⟨List.forall_mem_map.mpr fun f hf => ⟨hchosen, hfromLeft f hf⟩,
        List.forall_mem_map.mpr fun f hf => ⟨hchosen, hfromRight f hf⟩⟩)
  exact List.forall_mem_cons.mpr
    ⟨hinto.withLabel _, List.forall_mem_singleton.mpr (hfrom.withLabel _)⟩

/-- The meaning of a loop is well-sorted inside the loops around it, if that of its body is inside
the loop as well. -/
theorem yields_loop {c : BoolExpr Variable} {enclosing : List String} {body : List Statement}
    (hk : tl.Knows vars loops stop (.loop site enclosing c body :: rest))
    (hstop : stop.WellSorted v (mode.scope loops))
    (hbody : ∀ {next : Term}, tl.Knows vars (loops ++ [site.location]) next body →
      next.WellSorted v (mode.scope (loops ++ [site.location])) →
      Yields v (block ⟨mode, tl⟩ body)
        (fun fs => ∀ f ∈ fs, f.WellSorted v (mode.scope (loops ++ [site.location])))) :
    Yields v (statement ⟨mode, tl⟩ (.loop site enclosing c body))
      (Formula.WellSorted v (mode.scope loops)) := by
  obtain ⟨rfl, _, hne, _⟩ := hk.formed.1
  have hend := wellSorted_blockStartTerm htl hk.of_rest hstop
  -- what is closed around the loop is closed in its body, where the iteration is bound
  have henter {t : Term} (ht : t.WellSorted v (mode.scope enclosing)) :=
    TraceMode.wellSorted_enter hk.location_not_mem ht
  have hnow : (Term.iteration site.location).WellSorted v
      (mode.scope (enclosing ++ [site.location])) :=
    TraceMode.scope_concat mode _ _ ▸ Term.wellSorted_bound _ rfl _
  have hnext : (Term.loopHead site.location enclosing enclosing
      (.succ (.iteration site.location))).WellSorted v
        (mode.scope (enclosing ++ [site.location])) :=
    ⟨sorted_of_knows htl hk.of_body hne,
      TraceMode.closed_loopHead _ (List.subset_append_left _ _) ⟨hnow.closed, trivial⟩⟩
  have hbodyStart := wellSorted_blockStartTerm htl hk.of_body hnext
  have hits : ∀ t ∈ enclosing.map Term.iteration, t.WellSorted v (mode.scope enclosing) :=
    TraceMode.wellSorted_iterations (List.Subset.refl _)
  rw [loop_eq hk]
  refine .bind (.apply (List.forall_mem_append.mpr ⟨hits, TraceMode.wellSorted_traceArgs⟩))
    fun last _ hlast => ?_
  refine .bind (.declare _) fun head _ hhead => ?_
  obtain ⟨rfl, hhead⟩ := hhead
  refine .bind (.fits hhead (List.forall_mem_append.mpr
    ⟨fun t ht => henter (hits t ht), List.forall_mem_singleton.mpr hnow⟩))
    fun headNow _ hheadNow => ?_
  refine .bind (.fits hhead (List.forall_mem_append.mpr
    ⟨hits, List.forall_mem_singleton.mpr hlast⟩)) fun headLast _ hheadLast => ?_
  refine .bind (yields_sameValues hsorts hbodyStart hheadNow _) fun entry _ hentry => ?_
  refine .bind (hbody hk.of_body hnext) fun inside _ hinside => ?_
  refine .bind (.holds (List.forall_mem_cons.mpr
    ⟨hnow, List.forall_mem_singleton.mpr (henter hlast)⟩)) fun early _ hearly => ?_
  refine .bind (.boolFormula hheadNow TraceMode.wellSorted_traceArgs c) fun runs _ hruns => ?_
  refine .bind (.boolFormula hheadLast TraceMode.wellSorted_traceArgs c) fun ends _ hends => ?_
  refine .bind (yields_sameValues hsorts hend hheadLast _) fun exit _ hexit => .pure ?_
  have hall {f : Formula} (hf : f.WellSorted v (mode.scope (enclosing ++ [site.location]))) :=
    wellSorted_forAllIterations hsorts hf
  refine Formula.WellSorted.withLabel (Formula.wellSorted_conjunction ?_) _
  simp only [List.forall_mem_cons]
  exact ⟨(hall (Formula.wellSorted_conjunction hentry)).withLabel _,
    (hall (Formula.wellSorted_conjunction hinside)).withLabel _,
    (hall (f := .implication early runs) ⟨hearly, hruns⟩).withLabel _,
    Formula.WellSorted.withLabel (f := .negation ends) hends _,
    (Formula.wellSorted_conjunction hexit).withLabel _, by simp⟩

/-- The meanings of the statements of a block are well-sorted inside the loops around it. -/
theorem yields_block (hk : tl.Knows vars loops stop b)
    (hstop : stop.WellSorted v (mode.scope loops)) :
    Yields v (block ⟨mode, tl⟩ b)
      (fun fs => ∀ f ∈ fs, f.WellSorted v (mode.scope loops)) := by
  induction b using blockInduction generalizing loops stop with
  | nil => exact .pure (List.forall_mem_nil _)
  | assign site target value rest ih =>
    exact yields_block_cons (yields_assignment hsorts htl hk hstop) (ih hk.of_rest hstop)
  | skip site rest ih =>
    have hstart := wellSorted_blockStartTerm htl hk hstop
    have hend := wellSorted_blockStartTerm htl hk.of_rest hstop
    have hidle : Yields v (idle ⟨mode, tl⟩ site) (Formula.WellSorted v (mode.scope loops)) := by
      rw [idle_eq hk]
      exact .bind (.equal hstart hend) fun f _ hf => .pure (hf.withLabel _)
    exact yields_block_cons hidle (ih hk.of_rest hstop)
  | branch site c thens elses rest ihthens ihelses ih =>
    obtain ⟨hleft, hright⟩ := wellSorted_branchEnds mode htl hk
    have hbranch : Yields v (statement ⟨mode, tl⟩ (.branch site c thens elses))
        (Formula.WellSorted v (mode.scope loops)) := by
      refine .bind (yields_branching hsorts htl hk hstop) fun joints _ hjoints => ?_
      refine .bind (ihthens hk.of_thens hleft) fun fs _ hfs => ?_
      refine .bind (ihelses hk.of_elses hright) fun gs _ hgs => .pure ?_
      refine Formula.WellSorted.withLabel (Formula.wellSorted_conjunction ?_) _
      simp only [List.forall_mem_append]
      exact ⟨hjoints, hfs, hgs⟩
    exact yields_block_cons hbranch (ih hk.of_rest hstop)
  | loop site enclosing c body rest ihbody ih =>
    exact yields_block_cons (yields_loop hsorts htl hk hstop ihbody) (ih hk.of_rest hstop)

/-! ## Functions -/

variable {f : Function}

/-- The meaning of a function is closed: the loops are inside and the traces are bound around it. -/
theorem yields_function (hf : f.Formed) (hlocations : f.locations.Nodup)
    (hcovers : tl.Covers f) : Yields v (function ⟨mode, tl⟩ f) (Formula.WellSorted v []) := by
  rw [function_eq]
  refine .bind (yields_block hsorts htl (hcovers.knows hf hlocations)
    (wellSorted_endTerm htl hcovers)) fun fs _ hfs => .pure ?_
  refine Formula.WellSorted.withLabel (Formula.wellSorted_conjunction ?_) _
  exact List.forall_mem_map.mpr fun φ hφ => wellSorted_overTraces hsorts (hfs φ hφ)

/-- A postcondition is closed, as the traces are bound around it. -/
theorem yields_postcondition (hcovers : tl.Covers f) :
    Yields v (postcondition ⟨mode, tl⟩ f) (fun post => ∀ φ ∈ post, φ.WellSorted v []) := by
  have hstop : f.endTerm.WellSorted v (mode.scope []) := wellSorted_endTerm htl hcovers
  simp only [postcondition, hcovers.functionEnd, forAllTraces_eq, pure_bind]
  cases f.postcondition with
  | none => exact .pure (by simp)
  | some post =>
    refine .bind (.boolFormula hstop TraceMode.wellSorted_traceArgs post) fun φ _ hφ => .pure ?_
    rintro _ ⟨⟩
    exact (wellSorted_overTraces hsorts hφ).withLabel _

end

end Semantics

/-! ## Programs -/

/-- The formulas of a problem are of a kind that conjunctions keep, if the meanings and
postconditions of the functions are. Without any postcondition the conjecture is `false`. -/
theorem Semantics.yields_posed_of {σ : Semantics} {p : Program} {v : Vocabulary}
    {P : Formula → Prop} (hfunctions : ∀ f ∈ p.functions, Yields v (σ.function f) P)
    (hposts : ∀ f ∈ p.functions, Yields v (σ.postcondition f) (fun post => ∀ φ ∈ post, P φ))
    (hfalse : Yields v (Interpreted.truth false) P)
    (hconjunction : ∀ {fs : List Formula}, (∀ φ ∈ fs, P φ) → P (.conjunction fs)) :
    Yields v (σ.posed p) (fun problem => ∀ φ ∈ problem.formulas, P φ) := by
  have hprogram : Yields v (σ.program p) (fun fs => ∀ φ ∈ fs, P φ) :=
    .after fun _ _ => .each hfunctions
  have hconjecture : Yields v (σ.conjecture p) P := by
    refine .bind (.each hposts) fun posts _ hposts => ?_
    have hparts : ∀ φ ∈ posts.filterMap id, P φ := by
      intro φ hφ
      obtain ⟨post, hpost, heq⟩ := List.mem_filterMap.mp hφ
      exact hposts post hpost φ heq
    split
    · exact hfalse
    · exact .pure (hconjunction hparts)
  refine .after fun _ _ => .bind hprogram fun axioms _ haxioms => ?_
  refine .bind hconjecture fun goal _ hgoal => .pure ?_
  simpa [Problem.formulas, or_imp, forall_and] using ⟨haxioms, hgoal⟩

namespace Program.Formed

variable {p : Program} {mode : TraceMode} {v : Vocabulary} {tl : Timeline} (hp : p.Formed)

include hp

/-- The formulas of the problem of a formed program are well-sorted, once everything that was asked
for is there. -/
theorem yields_posed (hsorts : p.functions ≠ [] → ∀ s ∈ mode.sorts, s ∈ v.sorts)
    (htl : tl.Sorted v) (hcovers : ∀ f ∈ p.functions, tl.Covers f) :
    Yields v (Semantics.posed ⟨mode, tl⟩ p)
      (fun problem => ∀ φ ∈ problem.formulas, φ.WellSorted v []) := by
  refine Semantics.yields_posed_of (fun f hf => ?_) (fun f hf => ?_)
    (.holds (List.forall_mem_nil _)) Formula.wellSorted_conjunction
  · exact Semantics.yields_function (hsorts (List.ne_nil_of_mem hf)) htl (hp.functions f hf)
      (hp.function_locations_nodup hf) (hcovers f hf)
  · exact Semantics.yields_postcondition (hsorts (List.ne_nil_of_mem hf)) htl (hcovers f hf)

end Program.Formed

end TraceLogic
