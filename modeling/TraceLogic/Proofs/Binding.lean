import TraceLogic.Proofs.SolverNames
import TraceLogic.Proofs.WellSorted

/-!
# The variables that a problem binds

The quantifiers of a problem bind positions, traces and the iterations of loops, each under a name
that is not bound around. What can be told of the variables of `Program.binders`, such as how their
names are read, therefore holds of every variable that is bound in a problem.
-/

namespace TraceLogic

open Construction Statement

namespace Formula

/-! ## Quantifiers that bind new names -/

mutual

/-- Whether the quantifiers of a formula bind only variables of a list, and none under a name that
is bound around. -/
def BindsApart (allowed scope : List Symbol) : Formula → Prop
  | .equal _ _ => True
  | .distinct _ _ => True
  | .predicate _ _ => True
  | .negation f => BindsApart allowed scope f
  | .implication f g => BindsApart allowed scope f ∧ BindsApart allowed scope g
  | .junction _ fs => AllBindApart allowed scope fs
  | .quantified _ binders f =>
    (∀ b ∈ binders, b ∈ allowed ∧ ∀ x ∈ scope, x.name ≠ b.name) ∧
      BindsApart allowed (binders ++ scope) f
  | .labelled _ f => BindsApart allowed scope f

/-- Whether the quantifiers of all formulas do so. -/
def AllBindApart (allowed scope : List Symbol) : List Formula → Prop
  | [] => True
  | f :: fs => BindsApart allowed scope f ∧ AllBindApart allowed scope fs

end

variable {allowed scope : List Symbol}

/-- A conjunction binds what its parts bind. -/
theorem bindsApart_conjunction {fs : List Formula} (h : ∀ f ∈ fs, f.BindsApart allowed scope) :
    (conjunction fs).BindsApart allowed scope := by
  change AllBindApart allowed scope fs
  induction fs with
  | nil => trivial
  | cons f fs ih =>
    obtain ⟨hf, hfs⟩ := List.forall_mem_cons.mp h
    exact ⟨hf, ih hfs⟩

/-- Labels bind nothing, so taking them off changes nothing. -/
theorem bindsApart_unlabelled : (f : Formula) → f.BindsApart allowed scope →
    f.unlabelled.BindsApart allowed scope
  | .labelled _ body, h => bindsApart_unlabelled body h
  | .equal _ _, h => h
  | .distinct _ _, h => h
  | .predicate _ _, h => h
  | .negation _, h => h
  | .implication _ _, h => h
  | .junction _ _, h => h
  | .quantified _ _ _, h => h

/-- A label replaces the one that was there, and neither of them binds anything. -/
theorem BindsApart.withLabel {f : Formula} (h : f.BindsApart allowed scope) (text : String) :
    (f.withLabel text).BindsApart allowed scope :=
  bindsApart_unlabelled f h

/-- Whether a formula has no quantifier, so that it may stand anywhere. -/
def BindsNothing (f : Formula) : Prop := ∀ allowed scope, f.BindsApart allowed scope

end Formula

/-! ## What statements bind -/

namespace Semantics

variable {v : Vocabulary} {σ : Semantics} {allowed scope : List Symbol} {loops : List String}

/-- A predicate binds nothing. -/
theorem bindsNothing_holds (f : Symbol) (ts : List Term) :
    Yields v (Construction.holds f ts) Formula.BindsNothing := by
  intro _ φ hφ _ _
  obtain rfl := Formula.predicate?_eq_ok hφ
  trivial

/-- An equation binds nothing. -/
theorem bindsNothing_equal (l r : Term) :
    Yields v (.ofExcept (Formula.equal? l r)) Formula.BindsNothing := by
  intro _ φ hφ _ _
  obtain rfl := Formula.equal?_eq_ok hφ
  trivial

/-- A disequation binds nothing. -/
theorem bindsNothing_distinct (l r : Term) :
    Yields v (.ofExcept (Formula.distinct? l r)) Formula.BindsNothing := by
  intro _ φ hφ _ _
  obtain rfl := Formula.distinct?_eq_ok hφ
  trivial

/-- A comparison binds nothing. -/
theorem bindsNothing_compare (op : Comparison) (l r : Term) :
    Yields v (Interpreted.compare op l r) Formula.BindsNothing := by
  cases op with
  | less => exact bindsNothing_holds _ _
  | lessEq => exact bindsNothing_holds _ _
  | greater => exact bindsNothing_holds _ _
  | greaterEq => exact bindsNothing_holds _ _
  | equal => exact bindsNothing_equal l r
  | notEqual => exact bindsNothing_distinct l r

mutual

/-- An expression binds nothing. -/
theorem bindsNothing_boolFormula (mode : TraceMode) (t : Term) : (b : BoolExpr Variable) →
    Yields v (mode.boolFormula t b) Formula.BindsNothing
  | .constant _ => bindsNothing_holds _ _
  | .compare op _ _ => .after fun _ _ => .after fun _ _ => bindsNothing_compare op _ _
  | .junction _ parts => .bind (bindsNothing_boolFormulas mode t parts) fun _ _ hfs =>
      .pure fun allowed scope => Formula.bindsApart_conjunction fun f hf => hfs f hf allowed scope
  | .not operand => .bind (bindsNothing_boolFormula mode t operand) fun _ _ hf => .pure hf

/-- Conditions bind nothing. -/
theorem bindsNothing_boolFormulas (mode : TraceMode) (t : Term) :
    (bs : List (BoolExpr Variable)) →
    Yields v (mode.boolFormulas t bs) (fun fs => ∀ f ∈ fs, f.BindsNothing)
  | [] => .pure (List.forall_mem_nil _)
  | b :: rest => .bind (bindsNothing_boolFormula mode t b) fun _ _ hf =>
      .bind (bindsNothing_boolFormulas mode t rest) fun _ _ hfs =>
        .pure (List.forall_mem_cons.mpr ⟨hf, hfs⟩)

end

/-- A loop binds its iteration, unless it stands inside itself. -/
theorem bindsApart_forAllIterations {mode : TraceMode} {loop : String} (hloop : loop ∉ loops)
    (hallowed : .iteration loop ∈ allowed) {f : Formula}
    (hf : f.BindsApart allowed (mode.scope (loops ++ [loop]))) :
    (Formula.quantified .all [.iteration loop] f).BindsApart allowed (mode.scope loops) := by
  rw [TraceMode.scope_concat] at hf
  exact ⟨List.forall_mem_singleton.mpr ⟨hallowed, TraceMode.iteration_fresh hloop⟩, hf⟩

/-- The traces are bound around everything. -/
theorem bindsApart_overTraces (hallowed : .trace ∈ allowed) {f : Formula}
    (hf : f.BindsApart allowed (σ.mode.scope [])) : (σ.overTraces f).BindsApart allowed [] := by
  obtain ⟨mode, tl⟩ := σ
  cases mode with
  | one => exact hf
  | two => exact ⟨List.forall_mem_singleton.mpr ⟨hallowed, List.forall_mem_nil _⟩, hf⟩

section

variable (hposition : .position ∈ allowed) (loops)

include hposition

/-- A position may be bound inside any loops, around what binds nothing. -/
theorem bindsApart_forAllPositions (mode : TraceMode) {f : Formula} (hf : f.BindsNothing) :
    (Formula.quantified .all [.position] f).BindsApart allowed (mode.scope loops) :=
  ⟨List.forall_mem_singleton.mpr ⟨hposition, TraceMode.position_fresh⟩, hf _ _⟩

/-- That values are kept binds positions at most. -/
theorem apart_sameValues (lhs rhs : Term) (xs : List Variable) :
    Yields v (σ.sameValues lhs rhs xs)
      (fun fs => ∀ f ∈ fs, f.BindsApart allowed (σ.mode.scope loops)) := by
  refine .each fun x _ => ?_
  simp only [sameValue, forAllPositions_eq]
  split
  · refine .after fun l _ => .after fun r _ => ?_
    refine .bind (bindsNothing_equal l r) fun f _ hf => .pure ?_
    exact bindsApart_forAllPositions loops hposition σ.mode hf
  · refine .after fun l _ => .after fun r _ hgrants φ hφ => ?_
    exact bindsNothing_equal l r hgrants φ hφ _ _

/-- An update binds a position at most. -/
theorem apart_update (l1 l2 : Term) (value : IntExpr Variable) (target : Target Variable) :
    Yields v (σ.update l1 l2 value target)
      (fun fs => ∀ f ∈ fs, f.BindsApart allowed (σ.mode.scope loops)) := by
  cases target with
  | scalar x =>
    refine .after fun new _ => .after fun old _ => ?_
    refine .bind (bindsNothing_equal new old) fun f _ hf => .pure ?_
    exact List.forall_mem_singleton.mpr (hf _ _)
  | element a index =>
    refine .after fun i _ => .after fun new _ => .after fun old _ => ?_
    refine .bind (bindsNothing_equal new old) fun written _ hwritten => ?_
    refine .bind (bindsNothing_distinct _ i) fun other _ hother => ?_
    refine .after fun after _ => .after fun before _ => ?_
    refine .bind (bindsNothing_equal after before) fun kept _ hkept => .pure ?_
    have hothers : (Formula.implication other kept).BindsNothing :=
      fun allowed scope => ⟨hother allowed scope, hkept allowed scope⟩
    exact List.forall_mem_cons.mpr ⟨hwritten _ _,
      List.forall_mem_singleton.mpr (bindsApart_forAllPositions loops hposition σ.mode hothers)⟩

/-- An assignment binds positions at most. -/
theorem apart_assignment (site : Site) (target : Target Variable) (value : IntExpr Variable) :
    Yields v (σ.assignment site target value)
      (Formula.BindsApart allowed (σ.mode.scope loops)) := by
  refine .after fun l1 _ => .after fun l2 _ => .after fun _ _ => .after fun _ _ => ?_
  refine .bind (apart_update loops hposition l1 l2 value target) fun updates _ hupdates => ?_
  refine .bind (apart_sameValues loops hposition l2 l1 _) fun frame _ hframe => .pure ?_
  refine Formula.BindsApart.withLabel (Formula.bindsApart_conjunction ?_) _
  exact List.forall_mem_append.mpr ⟨hupdates, hframe⟩

/-- The joints of a branch bind positions at most. -/
theorem apart_branching (site : Site) (c : BoolExpr Variable) (thens elses : List Statement) :
    Yields v (σ.branching site c thens elses)
      (fun fs => ∀ f ∈ fs, f.BindsApart allowed (σ.mode.scope loops)) := by
  have hsame (l r : Term) (xs : List Variable) := apart_sameValues (v := v) (σ := σ)
    loops hposition l r xs
  -- the ends of the statement and of its blocks
  refine .after fun start _ => .after fun stop _ => .after fun _ _ => .after fun _ _ => ?_
  refine .after fun _ _ => .after fun _ _ => .after fun leftStart _ => .after fun rightStart _ => ?_
  refine .after fun leftStop _ => .after fun rightStop _ => .after fun _ _ => ?_
  refine .bind (hsame leftStart start _) fun intoLeft _ hintoLeft => ?_
  refine .bind (hsame rightStart start _) fun intoRight _ hintoRight => ?_
  refine .bind (bindsNothing_boolFormula σ.mode start c) fun chosen _ hchosen => ?_
  refine .after fun _ _ => .after fun _ _ => ?_
  refine .bind (hsame stop leftStop _) fun fromLeft _ hleft => ?_
  refine .after fun _ _ => .bind (hsame stop rightStop _) fun fromRight _ hright => .pure ?_
  have hinto := Formula.bindsApart_conjunction
    (List.forall_mem_append.mpr ⟨hintoLeft, hintoRight⟩)
  have hfrom : (Formula.conjunction (fromLeft.map (.implication chosen) ++
      fromRight.map (.implication (.negation chosen)))).BindsApart allowed (σ.mode.scope loops) :=
    Formula.bindsApart_conjunction (List.forall_mem_append.mpr
      ⟨List.forall_mem_map.mpr fun f hf => ⟨hchosen _ _, hleft f hf⟩,
        List.forall_mem_map.mpr fun f hf => ⟨hchosen _ _, hright f hf⟩⟩)
  exact List.forall_mem_cons.mpr
    ⟨hinto.withLabel _, List.forall_mem_singleton.mpr (hfrom.withLabel _)⟩

variable {loops}

/-- A loop binds its iteration and what its body binds under it, if it is not inside itself. -/
theorem apart_loop {site : Site} (hloop : site.location ∉ loops)
    (hallowed : .iteration site.location ∈ allowed) (enclosing : List String)
    (c : BoolExpr Variable) {body : List Statement}
    (hbody : Yields v (σ.block body)
      (fun fs => ∀ f ∈ fs, f.BindsApart allowed (σ.mode.scope (loops ++ [site.location])))) :
    Yields v (σ.statement (.loop site enclosing c body))
      (Formula.BindsApart allowed (σ.mode.scope loops)) := by
  have hall {f : Formula}
      (hf : f.BindsApart allowed (σ.mode.scope (loops ++ [site.location]))) (text : String) :=
    (bindsApart_forAllIterations hloop hallowed hf).withLabel text
  -- of the two conditions, one is about all iterations and one about the last
  have hbounds (points : LoopPoints) : Yields v (σ.loopCondition site c points)
      (fun fs => ∀ f ∈ fs, f.BindsApart allowed (σ.mode.scope loops)) := by
    simp only [loopCondition, forAllIterations_eq, pure_bind]
    refine .bind (bindsNothing_holds _ _) fun early _ hearly => ?_
    refine .bind (bindsNothing_boolFormula σ.mode points.headNow c) fun runs _ hruns => ?_
    refine .bind (bindsNothing_boolFormula σ.mode points.headLast c) fun ends _ hends => .pure ?_
    have hends : (Formula.negation ends).BindsApart allowed (σ.mode.scope loops) := hends _ _
    have hruns : (Formula.implication early runs).BindsApart allowed
        (σ.mode.scope (loops ++ [site.location])) := ⟨hearly _ _, hruns _ _⟩
    exact List.forall_mem_cons.mpr ⟨hall hruns _, List.forall_mem_singleton.mpr (hends.withLabel _)⟩
  simp only [statement, forAllIterations_eq, pure_bind]
  refine .after fun points _ => .after fun _ _ => ?_
  refine .bind (apart_sameValues (loops ++ [site.location]) hposition points.bodyStart
    points.headNow _) fun entry _ hentry => ?_
  refine .bind hbody fun inside _ hinside => .bind (hbounds points) fun bounds _ hbounds => ?_
  refine .bind (apart_sameValues loops hposition points.stop points.headLast _)
    fun exit _ hexit => .pure ?_
  refine Formula.BindsApart.withLabel (Formula.bindsApart_conjunction ?_) _
  simp only [List.forall_mem_append, List.forall_mem_cons]
  exact ⟨⟨⟨hall (Formula.bindsApart_conjunction hentry) _,
    hall (Formula.bindsApart_conjunction hinside) _, by simp⟩, hbounds⟩,
    (Formula.bindsApart_conjunction hexit).withLabel _, by simp⟩

/-- The statements of a block bind new names, if the loops around it and in it are different. -/
theorem apart_block {b : List Statement} (hloops : (loops ++ blockLoops b).Nodup)
    (hallowed : ∀ loop ∈ blockLoops b, .iteration loop ∈ allowed) :
    Yields v (σ.block b) (fun fs => ∀ f ∈ fs, f.BindsApart allowed (σ.mode.scope loops)) := by
  induction b using blockInduction generalizing loops with
  | nil => exact .pure (List.forall_mem_nil _)
  | assign site target value rest ih =>
    exact yields_block_cons (apart_assignment loops hposition site target value)
      (ih hloops hallowed)
  | skip site rest ih =>
    have hidle : Yields v (σ.idle site) (Formula.BindsApart allowed (σ.mode.scope loops)) := by
      refine .after fun l1 _ => .after fun l2 _ => ?_
      exact .bind (bindsNothing_equal l1 l2) fun f _ hf =>
        .pure (Formula.BindsApart.withLabel (hf _ _) _)
    exact yields_block_cons hidle (ih hloops hallowed)
  | branch site c thens elses rest ihthens ihelses ih =>
    simp only [blockLoops_branch, List.forall_mem_append] at hallowed
    rw [blockLoops_branch] at hloops
    -- each part of the statement has some of the loops, so that these are different as well
    have hsublist {part : List String}
        (hpart : part.Sublist (blockLoops thens ++ (blockLoops elses ++ blockLoops rest))) :
        (loops ++ part).Nodup := hloops.sublist (hpart.append_left loops)
    have hthens := ihthens (hsublist (List.sublist_append_left _ _)) hallowed.1
    have helses := ihelses (hsublist ((List.sublist_append_left _ _).trans
      (List.sublist_append_right _ _))) hallowed.2.1
    have hrest := ih (hsublist ((List.sublist_append_right _ _).trans
      (List.sublist_append_right _ _))) hallowed.2.2
    refine yields_block_cons ?_ hrest
    refine .bind (apart_branching loops hposition site c thens elses) fun joints _ hjoints => ?_
    refine .bind hthens fun fs _ hfs => .bind helses fun gs _ hgs => .pure ?_
    refine Formula.BindsApart.withLabel (Formula.bindsApart_conjunction ?_) _
    simp only [List.forall_mem_append]
    exact ⟨hjoints, hfs, hgs⟩
  | loop site enclosing c body rest ihbody ih =>
    simp only [blockLoops_loop, List.forall_mem_cons, List.forall_mem_append] at hallowed
    obtain ⟨hiteration, hallowedBody, hallowedRest⟩ := hallowed
    rw [blockLoops_loop] at hloops
    have hlocation : site.location ∉ loops := fun hmem =>
      (List.nodup_append'.mp hloops).2.2 hmem List.mem_cons_self
    -- inside the body the loop is one of those around
    have hinner : (loops ++ [site.location] ++ blockLoops body).Nodup := by
      rw [List.append_assoc]
      exact hloops.sublist (((List.sublist_append_left _ _).cons_cons _).append_left loops)
    have hrest : (loops ++ blockLoops rest).Nodup :=
      hloops.sublist (((List.sublist_append_right _ _).cons _).append_left loops)
    exact yields_block_cons
      (apart_loop hposition hlocation hiteration enclosing c (ihbody hinner hallowedBody))
      (ih hrest hallowedRest)

end

/-- A function binds the traces, and under them the iterations of its loops, which are different. -/
theorem apart_function {f : Function} (hloops : (blockLoops f.statements).Nodup)
    (hposition : .position ∈ allowed) (htrace : .trace ∈ allowed)
    (hallowed : ∀ loop ∈ blockLoops f.statements, .iteration loop ∈ allowed) :
    Yields v (σ.function f) (Formula.BindsApart allowed []) := by
  have hblock : Yields v (σ.block f.statements)
      (fun fs => ∀ φ ∈ fs, φ.BindsApart allowed (σ.mode.scope [])) :=
    apart_block hposition hloops hallowed
  rw [function_eq]
  refine .bind hblock fun fs _ hfs => .pure ?_
  refine Formula.BindsApart.withLabel (Formula.bindsApart_conjunction ?_) _
  exact List.forall_mem_map.mpr fun φ hφ => bindsApart_overTraces htrace (hfs φ hφ)

/-- A postcondition binds the traces at most. -/
theorem apart_postcondition (htrace : .trace ∈ allowed) (f : Function) :
    Yields v (σ.postcondition f) (fun post => ∀ φ ∈ post, φ.BindsApart allowed []) := by
  simp only [postcondition, forAllTraces_eq, pure_bind]
  split
  · refine .bind (bindsNothing_boolFormula σ.mode _ _) fun φ _ hφ => .pure ?_
    rintro _ ⟨⟩
    exact (bindsApart_overTraces htrace (hφ _ _)).withLabel _
  · exact .pure (by simp)

end Semantics

/-! ## Programs -/

namespace Program.Formed

variable {p : Program} (hp : p.Formed)

include hp

/-- The formulas of a problem bind positions, traces and iterations, each under a new name. -/
theorem apart_posed {v : Vocabulary} (σ : Semantics) :
    Yields v (σ.posed p)
      (fun problem => ∀ φ ∈ problem.formulas, φ.BindsApart p.binders []) := by
  have hposition : Symbol.position ∈ p.binders := List.mem_cons_self
  have htrace : Symbol.trace ∈ p.binders := List.mem_cons_of_mem _ List.mem_cons_self
  have hloops : p.loops.Nodup := .of_map _ hp.apart_lastNames.nodup
  refine Semantics.yields_posed_of (fun f hf => ?_)
    (fun f _ => Semantics.apart_postcondition htrace f)
    (fun hgrants φ hφ => Semantics.bindsNothing_holds _ _ hgrants φ hφ _ _)
    Formula.bindsApart_conjunction
  refine Semantics.apart_function ((List.nodup_flatMap.mp hloops).1 f hf) hposition htrace
    fun loop hloop => ?_
  have hmem : loop ∈ p.loops := List.mem_flatMap.mpr ⟨f, hf, hloop⟩
  exact List.mem_append_right _ (List.mem_map_of_mem hmem)

end Program.Formed

end TraceLogic
