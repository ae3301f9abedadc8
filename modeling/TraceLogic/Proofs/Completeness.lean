import TraceLogic.Proofs.Lookup
import TraceLogic.Proofs.Vocabulary

/-!
# Nothing that is missing is made up

A timeline is complete for a program if it records everything that the meanings of the program's
statements look up, and if no block that they look into is empty. Meanings can be built only from a
complete timeline, and from a complete timeline they can fail only because terms or symbols do not
fit: `Semantics.run_needs_complete`. `Construction.Needs` says both of one construction, and it goes
along the statements of a program.
-/

namespace TraceLogic

open Construction Statement

/-- Whether a fault is about terms, formulas and symbols, and not about something that is
missing. -/
def Fault.isLogical : Fault → Bool
  | .missingTimePoint _ _ _ => false
  | .missingActiveSet _ => false
  | .emptyBlock _ _ => false
  | _ => true

/-! ## Complete timelines -/

namespace Timeline

variable (tl : Timeline)

/-- Where a statement starts, if that is recorded. -/
def start? (s : Statement) : Option Term := tl.starts.get? s.site.id

/-- Where a statement ends, if that is recorded. -/
def stop? (s : Statement) : Option Term := tl.stops.get? s.site.id

/-- Whether a point of time is recorded, together with the variables that matter there. -/
def Counts (t : Option Term) : Prop := ∃ u, t = some u ∧ (tl.active.get? u.head.name).isSome = true

/-- Whether everything is recorded that the meaning of a statement looks up, apart from what the
statements in its blocks look up. -/
def Serves (s : Statement) : Prop :=
  (tl.start? s).isSome = true ∧ (tl.stop? s).isSome = true ∧
    match s with
    | .assign _ _ _ => tl.Counts (tl.start? s) ∧ tl.Counts (tl.stop? s)
    | .skip _ => True
    | .branch _ _ thens elses =>
      (thens ≠ [] ∧ elses ≠ []) ∧ tl.Counts (tl.start? s) ∧ tl.Counts (tl.stop? s) ∧
        tl.Counts (thens.getLast?.bind tl.stop?) ∧ tl.Counts (elses.getLast?.bind tl.stop?)
    | .loop _ _ _ body => body ≠ [] ∧ tl.Counts (tl.start? s)

/-- Whether a timeline serves all statements of a program, nested ones included. -/
def CompleteFor (p : Program) : Prop :=
  ∀ f ∈ p.functions, ∀ s ∈ f.statementsInOrder, tl.Serves s

variable {tl} in
/-- A point that counts is recorded. -/
theorem Counts.isSome {t : Option Term} (h : tl.Counts t) : t.isSome = true := by
  obtain ⟨u, rfl, _⟩ := h
  rfl

variable {tl} in
/-- The first statement of a block that is served has a start. -/
theorem isSome_start?_head {b : List Statement} (hb : b ≠ [])
    (h : ∀ s ∈ blockInOrder b, tl.Serves s) : (b.head?.bind tl.start?).isSome = true := by
  obtain ⟨s, rest, rfl⟩ := List.exists_cons_of_ne_nil hb
  have hmem : s ∈ blockInOrder (s :: rest) := by
    cases s <;> simp [blockInOrder, inOrder]
  exact (h s hmem).1

end Timeline

/-! ## What constructions need -/

namespace Construction

variable {α β : Type} {c : Construction α} {next : α → Construction β} {P Q : Prop}

/-- Two steps fail if the first one does, or the second one does after it. -/
theorem outcome_bind_eq_error {fault : Fault} :
    (c >>= next).outcome = .error fault ↔
      c.outcome = .error fault ∨ ∃ a, c.outcome = .ok a ∧ (next a).outcome = .error fault := by
  rw [outcome_bind]
  cases c.outcome <;> simp [Bind.bind, Except.bind]

/-- Whether a construction comes to a value only if a condition holds, and to nothing but a value or
a logical fault if it does. -/
structure Needs (c : Construction α) (P : Prop) : Prop where
  of_ok : ∀ a, c.outcome = .ok a → P
  isLogical : P → ∀ fault, c.outcome = .error fault → fault.isLogical = true

namespace Needs

/-- A value needs nothing. -/
theorem pure (a : α) : Needs (Pure.pure a : Construction α) True where
  of_ok _ _ := trivial
  isLogical := by
    rintro _ _ ⟨⟩

/-- What is needed may be said in other words. -/
theorem congr (h : Needs c P) (hPQ : P ↔ Q) : Needs c Q where
  of_ok a ha := hPQ.mp (h.of_ok a ha)
  isLogical hQ := h.isLogical (hPQ.mpr hQ)

/-- Two steps need what each of them needs. What the second one needs must not depend on the value
of the first one. -/
theorem bind (hc : Needs c P) (hnext : ∀ a, c.outcome = .ok a → Needs (next a) Q) :
    Needs (c >>= next) (P ∧ Q) where
  of_ok b hb := by
    obtain ⟨a, ha, hb⟩ := outcome_bind_eq_ok.mp hb
    exact ⟨hc.of_ok a ha, (hnext a ha).of_ok b hb⟩
  isLogical := by
    rintro ⟨hP, hQ⟩ fault hfault
    rcases outcome_bind_eq_error.mp hfault with hfault | ⟨a, ha, hfault⟩
    · exact hc.isLogical hP fault hfault
    · exact (hnext a ha).isLogical hQ fault hfault

/-- A first step that needs nothing. -/
theorem after (hc : Needs c True) (hnext : ∀ a, c.outcome = .ok a → Needs (next a) Q) :
    Needs (c >>= next) Q :=
  (hc.bind hnext).congr (iff_of_eq (true_and Q))

/-- A first step after which nothing more is needed. -/
theorem last (hc : Needs c P) (hnext : ∀ a, Needs (next a) True) : Needs (c >>= next) P :=
  (hc.bind fun a _ => hnext a).congr (iff_of_eq (and_true P))

/-- A step that is made for every element of a list needs what it needs for each of them. -/
theorem each {γ : Type} {make : γ → Construction α} {cs : List γ} {R : γ → Prop}
    (h : ∀ c ∈ cs, Needs (make c) (R c)) : Needs (Construction.each make cs) (∀ c ∈ cs, R c) := by
  induction cs with
  | nil => exact (pure []).congr (by simp)
  | cons c cs ih =>
    obtain ⟨hc, hcs⟩ := List.forall_mem_cons.mp h
    exact (hc.bind fun _ _ => (ih hcs).last fun _ => pure _).congr List.forall_mem_cons.symm

/-- What is looked up has to be there, and nothing else is needed. -/
theorem found (fault : Fault) (o : Option α) :
    Needs (Construction.found fault o) (o.isSome = true) where
  of_ok a ha := by rw [found_eq_ok.mp ha, Option.isSome_some]
  isLogical := by
    intro hsome other hother
    rw [(found_eq_error.mp hother).1] at hsome
    cases hsome

/-- A construction all of whose faults are logical needs nothing. -/
theorem of_faults (h : ∀ fault, c.outcome = .error fault → fault.isLogical = true) :
    Needs c True :=
  ⟨fun _ _ => trivial, fun _ => h⟩

/-- A run fails for logical reasons too if a symbol is asked for whose name is taken. -/
theorem run (h : Needs c P) (hP : P) {v : Vocabulary} {fault : Fault}
    (hrun : (c.run v).1 = .error fault) : fault.isLogical = true := by
  unfold Construction.run at hrun
  cases hserved : v.serveAll c.requests with
  | mk failure w =>
    rw [hserved] at hrun
    cases failure with
    | none => exact h.isLogical hP fault hrun
    | some other =>
      cases hrun
      obtain ⟨t, f, rfl, _⟩ := Vocabulary.serveAll_eq_some (congrArg Prod.fst hserved)
      rfl

end Needs

/-! ## Expressions -/

/-- An argument of another sort is a logical fault. -/
theorem isLogical_firstMisfit {name : String} {i : Nat} {sorts : List SortSymbol} {ts : List Term}
    {fault : Fault} (h : Term.firstMisfit name i sorts ts = some fault) :
    fault.isLogical = true := by
  induction ts generalizing i sorts with
  | nil => cases sorts <;> cases h
  | cons t ts ih =>
    cases sorts with
    | nil => cases h
    | cons s sorts =>
      rw [Term.firstMisfit] at h
      split at h
      · exact ih h
      · cases h
        rfl

/-- Arguments that do not fit a symbol, in number or in sort, are a logical fault. -/
theorem isLogical_misfit {f : Symbol} {ts : List Term} {fault : Fault}
    (h : Term.misfit f ts = some fault) : fault.isLogical = true := by
  unfold Term.misfit at h
  split at h
  · exact isLogical_firstMisfit h
  · cases h
    rfl

/-- Applying a symbol that is there needs nothing that could be missing. -/
theorem needs_ofApp (f : Symbol) (ts : List Term) : Needs (ofExcept (Term.app? f ts)) True := by
  refine .of_faults fun fault h => ?_
  change Term.app? f ts = .error fault at h
  unfold Term.app? at h
  split at h
  · cases h
  · rename_i heq
    cases h
    exact isLogical_misfit heq

/-- Asking for a symbol and applying it needs nothing that could be missing. -/
theorem needs_apply (f : Symbol) (ts : List Term) : Needs (apply f ts) True :=
  .of_faults ((needs_ofApp f ts).isLogical trivial)

/-- Asking for a predicate and applying it needs nothing that could be missing. -/
theorem needs_holds (p : Symbol) (ts : List Term) : Needs (holds p ts) True := by
  refine .of_faults fun fault h => ?_
  change Formula.predicate? p ts = .error fault at h
  unfold Formula.predicate? at h
  split at h
  · split at h
    · cases h
    · rename_i heq
      cases h
      exact isLogical_misfit heq
  · cases h
    rfl

/-- An equation needs nothing that could be missing. -/
theorem needs_equal (s t : Term) : Needs (ofExcept (Formula.equal? s t)) True := by
  refine .of_faults fun fault h => ?_
  change Formula.equal? s t = .error fault at h
  unfold Formula.equal? at h
  split at h <;> cases h
  rfl

/-- A disequation needs nothing that could be missing. -/
theorem needs_distinct (s t : Term) : Needs (ofExcept (Formula.distinct? s t)) True := by
  refine .of_faults fun fault h => ?_
  change Formula.distinct? s t = .error fault at h
  unfold Formula.distinct? at h
  split at h <;> cases h
  rfl

/-- Asking for a symbol needs nothing that could be missing. -/
theorem needs_declare (f : Symbol) : Needs (declare f) True := by
  refine .of_faults ?_
  rintro _ ⟨⟩

end Construction

namespace TraceMode

variable (mode : TraceMode) (t : Term)

/-- An integer expression needs nothing from the timeline but the point that is given. -/
theorem needs_intTerm : (e : IntExpr Variable) → Needs (mode.intTerm t e) True
  | .literal _ => needs_apply _ _
  | .variable _ => needs_apply _ _
  | .element _ index => (needs_intTerm index).after fun _ _ => needs_apply _ _
  | .arith _ lhs rhs =>
    (needs_intTerm lhs).after fun _ _ => (needs_intTerm rhs).after fun _ _ => needs_apply _ _
  | .negate operand => (needs_intTerm operand).after fun _ _ => needs_apply _ _

/-- A comparison needs nothing from the timeline. -/
theorem needs_compare (op : Comparison) (l r : Term) : Needs (Interpreted.compare op l r) True := by
  cases op with
  | equal => exact needs_equal l r
  | notEqual => exact needs_distinct l r
  | less => exact needs_holds _ _
  | lessEq => exact needs_holds _ _
  | greater => exact needs_holds _ _
  | greaterEq => exact needs_holds _ _

mutual

/-- A condition needs nothing from the timeline but the point that is given. -/
theorem needs_boolFormula : (b : BoolExpr Variable) → Needs (mode.boolFormula t b) True
  | .constant _ => needs_holds _ _
  | .compare op lhs rhs =>
    (mode.needs_intTerm t lhs).after fun l _ =>
      (mode.needs_intTerm t rhs).after fun r _ => needs_compare op l r
  | .junction _ parts => (needs_boolFormulas parts).after fun _ _ => .pure _
  | .not operand => (needs_boolFormula operand).after fun _ _ => .pure _

/-- Conditions need nothing from the timeline but the point that is given. -/
theorem needs_boolFormulas : (bs : List (BoolExpr Variable)) → Needs (mode.boolFormulas t bs) True
  | [] => .pure _
  | b :: bs =>
    (needs_boolFormula b).after fun _ _ => (needs_boolFormulas bs).after fun _ _ => .pure _

end

end TraceMode

/-! ## Statements -/

namespace Semantics

variable (S : Semantics)

variable {S} in
/-- The start that has been looked up for a statement is the one that is recorded. -/
theorem bind_start?_eq {o : Option Statement} {s : Statement} (ho : o = some s) {t : Term}
    (h : (S.startOf s.site).outcome = .ok t) : o.bind S.timeline.start? = some t := by
  subst ho
  rwa [startOf_eq_found, found_eq_ok] at h

variable {S} in
/-- The end that has been looked up for a statement is the one that is recorded. -/
theorem bind_stop?_eq {o : Option Statement} {s : Statement} (ho : o = some s) {t : Term}
    (h : (S.stopOf s.site).outcome = .ok t) : o.bind S.timeline.stop? = some t := by
  subst ho
  rwa [stopOf_eq_found, found_eq_ok] at h

/-- Looking up the start of a statement needs a record of it. -/
theorem needs_startOf {o : Option Statement} {s : Statement} (h : o = some s) :
    Needs (S.startOf s.site) ((o.bind S.timeline.start?).isSome = true) := by
  subst h
  rw [startOf_eq_found]
  exact .found _ _

/-- Looking up the end of a statement needs a record of it. -/
theorem needs_stopOf {o : Option Statement} {s : Statement} (h : o = some s) :
    Needs (S.stopOf s.site) ((o.bind S.timeline.stop?).isSome = true) := by
  subst h
  rw [stopOf_eq_found]
  exact .found _ _

/-- Looking up what matters at a point needs a record of it. -/
theorem needs_activeAt {o : Option Term} {t : Term} (h : o = some t) :
    Needs (S.activeAt t) (S.timeline.Counts o) := by
  subst h
  rw [activeAt_eq_found]
  exact (Needs.found _ _).congr (by simp [Timeline.Counts])

/-- The first statement of a block needs a block that is not empty. -/
theorem needs_firstOf (role : BlockRole) (location : String) (b : List Statement) :
    Needs (firstOf role location b) (b ≠ []) := by
  rw [firstOf_eq_found]
  exact (Needs.found _ _).congr (by simp)

/-- The last statement of a block needs a block that is not empty. -/
theorem needs_lastOf (role : BlockRole) (location : String) (b : List Statement) :
    Needs (lastOf role location b) (b ≠ []) := by
  rw [lastOf_eq_found]
  exact (Needs.found _ _).congr (by simp)

/-- The statement that has been found is the first one of the block. -/
theorem head?_eq {role : BlockRole} {location : String} {b : List Statement} {s : Statement}
    (h : (firstOf role location b).outcome = .ok s) : b.head? = some s := by
  rwa [firstOf_eq_found, found_eq_ok] at h

/-- The statement that has been found is the last one of the block. -/
theorem getLast?_eq {role : BlockRole} {location : String} {b : List Statement} {s : Statement}
    (h : (lastOf role location b).outcome = .ok s) : b.getLast? = some s := by
  rwa [lastOf_eq_found, found_eq_ok] at h

/-- That a variable keeps its value needs nothing from the timeline. -/
theorem needs_sameValue (lhs rhs : Term) (x : Variable) :
    Needs (S.sameValue lhs rhs x) True := by
  unfold sameValue
  split
  · exact (needs_apply _ _).after fun _ _ => (needs_apply _ _).after fun _ _ =>
      (needs_equal _ _).after fun _ _ => .pure _
  · exact (needs_apply _ _).after fun _ _ => (needs_apply _ _).after fun _ _ => needs_equal _ _

/-- That variables keep their values needs nothing from the timeline. -/
theorem needs_sameValues (lhs rhs : Term) (xs : List Variable) :
    Needs (S.sameValues lhs rhs xs) True :=
  (Needs.each fun x _ => S.needs_sameValue lhs rhs x).congr (by simp)

/-- An update between two given points needs nothing from the timeline. -/
theorem needs_update (l₁ l₂ : Term) (value : IntExpr Variable) (target : Target Variable) :
    Needs (S.update l₁ l₂ value target) True := by
  have hvalue := S.mode.needs_intTerm l₁ value
  cases target with
  | scalar x =>
    exact (needs_apply _ _).after fun _ _ => hvalue.after fun _ _ =>
      (needs_equal _ _).after fun _ _ => .pure _
  | element a index =>
    exact (S.mode.needs_intTerm l₁ index).after fun _ _ => (needs_apply _ _).after fun _ _ =>
      hvalue.after fun _ _ => (needs_equal _ _).after fun _ _ =>
      (needs_distinct _ _).after fun _ _ => (needs_apply _ _).after fun _ _ =>
      (needs_apply _ _).after fun _ _ => (needs_equal _ _).after fun _ _ => .pure _

/-- An assignment needs both of its points, and what matters there. -/
theorem needs_assignment (site : Site) (target : Target Variable) (value : IntExpr Variable) :
    Needs (S.assignment site target value) (S.timeline.Serves (.assign site target value)) := by
  have hself : some (Statement.assign site target value) = some (.assign site target value) := rfl
  exact (S.needs_startOf hself).bind fun l₁ h₁ => (S.needs_stopOf hself).bind fun l₂ h₂ =>
    (S.needs_activeAt (bind_start?_eq hself h₁)).bind fun _ _ =>
    (S.needs_activeAt (bind_stop?_eq hself h₂)).last fun _ =>
    (S.needs_update l₁ l₂ value target).after fun _ _ =>
    (S.needs_sameValues l₂ l₁ _).after fun _ _ => .pure _

/-- A skip needs both of its points, and not what matters there. -/
theorem needs_idle (site : Site) : Needs (S.idle site) (S.timeline.Serves (.skip site)) := by
  have hself : some (Statement.skip site) = some (.skip site) := rfl
  exact (S.needs_startOf hself).bind fun _ _ => (S.needs_stopOf hself).bind fun _ _ =>
    (needs_equal _ _).after fun _ _ => .pure _

/-- The joints of a branch also look up where its blocks start. -/
theorem needs_branching (site : Site) (c : BoolExpr Variable) (thens elses : List Statement) :
    Needs (S.branching site c thens elses)
      (S.timeline.Serves (.branch site c thens elses) ∧
        (thens.head?.bind S.timeline.start?).isSome = true ∧
        (elses.head?.bind S.timeline.start?).isSome = true) := by
  have hself : some (Statement.branch site c thens elses) = some (.branch site c thens elses) := rfl
  have hall : Needs (S.branching site c thens elses) _ :=
    (S.needs_startOf hself).bind fun start hstart =>
    (S.needs_stopOf hself).bind fun stop hstop =>
    (needs_firstOf .thenBranch site.location thens).bind fun thenFirst hthenFirst =>
    (needs_firstOf .elseBranch site.location elses).bind fun elseFirst helseFirst =>
    (needs_lastOf .thenBranch site.location thens).bind fun thenLast hthenLast =>
    (needs_lastOf .elseBranch site.location elses).bind fun elseLast helseLast =>
    (S.needs_startOf (head?_eq hthenFirst)).bind fun leftStart _ =>
    (S.needs_startOf (head?_eq helseFirst)).bind fun rightStart _ =>
    (S.needs_stopOf (getLast?_eq hthenLast)).bind fun leftStop hleft =>
    (S.needs_stopOf (getLast?_eq helseLast)).bind fun rightStop hright =>
    (S.needs_activeAt (bind_start?_eq hself hstart)).bind fun entering _ =>
    (S.needs_sameValues leftStart start (changing entering)).after fun intoLeft _ =>
    (S.needs_sameValues rightStart start (changing entering)).after fun intoRight _ =>
    (S.mode.needs_boolFormula start c).after fun chosen _ =>
    (S.needs_activeAt (bind_stop?_eq hself hstop)).bind fun leaving _ =>
    (S.needs_activeAt (bind_stop?_eq (getLast?_eq hthenLast) hleft)).bind fun leavingLeft _ =>
    (S.needs_sameValues stop leftStop (changing (leavingLeft.inter leaving))).after fun _ _ =>
    (S.needs_activeAt (bind_stop?_eq (getLast?_eq helseLast) hright)).last fun leavingRight =>
    (S.needs_sameValues stop rightStop (changing (leavingRight.inter leaving))).after
      fun fromRight _ => .pure _
  refine hall.congr ⟨?_, ?_⟩
  · rintro ⟨hstart, hstop, hthens, helses, _, _, hleft, hright, _, _, h₁, h₂, h₃, h₄⟩
    exact ⟨⟨hstart, hstop, ⟨hthens, helses⟩, h₁, h₂, h₃, h₄⟩, hleft, hright⟩
  · rintro ⟨⟨hstart, hstop, ⟨hthens, helses⟩, h₁, h₂, h₃, h₄⟩, hleft, hright⟩
    exact ⟨hstart, hstop, hthens, helses, hthens, helses, hleft, hright, h₃.isSome, h₄.isSome,
      h₁, h₂, h₃, h₄⟩

/-- The points of a loop need its start and its end, and the start of its body, which must not be
empty. -/
theorem needs_loopPoints (site : Site) (enclosing : List String) (c : BoolExpr Variable)
    (body : List Statement) :
    Needs (S.loopPoints site enclosing body)
      ((S.timeline.start? (.loop site enclosing c body)).isSome = true ∧
        (S.timeline.stop? (.loop site enclosing c body)).isSome = true ∧ body ≠ [] ∧
        (body.head?.bind S.timeline.start?).isSome = true) := by
  have hself : some (Statement.loop site enclosing c body) = some (.loop site enclosing c body) :=
    rfl
  exact (needs_apply _ _).after fun _ _ => (needs_declare _).after fun _ _ =>
    (needs_ofApp _ _).after fun _ _ => (needs_ofApp _ _).after fun _ _ =>
    (S.needs_startOf hself).bind fun _ _ => (S.needs_stopOf hself).bind fun _ _ =>
    (needs_firstOf .loopBody site.location body).bind fun _ hfirst =>
    (S.needs_startOf (head?_eq hfirst)).last fun _ => .pure _

variable {S} in
/-- The start among the points of a loop is the one that is recorded. -/
theorem start_of_loopPoints {site : Site} {enclosing : List String} {body : List Statement}
    {points : LoopPoints} (h : (S.loopPoints site enclosing body).outcome = .ok points) :
    (S.startOf site).outcome = .ok points.start := by
  simp only [loopPoints, outcome_bind_eq_ok, outcome_pure] at h
  obtain ⟨_, _, _, _, _, _, _, _, start, hstart, _, _, _, _, _, _, hpoints⟩ := h
  cases hpoints
  exact hstart

/-- The conditions of a loop at its given points need nothing from the timeline. -/
theorem needs_loopCondition (site : Site) (c : BoolExpr Variable) (points : LoopPoints) :
    Needs (S.loopCondition site c points) True :=
  (needs_holds _ _).after fun _ _ => (S.mode.needs_boolFormula _ c).after fun _ _ =>
    (S.mode.needs_boolFormula _ c).after fun _ _ => .pure _

section

variable {S} {b rest thens elses body : List Statement}

/-- A block needs what its first statement needs, with all that is nested there, and what the rest
needs. -/
theorem needs_block_cons {s : Statement}
    (hs : Needs (S.statement s) (∀ t ∈ s.inOrder, S.timeline.Serves t))
    (hrest : Needs (S.block rest) (∀ t ∈ blockInOrder rest, S.timeline.Serves t)) :
    Needs (S.block (s :: rest)) (∀ t ∈ blockInOrder (s :: rest), S.timeline.Serves t) :=
  (hs.bind fun _ _ => hrest.last fun _ => .pure _).congr List.forall_mem_append.symm

/-- A branch needs its own points and what its blocks need. The starts of the blocks are needed by
their first statements as well. -/
theorem needs_branch (site : Site) (c : BoolExpr Variable)
    (hthens : Needs (S.block thens) (∀ t ∈ blockInOrder thens, S.timeline.Serves t))
    (helses : Needs (S.block elses) (∀ t ∈ blockInOrder elses, S.timeline.Serves t)) :
    Needs (S.statement (.branch site c thens elses))
      (∀ t ∈ (Statement.branch site c thens elses).inOrder, S.timeline.Serves t) := by
  have hall : Needs (S.statement (.branch site c thens elses)) _ :=
    (S.needs_branching site c thens elses).bind fun _ _ => hthens.bind fun _ _ =>
    helses.last fun _ => .pure _
  refine hall.congr ?_
  rw [inOrder, List.forall_mem_cons, List.forall_mem_append]
  constructor
  · rintro ⟨⟨hself, _, _⟩, hinner⟩
    exact ⟨hself, hinner⟩
  · rintro ⟨hself, hleft, hright⟩
    -- the starts of the blocks are those of statements that are served themselves
    obtain ⟨hthens, helses⟩ := hself.2.2.1
    exact ⟨⟨hself, Timeline.isSome_start?_head hthens hleft,
      Timeline.isSome_start?_head helses hright⟩, hleft, hright⟩

/-- A loop needs its own points and what its body needs. The start of the body is needed by its
first statement as well. -/
theorem needs_loop (site : Site) (enclosing : List String) (c : BoolExpr Variable)
    (hbody : Needs (S.block body) (∀ t ∈ blockInOrder body, S.timeline.Serves t)) :
    Needs (S.statement (.loop site enclosing c body))
      (∀ t ∈ (Statement.loop site enclosing c body).inOrder, S.timeline.Serves t) := by
  have hself : some (Statement.loop site enclosing c body) = some (.loop site enclosing c body) :=
    rfl
  have hall : Needs (S.statement (.loop site enclosing c body)) _ :=
    (S.needs_loopPoints site enclosing c body).bind fun points hpoints =>
    (S.needs_activeAt (bind_start?_eq hself (start_of_loopPoints hpoints))).bind fun vars _ =>
    (S.needs_sameValues _ _ _).after fun _ _ => hbody.last fun _ =>
    (S.needs_loopCondition site c points).after fun _ _ =>
    (S.needs_sameValues _ _ _).after fun _ _ => .pure _
  refine hall.congr ?_
  rw [inOrder, List.forall_mem_cons]
  constructor
  · rintro ⟨⟨hstart, hstop, hne, _⟩, hcounts, hinner⟩
    exact ⟨⟨hstart, hstop, hne, hcounts⟩, hinner⟩
  · rintro ⟨⟨hstart, hstop, hne, hcounts⟩, hinner⟩
    exact ⟨⟨hstart, hstop, hne, Timeline.isSome_start?_head hne hinner⟩, hcounts, hinner⟩

/-- A block needs a timeline that serves all of its statements. -/
theorem needs_block (b : List Statement) :
    Needs (S.block b) (∀ t ∈ blockInOrder b, S.timeline.Serves t) := by
  induction b using blockInduction with
  | nil => exact (Needs.pure []).congr (by simp [blockInOrder])
  | assign site target value rest ih =>
    exact needs_block_cons ((S.needs_assignment site target value).congr (by simp [inOrder])) ih
  | skip site rest ih => exact needs_block_cons ((S.needs_idle site).congr (by simp [inOrder])) ih
  | branch site c thens elses rest ihthens ihelses ih =>
    exact needs_block_cons (needs_branch site c ihthens ihelses) ih
  | loop site enclosing c body rest ihbody ih =>
    exact needs_block_cons (needs_loop site enclosing c ihbody) ih

end

/-! ## Programs -/

/-- Asking for the heads and the last iterations of loops needs nothing from the timeline. -/
theorem needs_declareLoops (b : List Statement) : Needs (S.declareLoops b) True := by
  induction b with
  | nil => exact .pure _
  | cons s b ih =>
    cases s with
    | loop site enclosing c body =>
      exact (needs_declare _).after fun _ _ => (needs_declare _).after fun _ _ => ih
    | assign site target value => exact ih
    | branch site c thens elses => exact ih
    | skip site => exact ih

/-- Asking for the symbols of a function needs nothing from the timeline. -/
theorem needs_declareFunction (f : Function) : Needs (S.declareFunction f) True := by
  have hvars : Needs (Construction.each (fun x => declare (S.mode.variableSymbol x)) f.declared)
      (∀ x ∈ f.declared, True) := .each fun _ _ => needs_declare _
  exact (hvars.congr (by simp)).after fun _ _ => S.needs_declareLoops _

/-- The meanings of a program need a timeline that is complete for it. -/
theorem needs_program (p : Program) : Needs (S.program p) (S.timeline.CompleteFor p) := by
  have hdeclare : Needs (Construction.each S.declareFunction p.functions)
      (∀ f ∈ p.functions, True) := .each fun f _ => S.needs_declareFunction f
  have hfunctions : Needs (Construction.each S.function p.functions)
      (S.timeline.CompleteFor p) := by
    refine .each fun f _ => ?_
    rw [function_eq]
    exact (needs_block f.statements).last fun _ => .pure _
  exact ((hdeclare.congr (by simp)).after fun _ _ => .pure _).after fun _ _ => hfunctions

/-- The meanings of a program can be built only from a complete timeline, and from a complete one
nothing can be missing. -/
theorem run_needs_complete (p : Program) (v : Vocabulary) :
    let result := ((do S.mode.prepare; S.program p : Construction (List Formula)).run v).1
    (result.isOk = true → S.timeline.CompleteFor p) ∧
      (S.timeline.CompleteFor p → ∀ fault, result = .error fault → fault.isLogical = true) := by
  have hneeds : Needs (do S.mode.prepare; S.program p) (S.timeline.CompleteFor p) :=
    (Needs.of_faults (by rintro _ ⟨⟩)).after fun _ _ => S.needs_program p
  intro result
  constructor
  · intro hok
    obtain ⟨fs, w, hrun⟩ := exists_run_eq_ok hok
    exact hneeds.of_ok fs (run_eq_ok.mp hrun).1
  · intro hcomplete fault hfault
    exact hneeds.run hcomplete hfault

end Semantics

/-- A function with a loop that does nothing. -/
def Program.waiting : Program :=
  ⟨[⟨"f", [⟨"x", false, false⟩], [.loop ⟨1, "l1"⟩ [] (.constant false) [.skip ⟨2, "l2"⟩]], none⟩]⟩

/-- The points of the loop and of its body, where it is known at one location which variables
matter. -/
def Semantics.waiting (location : String) : Semantics where
  mode := .two
  timeline :=
    { starts := (Table.empty.insert 1 (.loopHead "l1" [] [] .zero)).insert 2 (.point "l2" ["l1"])
      stops := (Table.empty.insert 1 (.point "f_end" [])).insert 2
        (.loopHead "l1" [] [] (.succ (.iteration "l1")))
      active := .insert .empty location .empty }

/-- Only the variables at the head of the loop are looked up. If they are there, the meaning of the
loop can still fail, because another symbol is named like the variable. -/
theorem Semantics.run_needs_complete_waiting :
    (waiting "l1").timeline.CompleteFor .waiting ∧ ¬ (waiting "l2").timeline.CompleteFor .waiting ∧
      ∃ fault, ((do TraceMode.two.prepare; (waiting "l1").program .waiting).run
          ((declare ⟨"x", [], .int, false⟩).run .initial).2).1 = .error fault ∧
        fault.isLogical = true := by
  have hcomplete : (waiting "l1").timeline.CompleteFor .waiting :=
    ((waiting "l1").run_needs_complete .waiting .initial).1 (by decide +kernel)
  have hless : ¬ (waiting "l2").timeline.CompleteFor .waiting := by
    intro hcomplete
    have hlogical := ((waiting "l2").run_needs_complete .waiting .initial).2 hcomplete
      (.missingActiveSet "l1") rfl
    cases hlogical
  have htaken : ((do TraceMode.two.prepare; (waiting "l1").program .waiting).run
      ((declare ⟨"x", [], .int, false⟩).run .initial).2).1.isOk = false := by decide +kernel
  cases hresult : ((do TraceMode.two.prepare; (waiting "l1").program .waiting).run
      ((declare ⟨"x", [], .int, false⟩).run .initial).2).1 with
  | ok fs =>
    rw [hresult] at htaken
    cases htaken
  | error fault =>
    exact ⟨hcomplete, hless, fault, rfl,
      ((waiting "l1").run_needs_complete .waiting _).2 hcomplete fault hresult⟩

end TraceLogic
