import TraceLogic.Proofs.Requests
import TraceLogic.Proofs.Conditions

/-!
# Generation succeeds unless names clash

Every construction for a formed program succeeds: points of time and variable sets are there, blocks
are not empty, and terms have the sorts that they should have. So generation fails only when a name
is asked to stand for two symbols. The constructions are moreover uniform, that is, they ask for the
same notions in every mode; `Program.Formed.generate_isOk_iff` puts this together.
-/

namespace TraceLogic

open Construction Statement Timeline

namespace Construction.Uniform

variable {ask : Notion → Prop} {vars : List Variable}

/-! ## Terms and formulas of one sort -/

section

variable {l r : TraceMode → Term} {s : SortSymbol}

/-- Terms of one sort can be equated, which asks for nothing. -/
theorem equal (hl : ∀ mode, (l mode).sort = s) (hr : ∀ mode, (r mode).sort = s) :
    Uniform ask (fun mode => Construction.ofExcept (Formula.equal? (l mode) (r mode)))
      (fun _ => True) :=
  ofExcept fun mode => ⟨_, if_pos ((hl mode).trans (hr mode).symm), trivial⟩

/-- Terms of one sort can be told apart, which asks for nothing. -/
theorem distinct (hl : ∀ mode, (l mode).sort = s) (hr : ∀ mode, (r mode).sort = s) :
    Uniform ask (fun mode => Construction.ofExcept (Formula.distinct? (l mode) (r mode)))
      (fun _ => True) :=
  ofExcept fun mode => ⟨_, if_pos ((hl mode).trans (hr mode).symm), trivial⟩

/-- A symbol can be applied to terms of the sorts that it expects. -/
theorem fits {f : Symbol} {ts : TraceMode → List Term}
    (hsorts : ∀ mode, (ts mode).map Term.sort = f.domain) :
    Uniform ask (fun mode => Construction.ofExcept (Term.app? f (ts mode)))
      (fun t => t.sort = f.range) :=
  ofExcept fun mode => ⟨_, Term.app?_of_sorts (hsorts mode), rfl⟩

end

/-- The sorts of the arguments for traces. -/
theorem sorts_traceArgs (mode : TraceMode) : mode.traceArgs.map Term.sort = mode.traceDomain := by
  cases mode <;> rfl

/-- The sorts of the argument for time, which constants do not have. -/
theorem sorts_timeArgs (x : Variable) {t : Term} (ht : t.sort = .time) :
    (TraceMode.timeArgs x t).map Term.sort = if x.isConstant then [] else [.time] := by
  unfold TraceMode.timeArgs
  split <;> simp [ht]

/-- Iterations are points of time. -/
theorem sorts_iterations (loops : List String) :
    (loops.map Term.iteration).map Term.sort = List.replicate loops.length .time := by
  rw [List.map_map, ← List.map_const']
  rfl

/-- The arguments of a loop's head fit it. -/
theorem sorts_loopHead (location : String) (loops : List String) {i : Term} (hi : i.sort = .time) :
    (loops.map Term.iteration ++ [i]).map Term.sort = (Symbol.loopHead location loops).domain := by
  rw [List.map_append, sorts_iterations, List.map_singleton, hi, Symbol.loopHead, Symbol.location,
    List.replicate_succ']

/-! ## Values at points of time -/

section

variable {t : TraceMode → Term}

/-- The value of a scalar at a point of time is an integer. -/
theorem valueAt (ht : ∀ mode, (t mode).sort = .time) {x : Variable} (hask : ask (.value x))
    (hx : x.isArray = false) :
    Uniform ask (fun mode => mode.valueAt x (t mode)) (fun u => u.sort = .int) := by
  refine apply (n := .value x) hask (fun mode => ?_) (fun _ => rfl)
  rw [List.map_append, sorts_timeArgs x (ht mode), sorts_traceArgs]
  simp [Notion.symbol, TraceMode.variableSymbol, hx]

/-- The value of an array at a point of time and a position is an integer. -/
theorem elementAt (ht : ∀ mode, (t mode).sort = .time) {a : Variable} (hask : ask (.value a))
    (ha : a.isArray = true) {i : TraceMode → Term} (hi : ∀ mode, (i mode).sort = .int) :
    Uniform ask (fun mode => mode.elementAt a (t mode) (i mode)) (fun u => u.sort = .int) := by
  refine apply (n := .value a) hask (fun mode => ?_) (fun _ => rfl)
  rw [List.map_append, List.map_append, sorts_timeArgs a (ht mode), sorts_traceArgs,
    List.map_singleton, hi mode]
  simp [Notion.symbol, TraceMode.variableSymbol, ha]

/-- The value of an expression in scope is an integer. -/
theorem intTerm (ht : ∀ mode, (t mode).sort = .time)
    (hask : ∀ n : Notion, n.Of [] [] vars → ask n) : {e : IntExpr Variable} → e.Scoped vars →
    Uniform ask (fun mode => mode.intTerm (t mode) e) (fun u => u.sort = .int)
  | .literal k, _ =>
    apply (n := .operation (.literal k)) (hask _ trivial) (fun _ => rfl) fun _ => rfl
  | .variable x, he => valueAt ht (hask (.value x) he.1) he.2
  | .element a _, he => bind (intTerm ht hask he.2) fun _ hi =>
      elementAt ht (hask (.value a) he.1.1) he.1.2 hi
  | .arith op _ _, he => bind (intTerm ht hask he.1) fun l hl =>
      bind (intTerm ht hask he.2) fun r hr => by
        refine apply (n := .operation (.arith op)) (hask _ trivial) (fun mode => ?_) fun _ => ?_
        · rw [List.map_cons, List.map_singleton, hl mode, hr mode]
          cases op <;> rfl
        · cases op <;> rfl
  | .negate _, he => bind (intTerm ht hask he) fun o ho =>
      apply (n := .operation .negate) (hask _ trivial)
        (fun mode => by rw [List.map_singleton, ho mode]; rfl) fun _ => rfl

/-- Integers can be compared in every way. -/
theorem compare (hask : ∀ n : Notion, n.Of [] [] vars → ask n) (op : Comparison)
    {l r : TraceMode → Term} (hl : ∀ mode, (l mode).sort = .int)
    (hr : ∀ mode, (r mode).sort = .int) :
    Uniform ask (fun mode => Interpreted.compare op (l mode) (r mode)) (fun _ => True) := by
  have hsorts (mode : TraceMode) : [l mode, r mode].map Term.sort = [.int, .int] := by
    rw [List.map_cons, List.map_singleton, hl mode, hr mode]
  cases op with
  | less => exact holds (o := .less) (hask (.operation _) trivial) rfl hsorts
  | lessEq => exact holds (o := .lessEq) (hask (.operation _) trivial) rfl hsorts
  | greater => exact holds (o := .greater) (hask (.operation _) trivial) rfl hsorts
  | greaterEq => exact holds (o := .greaterEq) (hask (.operation _) trivial) rfl hsorts
  | equal => exact equal hl hr
  | notEqual => exact distinct hl hr

/-- Both truth values can be built. -/
theorem truth (hask : ∀ n : Notion, n.Of [] [] vars → ask n) (value : Bool) :
    Uniform ask (fun _ => Interpreted.truth value) (fun _ => True) := by
  refine holds (o := .truth value) (hask (.operation _) trivial) ?_ fun _ => ?_
  all_goals cases value <;> rfl

mutual

/-- The truth of an expression in scope. -/
theorem boolFormula (ht : ∀ mode, (t mode).sort = .time)
    (hask : ∀ n : Notion, n.Of [] [] vars → ask n) : {b : BoolExpr Variable} → b.Scoped vars →
    Uniform ask (fun mode => mode.boolFormula (t mode) b) (fun _ => True)
  | .constant value, _ => truth hask value
  | .compare op _ _, hb => bind (intTerm ht hask hb.1) fun _ hl =>
      bind (intTerm ht hask hb.2) fun _ hr => compare hask op hl hr
  | .junction _ _, hb => bind (boolFormulas ht hask hb) fun _ _ => pure fun _ => trivial
  | .not _, hb => bind (boolFormula ht hask hb) fun _ _ => pure fun _ => trivial

/-- The truth of expressions in scope. -/
theorem boolFormulas (ht : ∀ mode, (t mode).sort = .time)
    (hask : ∀ n : Notion, n.Of [] [] vars → ask n) :
    {bs : List (BoolExpr Variable)} → BoolExpr.AllScoped vars bs →
    Uniform ask (fun mode => mode.boolFormulas (t mode) bs) (fun _ => True)
  | [], _ => pure fun _ => trivial
  | _ :: _, hb => bind (boolFormula ht hask hb.1) fun _ _ =>
      bind (boolFormulas ht hask hb.2) fun _ _ => pure fun _ => trivial

end

end

/-! ## Points of time -/

/-- The iterations of loops ask for no symbols. -/
theorem iterations (loops : List String) :
    Uniform ask (fun _ => Construction.iterations loops) (fun _ => True) := by
  have htimes (mode : TraceMode) : (loops.map fun _ => SortSymbol.time) ⊆ mode.sorts := by
    intro s hs
    obtain ⟨_, _, rfl⟩ := List.mem_map.mp hs
    simp [TraceMode.sorts]
  have hiterations : Construction.iterations loops =
      ⟨(loops.map fun _ => SortSymbol.time).map .sort, .ok (loops.map .iteration)⟩ := by
    rw [Construction.iterations, List.map_map]
    rfl
  rw [hiterations]
  exact sorts htimes fun _ => trivial

/-- A point that depends on the loops around it. -/
theorem pointAt {location : String} {loops : List String}
    (hask : ask (.location location loops.length)) :
    Uniform ask (fun _ => Timeline.pointAt location loops) (fun _ => True) := by
  refine bind_const (declare (n := .location location loops.length) hask) fun f hf _ => ?_
  refine bind_const (iterations loops) fun its hits _ => ?_
  cases hf
  cases hits
  exact ofExcept fun _ => ⟨_, Term.app?_of_sorts (sorts_iterations loops), trivial⟩

/-- The head of a loop in an iteration that can be built. -/
theorem loopHead {location : String} {loops : List String}
    (hask : ask (.location location (loops.length + 1))) {iteration : Construction Term}
    (hi : Uniform ask (fun _ => iteration) (fun t => t.sort = .time)) :
    Uniform ask (fun _ => Timeline.loopHead location loops loops iteration) (fun _ => True) := by
  refine bind_const (declare (n := .location location (loops.length + 1)) hask) fun f hf _ => ?_
  refine bind_const (iterations loops) fun its hits _ => ?_
  cases hf
  cases hits
  refine bind_const hi fun i _ hi => ofExcept fun _ => ⟨_, Term.app?_of_sorts ?_, trivial⟩
  exact sorts_loopHead location loops hi

/-- A formed statement has a start. -/
theorem startPoint {loops : List String} {s : Statement} (hs : s.Formed vars loops)
    (hask : ∀ n : Notion, n.Of (s.places loops.length) [] [] → ask n) :
    Uniform ask (fun _ => Timeline.startPoint loops s) (fun _ => True) := by
  cases s with
  | loop site enclosing c body =>
    obtain ⟨rfl, _⟩ := hs
    refine loopHead (hask _ List.mem_cons_self) ?_
    exact apply (n := .operation .zero) (hask _ trivial) (fun _ => rfl) fun _ => rfl
  | assign site target value => exact pointAt (hask _ List.mem_cons_self)
  | branch site c thens elses => exact pointAt (hask _ List.mem_cons_self)
  | skip site => exact pointAt (hask _ List.mem_cons_self)

end Construction.Uniform

namespace Timeline

variable {ask : Notion → Prop} {vars : List Variable} {set : VariableSet} {loops : List String}

/-- The notions that locating statements may ask for. -/
def MayLocate (ask : Notion → Prop) (places : List (String × Nat)) : Prop :=
  ∀ n : Notion, n.Of places [] [] → ask n

/-- Fewer places need fewer notions. -/
theorem MayLocate.of_subset {places places' : List (String × Nat)} (h : MayLocate ask places')
    (hsubset : places ⊆ places') : MayLocate ask places :=
  fun n hn => h n (hn.mono hsubset (List.nil_subset _) (List.nil_subset _))

/-- The statements of a formed block have starts. -/
theorem uniform_starts {b : List Statement} (hb : BlockFormed vars loops b)
    (hask : MayLocate ask (blockPlaces loops.length b)) :
    Uniform ask (fun _ => each (startPoint loops) b) (fun _ => True) := by
  induction b with
  | nil => exact .pure fun _ => trivial
  | cons s rest ih =>
    have hfirst := Uniform.startPoint hb.1 (hask.of_subset (List.subset_append_left _ _))
    have hothers := ih hb.2 (hask.of_subset (List.subset_append_right _ _))
    exact hfirst.bind fun _ _ => hothers.bind fun _ _ => .pure fun _ => trivial

/-- Whether the statements of a block can be located. -/
def Locatable (ask : Notion → Prop) (vars : List Variable) (set : VariableSet)
    (b : List Statement) : Prop :=
  ∀ ⦃loops : List String⦄ (stop : Term) (tl : Timeline) (starts : List Term),
    BlockFormed vars loops b → MayLocate ask (blockPlaces loops.length b) →
    Uniform ask (fun _ => locateAll set loops stop tl starts b) (fun _ => True)

/-- A block can be located if what its first statement nests and its other statements can be. -/
theorem Locatable.cons {s : Statement} {rest : List Statement}
    (hnested : ∀ ⦃loops : List String⦄ (tl : Timeline), s.Formed vars loops →
      MayLocate ask (s.places loops.length) →
      Uniform ask (fun _ => locateNested set loops tl s) (fun _ => True))
    (hrest : Locatable ask vars set rest) : Locatable ask vars set (s :: rest) := by
  intro loops stop tl starts hb hask
  cases starts with
  | nil => exact .pure fun _ => trivial
  | cons start later =>
    have hfirst := hask.of_subset (List.subset_append_left _ _)
    have hothers := hask.of_subset (List.subset_append_right _ _)
    exact .bind_const (hnested _ hb.1 hfirst) fun tl' _ _ => hrest _ _ _ hb.2 hothers

/-- The statements of a formed block can be located. -/
theorem locatable (ask : Notion → Prop) (vars : List Variable) (set : VariableSet)
    (b : List Statement) : Locatable ask vars set b := by
  induction b using blockInduction with
  | nil =>
    intro loops stop tl starts _ _
    exact .pure fun _ => trivial
  | assign site target value rest ih => exact .cons (fun _ _ _ _ => .pure fun _ => trivial) ih
  | skip site rest ih => exact .cons (fun _ _ _ _ => .pure fun _ => trivial) ih
  | branch site c thens elses rest ihthens ihelses ih =>
    refine .cons (fun loops tl hs hask => ?_) ih
    obtain ⟨_, ⟨_, hthens⟩, _, helses⟩ := hs
    have hleft : ask (.location (leftEnd site.location) loops.length) :=
      hask _ (by simp [Notion.Of, places])
    have hright : ask (.location (rightEnd site.location) loops.length) :=
      hask _ (by simp [Notion.Of, places])
    have haskThens : MayLocate ask (blockPlaces loops.length thens) :=
      hask.of_subset fun place hplace => by simp [places, hplace]
    have haskElses : MayLocate ask (blockPlaces loops.length elses) :=
      hask.of_subset fun place hplace => by simp [places, hplace]
    refine .bind_const (.pointAt hleft) fun left _ _ => ?_
    refine .bind_const (.pointAt hright) fun right _ _ => ?_
    refine .bind_const (uniform_starts hthens haskThens) fun thenStarts _ _ => ?_
    refine .bind_const (ihthens _ _ _ hthens haskThens) fun tl₁ _ _ => ?_
    refine .bind_const (uniform_starts helses haskElses) fun elseStarts _ _ => ?_
    exact ihelses _ _ _ helses haskElses
  | loop site enclosing c body rest ihbody ih =>
    refine .cons (fun loops tl hs hask => ?_) ih
    obtain ⟨rfl, _, _, hbody⟩ := hs
    have hhead : ask (.location site.location (enclosing.length + 1)) :=
      hask _ List.mem_cons_self
    have haskBody : MayLocate ask (blockPlaces (enclosing ++ [site.location]).length body) := by
      rw [List.length_append, List.length_singleton]
      exact hask.of_subset (List.subset_cons_self _ _)
    have hnext : Uniform ask (fun _ => Interpreted.succ (Term.iteration site.location))
        (fun t => t.sort = .time) :=
      .apply (n := .operation .succ) (hask _ trivial) (fun _ => rfl) fun _ => rfl
    refine .bind_const (.loopHead hhead hnext) fun next _ _ => ?_
    refine .bind_const (uniform_starts hbody haskBody) fun starts _ _ => ?_
    exact ihbody _ _ _ hbody haskBody

/-- A formed block can be located. -/
theorem uniform_locateBlock {b : List Statement} (hb : BlockFormed vars loops b)
    (hask : MayLocate ask (blockPlaces loops.length b)) (stop : Term) (tl : Timeline) :
    Uniform ask (fun _ => locateBlock set loops stop tl b) (fun _ => True) :=
  .bind_const (uniform_starts hb hask) fun _ _ _ => locatable ask vars set b _ _ _ hb hask

/-- A formed function can be located. -/
theorem uniform_locateFunction {f : Function} (hf : f.Formed) (hask : MayLocate ask f.places)
    (tl : Timeline) : Uniform ask (fun _ => tl.locateFunction f) (fun _ => True) := by
  have hend : ask (.location (functionEnd f.name) 0) := hask _ List.mem_cons_self
  have hstop : Uniform ask (fun _ => pointAt (functionEnd f.name) []) (fun _ => True) :=
    .pointAt hend
  have haskBlock : MayLocate ask (blockPlaces 0 f.statements) :=
    hask.of_subset (List.subset_cons_self _ _)
  refine .bind_const hstop fun stop _ _ => ?_
  refine .bind_const (uniform_locateBlock hf.statements haskBlock stop _) fun tl₁ _ _ => ?_
  exact .pure fun _ => trivial

/-- The functions of a program can be located one after the other. -/
theorem uniform_locateFunctions {fs : List Function} (hfs : ∀ f ∈ fs, f.Formed)
    (hask : ∀ f ∈ fs, MayLocate ask f.places) (tl : Timeline) :
    Uniform ask (fun _ => tl.locateFunctions fs) (fun _ => True) := by
  induction fs generalizing tl with
  | nil => exact .pure fun _ => trivial
  | cons f fs ih =>
    obtain ⟨hf, hfs⟩ := List.forall_mem_cons.mp hfs
    obtain ⟨haskFirst, hask⟩ := List.forall_mem_cons.mp hask
    exact .bind_const (uniform_locateFunction hf haskFirst tl) fun tl₁ _ _ => ih hfs hask tl₁

end Timeline

/-! ## Statements -/

namespace Semantics

variable {ask : Notion → Prop} {vars : List Variable} {mode : TraceMode} {tl : Timeline}

section

variable {t u : TraceMode → Term}

/-- A variable can be kept between two points of time. -/
theorem uniform_sameValue (ht : ∀ mode, (t mode).sort = .time) (hu : ∀ mode, (u mode).sort = .time)
    {x : Variable} (hx : ask (.value x)) :
    Uniform ask (fun mode => sameValue ⟨mode, tl⟩ (t mode) (u mode) x) (fun _ => True) := by
  cases hshape : x.isArray with
  | true =>
    simp only [sameValue, hshape, if_true]
    refine .bind (.elementAt ht hx hshape fun _ => rfl) fun l hl => ?_
    refine .bind (.elementAt hu hx hshape fun _ => rfl) fun r hr => ?_
    exact .bind (.equal hl hr) fun _ _ => .pure fun _ => trivial
  | false =>
    simp only [sameValue, hshape, Bool.false_eq_true, if_false]
    refine .bind (.valueAt ht hx hshape) fun l hl => ?_
    exact .bind (.valueAt hu hx hshape) fun r hr => .equal hl hr

/-- Variables can be kept between two points of time. -/
theorem uniform_sameValues (ht : ∀ mode, (t mode).sort = .time)
    (hu : ∀ mode, (u mode).sort = .time) {xs : List Variable} (hxs : ∀ x ∈ xs, ask (.value x)) :
    Uniform ask (fun mode => sameValues ⟨mode, tl⟩ (t mode) (u mode) xs)
      (List.Forall₂ (fun _ _ => True) xs) :=
  .each fun x hx => uniform_sameValue ht hu (hxs x hx)

/-- An assignment in scope updates its target. -/
theorem uniform_update (ht : ∀ mode, (t mode).sort = .time) (hu : ∀ mode, (u mode).sort = .time)
    (hask : ∀ n : Notion, n.Of [] [] vars → ask n) {target : Target Variable}
    {value : IntExpr Variable} (htarget : target.Scoped vars) (hvalue : value.Scoped vars) :
    Uniform ask (fun mode => update ⟨mode, tl⟩ (t mode) (u mode) value target) (fun _ => True) := by
  cases target with
  | scalar x =>
    obtain ⟨hx, hshape, _⟩ := htarget
    refine .bind (.valueAt hu (hask (.value x) hx) hshape) fun new hnew => ?_
    refine .bind (.intTerm ht hask hvalue) fun old hold => ?_
    exact .bind (.equal hnew hold) fun _ _ => .pure fun _ => trivial
  | element a index =>
    obtain ⟨⟨ha, hshape, _⟩, hindex⟩ := htarget
    have ha := hask (.value a) ha
    refine .bind (.intTerm ht hask hindex) fun i hi => ?_
    refine .bind (.elementAt hu ha hshape hi) fun new hnew => ?_
    refine .bind (.intTerm ht hask hvalue) fun old hold => ?_
    refine .bind (.equal hnew hold) fun _ _ => ?_
    refine .bind (.distinct (fun _ => rfl) hi) fun _ _ => ?_
    refine .bind (.elementAt hu ha hshape fun _ => rfl) fun after hafter => ?_
    refine .bind (.elementAt ht ha hshape fun _ => rfl) fun before hbefore => ?_
    exact .bind (.equal hafter hbefore) fun _ _ => .pure fun _ => trivial

end

section

variable {loops : List String} {stop : Term} {site : Site} {rest : List Statement}

/-- The start of a block is a point of time. -/
theorem sort_blockStartTerm (loops : List String) (hstop : stop.sort = .time) (b : List Statement) :
    (blockStartTerm loops stop b).sort = .time := by
  cases b with
  | nil => exact hstop
  | cons s rest => cases s <;> rfl

/-- The values of variables that are framed may be asked for. -/
theorem ask_of_mem_changing (hask : ∀ n : Notion, n.Of [] [] vars → ask n) {set : VariableSet}
    (hset : ∀ x ∈ set, x ∈ vars) : ∀ x ∈ changing set, ask (.value x) :=
  fun x hx => hask (.value x) (hset x (mem_changing.mp hx).1)

/-- The meaning of an assignment whose points are known. -/
theorem uniform_assignment {target : Target Variable} {value : IntExpr Variable}
    (hk : tl.Knows vars loops stop (.assign site target value :: rest))
    (hstop : stop.sort = .time) (hask : ∀ n : Notion, n.Of [] [] vars → ask n) :
    Uniform ask (fun mode => assignment ⟨mode, tl⟩ site target value) (fun _ => True) := by
  obtain ⟨⟨htarget, hvalue⟩, _⟩ := hk.formed
  have heq (mode : TraceMode) := assignment_eq (S := ⟨mode, tl⟩) hk
  simp only [heq]
  have ht (_ : TraceMode) : (Term.point site.location loops).sort = .time := rfl
  have hu (_ : TraceMode) := sort_blockStartTerm loops hstop rest
  refine .bind (uniform_update ht hu hask htarget hvalue) fun _ _ => ?_
  refine .bind (uniform_sameValues hu ht fun x hx => ?_) fun _ _ => .pure fun _ => trivial
  exact ask_of_mem_changing hask (by simp) x (List.mem_of_mem_filter hx)

/-- The meaning of a statement that does nothing. -/
theorem uniform_idle (hk : tl.Knows vars loops stop (.skip site :: rest))
    (hstop : stop.sort = .time) :
    Uniform ask (fun mode => idle ⟨mode, tl⟩ site) (fun _ => True) := by
  have heq (mode : TraceMode) := idle_eq (S := ⟨mode, tl⟩) hk
  simp only [heq]
  have ht (_ : TraceMode) : (Term.point site.location loops).sort = .time := rfl
  have hu (_ : TraceMode) := sort_blockStartTerm loops hstop rest
  exact .bind (.equal ht hu) fun _ _ => .pure fun _ => trivial

/-- How the ends of a branch statement are related to its blocks. -/
theorem uniform_branching {c : BoolExpr Variable} {thens elses : List Statement}
    (hk : tl.Knows vars loops stop (.branch site c thens elses :: rest))
    (hstop : stop.sort = .time) (hask : ∀ n : Notion, n.Of [] [] vars → ask n) :
    Uniform ask (fun mode => branching ⟨mode, tl⟩ site c thens elses) (fun _ => True) := by
  have heq (mode : TraceMode) := branching_eq (S := ⟨mode, tl⟩) hk
  simp only [heq]
  have hpoint (name : String) (_ : TraceMode) : (Term.point name loops).sort = .time := rfl
  have hend (_ : TraceMode) := sort_blockStartTerm loops hstop rest
  have hstart (name : String) (b : List Statement) (mode : TraceMode) :=
    sort_blockStartTerm loops (hpoint name mode) b
  have hall : ∀ x ∈ changing (.ofList vars), ask (.value x) := ask_of_mem_changing hask (by simp)
  have hboth : ∀ x ∈ changing ((VariableSet.ofList vars).inter (.ofList vars)), ask (.value x) :=
    ask_of_mem_changing hask (by simp)
  refine .bind (uniform_sameValues (hstart _ thens) (hpoint _) hall) fun _ _ => ?_
  refine .bind (uniform_sameValues (hstart _ elses) (hpoint _) hall) fun _ _ => ?_
  refine .bind (.boolFormula (hpoint _) hask hk.formed.1.1) fun _ _ => ?_
  refine .bind (uniform_sameValues hend (hpoint _) hboth) fun _ _ => ?_
  exact .bind (uniform_sameValues hend (hpoint _) hboth) fun _ _ => .pure fun _ => trivial

/-- The last iteration of a loop is a point of time. -/
theorem uniform_lastIteration {location : String} {enclosing : List String}
    (hask : ask (.lastIteration location enclosing)) :
    Uniform ask (fun mode => mode.lastIteration location enclosing) (fun t => t.sort = .time) := by
  refine .apply (n := .lastIteration location enclosing) hask (fun mode => ?_) fun _ => rfl
  rw [List.map_append, Uniform.sorts_iterations, Uniform.sorts_traceArgs]
  rfl

/-- The meaning of a loop whose body has one. -/
theorem uniform_loop {c : BoolExpr Variable} {enclosing : List String} {body : List Statement}
    (hk : tl.Knows vars loops stop (.loop site enclosing c body :: rest))
    (hstop : stop.sort = .time)
    (hask : ∀ n : Notion, n.OfBlock vars (.loop site enclosing c body :: rest) → ask n)
    (hbody : Uniform ask (fun mode => block ⟨mode, tl⟩ body) (fun _ => True)) :
    Uniform ask (fun mode => statement ⟨mode, tl⟩ (.loop site enclosing c body))
      (fun _ => True) := by
  obtain ⟨rfl, hc, _⟩ := hk.formed.1
  have heq (mode : TraceMode) := loop_eq (S := ⟨mode, tl⟩) hk
  simp only [heq]
  have haskExpr (n : Notion) (hn : n.Of [] [] vars) : ask n := hask n (.of_expression hn)
  have haskLast : ask (.lastIteration site.location enclosing) :=
    hask _ (by simp [Notion.OfBlock, Notion.Of])
  have haskHead : ask (.location site.location (enclosing.length + 1)) :=
    hask _ (by simp [Notion.OfBlock, Notion.Of, headOf])
  have hframe : ∀ x ∈ changing (.ofList vars), ask (.value x) :=
    ask_of_mem_changing haskExpr (by simp)
  have hnow (_ : TraceMode) : (Term.iteration site.location).sort = .time := rfl
  have hend (_ : TraceMode) := sort_blockStartTerm enclosing hstop rest
  have hnext : (Term.loopHead site.location enclosing enclosing
      (.succ (.iteration site.location))).sort = .time := rfl
  have hbodyStart (_ : TraceMode) :=
    sort_blockStartTerm (enclosing ++ [site.location]) hnext body
  have hdeclare := Uniform.declare (n := .location site.location (enclosing.length + 1)) haskHead
  refine .bind (uniform_lastIteration haskLast) fun last hlast => ?_
  refine .bind_const hdeclare fun head hhead _ => ?_
  cases hhead
  -- the head of the loop in the iteration that is bound and in the last one
  refine .bind (.fits fun mode => Uniform.sorts_loopHead _ _ (hnow mode)) fun _ hheadNow => ?_
  refine .bind (.fits fun mode => Uniform.sorts_loopHead _ _ (hlast mode)) fun _ hheadLast => ?_
  refine .bind (uniform_sameValues hbodyStart hheadNow hframe) fun _ _ => ?_
  refine .bind hbody fun _ _ => ?_
  refine .bind (.holds (o := .before) (hask (.operation _) trivial) rfl fun mode => ?_)
    fun _ _ => ?_
  · rw [List.map_cons, List.map_singleton, hnow mode, hlast mode]
    rfl
  refine .bind (.boolFormula hheadNow haskExpr hc) fun _ _ => ?_
  refine .bind (.boolFormula hheadLast haskExpr hc) fun _ _ => ?_
  exact .bind (uniform_sameValues hend hheadLast hframe) fun _ _ => .pure fun _ => trivial

end

/-- Every block that a timeline knows has a meaning. -/
theorem uniform_block {loops : List String} {stop : Term} {b : List Statement}
    (hk : tl.Knows vars loops stop b) (hstop : stop.sort = .time)
    (hask : ∀ n : Notion, n.OfBlock vars b → ask n) :
    Uniform ask (fun mode => block ⟨mode, tl⟩ b) (fun _ => True) := by
  have haskExpr (n : Notion) (hn : n.Of [] [] vars) : ask n := hask n (.of_expression hn)
  induction b using blockInduction generalizing loops stop with
  | nil => exact .pure fun _ => trivial
  | assign site target value rest ih =>
    have hrest := ih hk.of_rest hstop fun n hn => hask n hn.of_rest
    refine .bind (uniform_assignment hk hstop haskExpr) fun _ _ => ?_
    exact .bind hrest fun _ _ => .pure fun _ => trivial
  | skip site rest ih =>
    have hrest := ih hk.of_rest hstop fun n hn => hask n hn.of_rest
    refine .bind (uniform_idle hk hstop) fun _ _ => ?_
    exact .bind hrest fun _ _ => .pure fun _ => trivial
  | branch site c thens elses rest ihthens ihelses ih =>
    have hthens := ihthens hk.of_thens rfl fun n hn => hask n hn.of_thens
    have helses := ihelses hk.of_elses rfl fun n hn => hask n hn.of_elses
    have hrest := ih hk.of_rest hstop fun n hn => hask n hn.of_rest
    have hbranch : Uniform ask (fun mode => statement ⟨mode, tl⟩ (.branch site c thens elses))
        (fun _ => True) := by
      refine .bind (uniform_branching hk hstop haskExpr) fun _ _ => ?_
      exact .bind hthens fun _ _ => .bind helses fun _ _ => .pure fun _ => trivial
    exact .bind hbranch fun _ _ => .bind hrest fun _ _ => .pure fun _ => trivial
  | loop site enclosing c body rest ihbody ih =>
    have hbody := ihbody hk.of_body rfl fun n hn => hask n hn.of_body
    have hrest := ih hk.of_rest hstop fun n hn => hask n hn.of_rest
    refine .bind (uniform_loop hk hstop hask hbody) fun _ _ => ?_
    exact .bind hrest fun _ _ => .pure fun _ => trivial

/-! ## Functions and programs -/

section

variable {f : Function}

/-- The meaning of a formed function whose points are known. -/
theorem uniform_function (hf : f.Formed) (hlocations : f.locations.Nodup) (hcovers : tl.Covers f)
    (hask : ∀ n : Notion, n.OfBlock f.declared f.statements → ask n) :
    Uniform ask (fun mode => function ⟨mode, tl⟩ f) (fun _ => True) := by
  simp only [function_eq]
  exact .bind (uniform_block (hcovers.knows hf hlocations) rfl hask) fun _ _ =>
    .pure fun _ => trivial

/-- A postcondition has a meaning, if there is one. -/
theorem uniform_postcondition (hf : f.Formed) (hcovers : tl.Covers f)
    (hask : ∀ n : Notion, n.Of [] [] f.declared → ask n) :
    Uniform ask (fun mode => postcondition ⟨mode, tl⟩ f) (fun _ => True) := by
  simp only [postcondition, hcovers.functionEnd, forAllTraces_eq, pure_bind]
  cases hpost : f.postcondition with
  | none => exact .pure fun _ => trivial
  | some post =>
    refine .bind (.boolFormula (fun _ => rfl) hask (hf.postcondition post hpost)) fun _ _ => ?_
    exact .pure fun _ => trivial

/-- What is asked for in advance for loops. -/
theorem uniform_declareLoops {ss : List Statement}
    (hask : ∀ n : Notion,
      n.Of ((ss.flatMap ownNests).map headOf) (ss.flatMap ownNests) vars → ask n) :
    Uniform ask (fun mode => declareLoops ⟨mode, tl⟩ ss) (fun _ => True) := by
  induction ss with
  | nil => exact .pure fun _ => trivial
  | cons s ss ih =>
    have hsubset := List.subset_append_right s.ownNests (ss.flatMap ownNests)
    have hrest := ih fun n hn =>
      hask n (hn.mono (List.map_subset _ hsubset) hsubset (List.Subset.refl _))
    cases s with
    | loop site enclosing c body =>
      have hhead : ask (.location site.location (enclosing.length + 1)) :=
        hask _ List.mem_cons_self
      have hlast : ask (.lastIteration site.location enclosing) := hask _ List.mem_cons_self
      refine .bind (.declare (n := .location site.location (enclosing.length + 1)) hhead)
        fun _ _ => ?_
      exact .bind (.declare (n := .lastIteration site.location enclosing) hlast) fun _ _ => hrest
    | assign site target value => exact hrest
    | branch site c thens elses => exact hrest
    | skip site => exact hrest

/-- What is asked for in advance for a function. -/
theorem uniform_declareFunction
    (hask : ∀ n : Notion, n.OfBlock f.declared f.statements → ask n) :
    Uniform ask (fun mode => declareFunction ⟨mode, tl⟩ f) (fun _ => True) := by
  have hvariable (x : Variable) (hx : x ∈ f.declared) :
      Uniform ask (fun mode => declare (mode.variableSymbol x))
        (fun g => ∃ mode, g = (Notion.value x).symbol mode) :=
    .declare (n := .value x) (hask (.value x) hx)
  exact .bind (.each hvariable) fun _ _ => uniform_declareLoops hask

end

end Semantics

/-- The timeline and the problem of a program as one construction, in which the functions come one
after the other. Under a schedule the same is asked for, in another order. -/
def Program.build (p : Program) (mode : TraceMode) : Construction Problem := do
  mode.prepare
  let tl ← ofProgram p
  Semantics.posed ⟨mode, tl⟩ p

namespace Program

variable {p : Program} {mode : TraceMode} {schedule : Option Schedule}

/-- Building a problem goes on with the timeline that locating gives. -/
theorem build_eq (p : Program) (mode : TraceMode) :
    p.build mode = (do mode.prepare; ofProgram p) >>= fun tl =>
      Semantics.posed ⟨mode, tl⟩ p := by
  rw [bind_assoc]
  rfl

/-- What is generated under some schedule is what is built, and what has been granted is what is
asked for then. -/
theorem build_of_generate {g : Generated} (hg : p.generate mode schedule = .ok g) :
    (p.build mode).outcome = .ok g.problem ∧
      Vocabulary.initial.Reaches (p.build mode).requests g.vocabulary := by
  obtain ⟨v, hlocate, hrun⟩ := generate_eq_ok.mp hg
  have hlocate := locate_eq_ok.mp hlocate
  obtain ⟨houtcome, hreaches⟩ := Semantics.problem_eq_ok hrun
  have hlocated := (run_eq_ok.mp hlocate).1
  rw [build_eq, requests_bind, hlocated]
  exact ⟨outcome_bind_eq_ok.mpr ⟨_, hlocated, houtcome⟩,
    (reaches_of_run hlocate).append hreaches⟩

/-- If generating a problem that can be built fails under some schedule, it is a clash. -/
theorem clashes_of_generate {problem : Problem} (hok : (p.build mode).outcome = .ok problem)
    {fault : Fault} (h : p.generate mode schedule = .error fault) :
    Clashes (symbolsOf (p.build mode).requests) fault := by
  rw [build_eq] at hok ⊢
  obtain ⟨tl, hlocated, hposed⟩ := outcome_bind_eq_ok.mp hok
  rw [requests_bind, hlocated, symbolsOf_append]
  have hinitial (symbols : List Symbol) : Vocabulary.initial.symbols ⊆ symbols :=
    List.nil_subset symbols
  have hlocating := List.subset_append_left
    (symbolsOf (do mode.prepare; ofProgram p : Construction Timeline).requests)
    (symbolsOf (Semantics.posed ⟨mode, tl⟩ p).requests)
  -- either locating clashes, or it gives the timeline and the problem clashes after it
  unfold generate locate at h
  rcases hlocate : (do mode.prepare; ofProgram p : Construction Timeline).run .initial with
    ⟨_ | tl', v⟩
  · rw [hlocate] at h
    cases h
    refine clashes_of_run (fun other hother => ?_) (hinitial _) hlocating
      (congrArg Prod.fst hlocate)
    cases hlocated.symm.trans hother
  · obtain rfl : tl = tl' := Except.ok.inj (hlocated.symm.trans (run_eq_ok.mp hlocate).1)
    have hv := symbols_run_subset (hinitial _) hlocating
    rw [hlocate] at h hv
    rcases hproblem : (Semantics.problem ⟨mode, tl⟩ schedule p).run.run v with ⟨_ | problem, w⟩
    · simp only [bind, Except.bind, hproblem] at h
      cases h
      exact Semantics.clashes_of_problem hposed hv (List.subset_append_right _ _) hproblem
    · simp only [bind, Except.bind, hproblem] at h
      cases h

/-- Whether generation succeeds does not depend on the schedule: it does if and only if no name is
asked to stand for two symbols. -/
theorem generate_isOk_iff_coherent {problem : Problem}
    (hok : (p.build mode).outcome = .ok problem) :
    (∃ g, p.generate mode schedule = .ok g) ↔ Coherent (symbolsOf (p.build mode).requests) := by
  constructor
  · rintro ⟨g, hg⟩
    exact (build_of_generate hg).2.coherent Vocabulary.distinct_initial
  · intro hcoherent
    cases hgenerate : p.generate mode schedule with
    | ok g => exact ⟨g, rfl⟩
    | error fault => exact absurd (clashes_of_generate hok hgenerate) hcoherent.not_clashes

end Program

/-- The sorts of a problem about some function are there once its statements have been located. -/
theorem Program.sorts_of_grants {p : Program} {mode : TraceMode} {v : Vocabulary}
    (hv : Vocabulary.initial.Extends v)
    (hgrants : ∀ r ∈ (do mode.prepare; ofProgram p : Construction Timeline).requests, v.Grants r)
    (hne : p.functions ≠ []) : ∀ s ∈ mode.sorts, s ∈ v.sorts := by
  have htrace : ∀ s ∈ mode.traceDomain, s ∈ v.sorts := fun s hs =>
    hgrants (.sort s) (mem_requests_bind_left (List.mem_map_of_mem hs))
  have htime : SortSymbol.time ∈ v.sorts := by
    -- the end of the first function is a point of time
    refine hgrants (.sort .time) (mem_requests_bind_right rfl ?_)
    obtain ⟨f, fs, hfs⟩ := List.exists_cons_of_ne_nil hne
    rw [ofProgram, hfs]
    refine mem_requests_bind_left (mem_requests_bind_left (mem_requests_bind_left ?_))
    exact List.mem_cons_self
  intro s hs
  rcases List.mem_append.mp hs with hs | hs
  · simp only [List.mem_cons, List.not_mem_nil, or_false] at hs
    rcases hs with rfl | rfl | rfl
    · exact hv.sorts.subset (by decide)
    · exact hv.sorts.subset (by decide)
    · exact htime
  · exact htrace s hs

namespace Program.Formed

variable {p : Program} {tl : Timeline} (hp : p.Formed)

include hp

/-- The timeline of a formed program. -/
theorem uniform_ofProgram :
    Uniform (Notion.OfProgram p) (fun _ => ofProgram p) (fun _ => True) :=
  uniform_locateFunctions hp.functions (fun _ hf _ hn => .of_function hf (hn.mono
    (List.Subset.refl _) (List.nil_subset _) (List.nil_subset _))) {}

/-- The meanings of the functions of a formed program. -/
theorem uniform_program (hcovers : ∀ f ∈ p.functions, tl.Covers f) :
    Uniform (Notion.OfProgram p) (fun mode => Semantics.program ⟨mode, tl⟩ p)
      (List.Forall₂ (fun _ _ => True) p.functions) := by
  have hdeclare : Uniform (Notion.OfProgram p) (fun mode => Semantics.declareProgram ⟨mode, tl⟩ p)
      (fun _ => True) := by
    refine .bind (.each (R := fun _ _ => True) fun f hf => ?_) fun _ _ => .pure fun _ => trivial
    exact Semantics.uniform_declareFunction fun n hn => .of_statements hf (hp.functions f hf) hn
  refine .bind hdeclare fun _ _ => .each fun f hf => ?_
  exact Semantics.uniform_function (hp.functions f hf) (hp.function_locations_nodup hf)
    (hcovers f hf) fun n hn => .of_statements hf (hp.functions f hf) hn

/-- The conjecture of a formed program. Whether it is `false` depends on the program only. -/
theorem uniform_conjecture {ask : Notion → Prop} (hcovers : ∀ f ∈ p.functions, tl.Covers f)
    (hask : ∀ n : Notion, n.Of [] [] p.declared → ask n) :
    Uniform ask (fun mode => Semantics.conjecture ⟨mode, tl⟩ p) (fun _ => True) := by
  have hposts : Uniform ask
      (fun mode => each (Semantics.postcondition ⟨mode, tl⟩) p.functions)
      (List.Forall₂ (fun _ _ => True) p.functions) :=
    .each fun f hf => Semantics.uniform_postcondition (hp.functions f hf) (hcovers f hf)
      fun n hn => hask n (hn.mono (List.Subset.refl _) (List.Subset.refl _)
        fun x hx => List.mem_flatMap.mpr ⟨f, hf, hx⟩)
  refine .bind hposts.outcome fun posts hposts => ?_
  have hnil (mode : TraceMode) :
      (posts mode).filterMap id = [] ↔ ∀ f ∈ p.functions, f.postcondition = none := by
    obtain ⟨_, houtcome⟩ := hposts mode
    exact Semantics.postconditions_eq_nil_iff hcovers houtcome
  by_cases hnone : ∀ f ∈ p.functions, f.postcondition = none
  · simp only [fun mode => (hnil mode).mpr hnone]
    exact .truth hask false
  · have hparts (mode : TraceMode) : ∃ part parts, (posts mode).filterMap id = part :: parts :=
      List.exists_cons_of_ne_nil fun heq => hnone ((hnil mode).mp heq)
    choose part parts hparts using hparts
    simp only [hparts]
    exact .pure fun _ => trivial

omit hp in
/-- What is asked for before anything is built are sorts, not symbols. -/
theorem uniform_prepare {ask : Notion → Prop} : Uniform ask TraceMode.prepare (fun _ => True) :=
  .sorts (fun _ => List.subset_append_right _ _) fun _ => trivial

/-- The problem of a formed program. -/
theorem uniform_posed (hcovers : ∀ f ∈ p.functions, tl.Covers f) :
    Uniform (Notion.OfProgram p) (fun mode => Semantics.posed ⟨mode, tl⟩ p) (fun _ => True) := by
  refine .bind uniform_prepare fun _ _ => .bind (hp.uniform_program hcovers) fun _ _ => ?_
  refine .bind (hp.uniform_conjecture hcovers fun n hn => ?_) fun _ _ => .pure fun _ => trivial
  exact hn.mono (List.nil_subset _) (List.nil_subset _) (List.Subset.refl _)

/-- The timeline and the problem of a formed program. -/
theorem uniform_build :
    Uniform (Notion.OfProgram p) (fun mode => p.build mode) (fun _ => True) := by
  refine .bind uniform_prepare fun _ _ => .bind_const hp.uniform_ofProgram fun tl htl _ => ?_
  exact hp.uniform_posed (covers_of_locateFunctions hp.apart.1 hp.apart.2 htl).1

/-- A formed program has a problem. -/
theorem exists_build (mode : TraceMode) : ∃ problem, (p.build mode).outcome = .ok problem := by
  obtain ⟨_, _, hbuild⟩ := hp.uniform_build
  obtain ⟨_, problem, houtcome, _⟩ := hbuild mode
  exact ⟨problem, houtcome⟩

/-- Generation succeeds if and only if no name is asked to stand for two symbols. What is asked for
belongs to the program, and only its symbols depend on the number of traces. -/
theorem generate_isOk_iff :
    ∃ notions : List Notion, (∀ n ∈ notions, n.OfProgram p) ∧ ∀ mode schedule,
      (∃ g, p.generate mode schedule = .ok g) ↔ Coherent (notions.map (Notion.symbol mode)) := by
  obtain ⟨notions, hnotions, hbuild⟩ := hp.uniform_build
  refine ⟨notions, hnotions, fun mode schedule => ?_⟩
  obtain ⟨⟨hsymbols, _⟩, problem, houtcome, _⟩ := hbuild mode
  rw [generate_isOk_iff_coherent houtcome, hsymbols]

end Program.Formed

end TraceLogic
