import TraceLogic.Proofs.Chronicle
import TraceLogic.Proofs.Lookup
import TraceLogic.Proofs.Update

/-!
# What the formulas of statements say

The chronicle of an interpretation has the stores that the interpretation gives to moments,
restricted to the variables of a function. The main statement, `holds_block_iff`, says that the
formulas of a block hold in an interpretation if and only if its chronicle obeys the block. It holds
for one trace and for two; in the second case the stores are those of a fixed trace.
-/

namespace TraceLogic

open Construction Interpreted Statement Timeline

variable {τ : SortSymbol → Type}

/-- No name that starts otherwise is that of an iteration. -/
theorem iterationName_ne {location name : String} (h : name.toList.head? ≠ some 'I') :
    "It_" ++ location ≠ name := by
  rintro rfl
  simp at h

/-- Different loops have iterations of different names. -/
theorem iterationName_injective {l m : String} (h : "It_" ++ l = "It_" ++ m) : l = m := by
  rw [← String.toList_inj] at h ⊢
  simpa using h

namespace Interpretation

variable (M : Interpretation τ)

/-! ## Moments -/

/-- The moment that a point stands for. -/
def moment (q : Point) : Nat := M.time q.location (q.iterations.map .time)

/-- The iteration in which a loop ends. -/
def lastIteration (tail : List (Value τ)) (location : String) (ι : List Nat) : Nat :=
  M.time (lastName location) (ι.map .time ++ tail)

/-- The moments of an interpretation with the stores of some variables at them. -/
def chronicle (tail : List (Value τ)) (vars : List Variable) : Chronicle where
  moment := M.moment
  store n := (M.storeAt tail n).restrict vars
  last := M.lastIteration tail

/-- The chronicle has the stores of the interpretation at its moments, as far as the variables
go. -/
theorem storeAt_chronicle (tail : List (Value τ)) (vars : List Variable) (q : Point) :
    (M.chronicle tail vars).storeAt q = (M.storeAt tail (M.moment q)).restrict vars := rfl

/-- Whether a term stands for a moment, whatever position is bound around it. -/
def Denotes (ρ : Assignment τ) (t : Term) (n : Nat) : Prop :=
  ∀ v, M.eval (Function.update ρ "pos" v) t = .time n

/-- Whether an assignment gives the trace and the iterations of the loops around. -/
structure Situated (mode : TraceMode) (tail : List (Value τ)) (loops : List String) (ι : List Nat)
    (ρ : Assignment τ) : Prop where
  trace : M.evalAll ρ mode.traceArgs = tail
  iterations : M.evalAll ρ (loops.map .iteration) = ι.map .time

section

variable {M} {mode : TraceMode} {tail : List (Value τ)} {loops : List String} {ι : List Nat}
  {ρ : Assignment τ} {t : Term} {n : Nat}

/-- A term that denotes a moment has its value. -/
theorem Denotes.eval (h : M.Denotes ρ t n) : M.eval ρ t = .time n := by
  have hself := h (ρ "pos")
  rwa [Function.update_eq_self] at hself

/-- A term that denotes a moment does not change with the position. -/
theorem Denotes.steady (h : M.Denotes ρ t n) : M.Steady ρ t :=
  fun v => (h v).trans h.eval.symm

/-- The store at a term that denotes a moment is the store at the moment. -/
theorem Denotes.pointStore (h : M.Denotes ρ t n) (htrace : M.evalAll ρ mode.traceArgs = tail) :
    M.pointStore mode ρ t = M.storeAt tail n :=
  pointStore_eq htrace h.eval

/-- The trace does not depend on other names. -/
theorem evalAll_traceArgs_update {name : String} (hname : "tr" ≠ name) (v : Value τ) :
    M.evalAll (Function.update ρ name v) mode.traceArgs = M.evalAll ρ mode.traceArgs := by
  cases mode with
  | one => rfl
  | two =>
    simp [TraceMode.traceArgs, evalAll, Interpretation.eval, Symbol.trace, Symbol.bound, hname]

/-- The iterations of loops do not depend on other names. -/
theorem evalAll_iterations_update {name : String} (hname : ∀ l ∈ loops, "It_" ++ l ≠ name)
    (v : Value τ) :
    M.evalAll (Function.update ρ name v) (loops.map .iteration) =
      M.evalAll ρ (loops.map .iteration) := by
  simp only [evalAll_eq_map, List.map_map]
  refine List.map_congr_left fun l hl => ?_
  exact Function.update_of_ne (hname l hl) v ρ

/-- The iteration that has just been bound. -/
theorem denotes_iteration (ρ : Assignment τ) (location : String) (i : Nat) :
    M.Denotes (Function.update ρ ("It_" ++ location) (.time i)) (.iteration location) i := by
  intro v
  have hne : "It_" ++ location ≠ "pos" := iterationName_ne (by decide)
  simp [Interpretation.eval, Term.iteration, Symbol.iteration, Symbol.bound, hne]

namespace Situated

/-- Binding a name that is neither the trace nor an iteration around changes nothing. -/
theorem update (h : M.Situated mode tail loops ι ρ) {name : String} (htrace : "tr" ≠ name)
    (hloops : ∀ l ∈ loops, "It_" ++ l ≠ name) (v : Value τ) :
    M.Situated mode tail loops ι (Function.update ρ name v) :=
  ⟨(evalAll_traceArgs_update htrace v).trans h.trace,
    (evalAll_iterations_update hloops v).trans h.iterations⟩

/-- A position that is bound changes nothing. -/
theorem position (h : M.Situated mode tail loops ι ρ) (v : Value τ) :
    M.Situated mode tail loops ι (Function.update ρ "pos" v) :=
  h.update (by decide) (fun _ _ => iterationName_ne (by decide)) v

/-- An iteration that is bound changes nothing outside of its loop. -/
theorem iteration (h : M.Situated mode tail loops ι ρ) {location : String}
    (hfresh : location ∉ loops) (v : Value τ) :
    M.Situated mode tail loops ι (Function.update ρ ("It_" ++ location) v) := by
  refine h.update (iterationName_ne (by decide)).symm (fun l hl heq => hfresh ?_) v
  exact iterationName_injective heq ▸ hl

/-- The body of a loop is situated inside of the loop. -/
theorem enter (h : M.Situated mode tail loops ι ρ) {location : String} (hfresh : location ∉ loops)
    (i : Nat) :
    M.Situated mode tail (loops ++ [location]) (ι ++ [i])
      (Function.update ρ ("It_" ++ location) (.time i)) := by
  have hloops := h.iteration hfresh (.time i)
  refine ⟨hloops.trace, ?_⟩
  rw [List.map_append, evalAll_append, hloops.iterations, List.map_append]
  simp [evalAll, Interpretation.eval, Term.iteration, Symbol.iteration, Symbol.bound]

/-- A location denotes the moment of its point in the iterations around it. -/
theorem denotes_point (h : M.Situated mode tail loops ι ρ) (location : String) :
    M.Denotes ρ (.point location loops) (M.moment ⟨location, ι⟩) := by
  intro v
  rw [Term.point, Interpretation.eval, (h.position v).iterations]
  exact M.apply_time rfl rfl _

/-- The head of a loop denotes the moment of its point in one more iteration. -/
theorem denotes_loopHead (h : M.Situated mode tail loops ι ρ) (location : String)
    (enclosing : List String) {i : Term} {k : Nat} (hi : M.Denotes ρ i k) :
    M.Denotes ρ (.loopHead location enclosing loops i) (M.moment ⟨location, ι ++ [k]⟩) := by
  intro v
  rw [Term.loopHead, Interpretation.eval, evalAll_append, (h.position v).iterations, evalAll,
    evalAll, hi v]
  have happly := M.apply_time (f := .loopHead location enclosing) rfl rfl
    (ι.map .time ++ [.time k])
  rw [happly, moment, List.map_append]
  rfl

/-- The head of a loop in the iteration after the one that has just been bound. -/
theorem denotes_nextHead (h : M.Situated mode tail loops ι ρ) {location : String}
    (hfresh : location ∉ loops) (enclosing : List String) (i : Nat) :
    M.Denotes (Function.update ρ ("It_" ++ location) (.time i))
      (.loopHead location enclosing loops (.succ (.iteration location)))
      (M.moment ⟨location, ι ++ [i + 1]⟩) := by
  refine (h.iteration hfresh (.time i)).denotes_loopHead location enclosing fun v => ?_
  rw [Term.succ, Interpretation.eval, evalAll, evalAll, denotes_iteration ρ location i v,
    apply_succ]

/-- The term of a statement's start denotes the moment of the point at which it starts. -/
theorem denotes_startTerm (h : M.Situated mode tail loops ι ρ) (s : Statement) :
    M.Denotes ρ (s.startTerm loops) (M.moment (s.startPoint ι)) := by
  cases s with
  | loop site enclosing c body => exact h.denotes_loopHead _ _ (fun _ => M.apply_zero)
  | assign site target value => exact h.denotes_point _
  | branch site c thens elses => exact h.denotes_point _
  | skip site => exact h.denotes_point _

/-- The term of a block's start denotes the moment of the point at which it starts, if that of its
end does. -/
theorem denotes_blockStartTerm (h : M.Situated mode tail loops ι ρ) {stop : Term} {q : Point}
    (hstop : M.Denotes ρ stop (M.moment q)) (b : List Statement) :
    M.Denotes ρ (blockStartTerm loops stop b) (M.moment (blockStart ι q b)) := by
  cases b with
  | nil => exact hstop
  | cons s rest => exact h.denotes_startTerm s

/-- The last iteration of a loop denotes the iteration in which the chronicle ends it. -/
theorem denotes_lastIteration (h : M.Situated mode tail loops ι ρ) {location : String} {t : Term}
    (ht : (mode.lastIteration location loops).outcome = .ok t) :
    M.Denotes ρ t (M.lastIteration tail location ι) := by
  intro v
  obtain rfl := Term.app?_eq_ok ht
  rw [Interpretation.eval, evalAll_append, (h.position v).iterations, (h.position v).trace]
  exact M.apply_time rfl rfl _

end Situated

end

end Interpretation

namespace Semantics

variable {S : Semantics}

/-- The meaning of a block is that of its first statement and that of the rest. -/
theorem block_cons_eq_ok {s : Statement} {rest : List Statement} {fs : List Formula}
    (h : (S.block (s :: rest)).outcome = .ok fs) :
    ∃ g gs, (S.statement s).outcome = .ok g ∧ (S.block rest).outcome = .ok gs ∧ fs = g :: gs := by
  simp only [block, outcome_bind_eq_ok, outcome_pure] at h
  obtain ⟨g, hg, gs, hgs, hcons⟩ := h
  cases hcons
  exact ⟨g, gs, hg, hgs, rfl⟩

end Semantics

namespace Interpretation

variable {M : Interpretation τ} {S : Semantics} {tail : List (Value τ)} {vars : List Variable}
  {loops : List String} {ι : List Nat} {ρ : Assignment τ} {t₁ t₂ : Term} {n₁ n₂ : Nat}

/-! ## Frames -/

/-- A constant has the same value at all moments. -/
theorem agreeAt_of_isConstant {x : Variable} (hx : x.isConstant = true) (n₁ n₂ : Nat) :
    Store.AgreeAt x (M.storeAt tail n₁) (M.storeAt tail n₂) := by
  simp [Store.AgreeAt, storeAt, timeValues, hx]

/-- Variables keep their values between two points if and only if the stores at the two moments
agree at each of them. -/
theorem holds_sameValues (hρ : M.Situated S.mode tail loops ι ρ) (h₁ : M.Denotes ρ t₁ n₁)
    (h₂ : M.Denotes ρ t₂ n₂) {xs : List Variable} {fs : List Formula}
    (h : (S.sameValues t₁ t₂ xs).outcome = .ok fs) :
    (∀ f ∈ fs, M.Holds ρ f) ↔
      ∀ x ∈ xs, Store.AgreeAt x (M.storeAt tail n₁) (M.storeAt tail n₂) := by
  rw [holds_sameValues_point h₁.steady h₂.steady h, h₁.pointStore hρ.trace, h₂.pointStore hρ.trace]

/-- Two moments have the same store if all variables that can change have the same values. -/
theorem holds_frame (hρ : M.Situated S.mode tail loops ι ρ) (h₁ : M.Denotes ρ t₁ n₁)
    (h₂ : M.Denotes ρ t₂ n₂) {set : VariableSet} (hset : ∀ x, x ∈ set ↔ x ∈ vars)
    {fs : List Formula} (h : (S.sameValues t₁ t₂ (Semantics.changing set)).outcome = .ok fs) :
    (∀ f ∈ fs, M.Holds ρ f) ↔
      (M.chronicle tail vars).store n₁ = (M.chronicle tail vars).store n₂ := by
  rw [holds_sameValues hρ h₁ h₂ h]
  simp only [chronicle, Store.restrict, Store.merge_eq_merge_iff]
  constructor
  · intro hsame x hx
    cases hconstant : x.isConstant with
    | true => exact agreeAt_of_isConstant hconstant n₁ n₂
    | false => exact hsame x (Semantics.mem_changing.mpr ⟨(hset x).mpr hx, hconstant⟩)
  · intro hsame x hx
    exact hsame x ((hset x).mp (Semantics.mem_changing.mp hx).1)

/-! ## Statements -/

/-- The formulas of an update say that the target has its new value. -/
theorem holds_update (hρ : M.Situated S.mode tail loops ι ρ) (h₁ : M.Denotes ρ t₁ n₁)
    (h₂ : M.Denotes ρ t₂ n₂) {target : Target Variable} {value : IntExpr Variable}
    (htarget : target.Scoped vars) {fs : List Formula}
    (h : (S.update t₁ t₂ value target).outcome = .ok fs) :
    (∀ f ∈ fs, M.Holds ρ f) ↔
      Store.AgreeAt target.written (M.storeAt tail n₂)
        ((M.storeAt tail n₁).assign target value) := by
  have hupdate := holds_update_point h₁.steady h₂.steady h
  rw [h₁.pointStore hρ.trace, h₂.pointStore hρ.trace] at hupdate
  rw [forall_holds_iff hupdate, Target.conditions_iff htarget]

section

variable {stop : Term} {q : Point} {rest : List Statement} {site : Site} {f : Formula}

/-- The formula of an assignment says that it leads from one store to the next. -/
theorem holds_assign_iff (hnames : (vars.map (·.name)).Nodup) {target : Target Variable}
    {value : IntExpr Variable}
    (hk : S.timeline.Knows vars loops stop (.assign site target value :: rest))
    (hρ : M.Situated S.mode tail loops ι ρ) (hstop : M.Denotes ρ stop (M.moment q))
    (h : (S.statement (.assign site target value)).outcome = .ok f) :
    M.Holds ρ f ↔
      (M.chronicle tail vars).Obeys ι (blockStart ι q rest) (.assign site target value) := by
  rw [Semantics.statement, Semantics.assignment_eq hk] at h
  simp only [outcome_bind_eq_ok, outcome_pure] at h
  obtain ⟨updates, hupdates, frame, hframe, hf⟩ := h
  cases hf
  obtain ⟨⟨htarget, hvalue⟩, _⟩ := hk.formed
  have h₁ := hρ.denotes_point site.location
  have h₂ := hρ.denotes_blockStartTerm hstop rest
  rw [holds_withLabel, holds_conjunction, List.forall_mem_append,
    holds_update hρ h₁ h₂ htarget hupdates, holds_sameValues hρ h₂ h₁ hframe, Chronicle.Obeys]
  simp only [Chronicle.storeAt, chronicle, Store.restrict, Store.assign_merge _ _ htarget hvalue,
    Store.merge_eq_merge_iff]
  constructor
  -- a variable is written, or it is a constant, or it is framed
  · rintro ⟨hwritten, hkept⟩ x hx
    by_cases hxt : x = target.written
    · exact hxt ▸ hwritten
    · have hassign := Store.agreeAt_assign_of_ne (M.storeAt tail (M.moment ⟨site.location, ι⟩))
        target value hxt
      refine Store.AgreeAt.trans ?_ hassign.symm
      cases hconstant : x.isConstant with
      | true => exact agreeAt_of_isConstant hconstant _ _
      | false =>
        have hname : x.name ≠ target.written.name := fun heq =>
          hxt (List.inj_on_of_nodup_map hnames hx htarget.written_mem heq)
        apply hkept
        simp [Semantics.framed, Semantics.mem_changing, hx, hconstant, hname]
  · intro hall
    refine ⟨hall _ htarget.written_mem, fun x hx => ?_⟩
    simp only [Semantics.framed, List.mem_filter, Semantics.mem_changing, VariableSet.mem_inter,
      VariableSet.mem_ofList, decide_eq_true_eq] at hx
    obtain ⟨⟨⟨hx, _⟩, _⟩, hname⟩ := hx
    have hxt : x ≠ target.written := fun heq => hname (congrArg _ heq)
    exact (hall x hx).trans (Store.agreeAt_assign_of_ne _ target value hxt)

/-- The formula of a `skip` says that it takes no time. -/
theorem holds_skip_iff (hk : S.timeline.Knows vars loops stop (.skip site :: rest))
    (hρ : M.Situated S.mode tail loops ι ρ) (hstop : M.Denotes ρ stop (M.moment q))
    (h : (S.statement (.skip site)).outcome = .ok f) :
    M.Holds ρ f ↔ (M.chronicle tail vars).Obeys ι (blockStart ι q rest) (.skip site) := by
  rw [Semantics.statement, Semantics.idle_eq hk] at h
  simp only [outcome_bind_eq_ok, outcome_pure] at h
  obtain ⟨g, hg, hf⟩ := h
  cases hf
  obtain rfl := Formula.equal?_eq_ok hg
  have h₁ := hρ.denotes_point site.location
  have h₂ := hρ.denotes_blockStartTerm hstop rest
  rw [holds_withLabel, Holds, h₁.eval, h₂.eval, Value.time.injEq]
  rfl

/-- A condition in scope has the same truth in the restricted store. -/
theorem test_chronicle {c : BoolExpr Variable} (hc : c.Scoped vars) (n : Nat) :
    ((M.chronicle tail vars).store n).test c = (M.storeAt tail n).test c :=
  Store.test_merge _ _ hc

/-- Implications with one premise hold together if, given the premise, their conclusions do. -/
theorem holds_map_implication (premise : Formula) (fs : List Formula) :
    (∀ f ∈ fs.map (.implication premise), M.Holds ρ f) ↔
      (M.Holds ρ premise → ∀ f ∈ fs, M.Holds ρ f) := by
  simp only [List.forall_mem_map, Holds]
  exact ⟨fun h hpremise f hf => h f hf hpremise, fun h f hf hpremise => h hpremise f hf⟩

/-- A choice is said by two implications, as the formulas say it. -/
theorem eq_ite_iff {α : Type} {test : Bool} {a b c : α} :
    (a = if test then b else c) ↔ (test = true → a = b) ∧ (¬ test = true → a = c) := by
  cases test <;> simp

/-- The joints of a branch say that both blocks start with the store of the branch, and that the
condition selects the store after it. -/
theorem holds_branching_iff {c : BoolExpr Variable} {thens elses : List Statement}
    (hk : S.timeline.Knows vars loops stop (.branch site c thens elses :: rest))
    (hρ : M.Situated S.mode tail loops ι ρ) (hstop : M.Denotes ρ stop (M.moment q))
    {fs : List Formula} (h : (S.branching site c thens elses).outcome = .ok fs) :
    (∀ f ∈ fs, M.Holds ρ f) ↔
      let C := M.chronicle tail vars
      let σ := C.storeAt ⟨site.location, ι⟩
      let left : Point := ⟨leftEnd site.location, ι⟩
      let right : Point := ⟨rightEnd site.location, ι⟩
      (C.storeAt (blockStart ι left thens) = σ ∧ C.storeAt (blockStart ι right elses) = σ) ∧
        C.storeAt (blockStart ι q rest) =
          (if σ.test c then C.storeAt left else C.storeAt right) := by
  rw [Semantics.branching_eq hk] at h
  simp only [outcome_bind_eq_ok, outcome_pure] at h
  obtain ⟨intoLeft, hintoLeft, intoRight, hintoRight, chosen, hchosen, fromLeft, hfromLeft,
    fromRight, hfromRight, hfs⟩ := h
  cases hfs
  -- the moments of the six points that the joints relate
  have hpoint := hρ.denotes_point site.location
  have hnext := hρ.denotes_blockStartTerm hstop rest
  have hleft := hρ.denotes_point (leftEnd site.location)
  have hright := hρ.denotes_point (rightEnd site.location)
  have hleftStart := hρ.denotes_blockStartTerm hleft thens
  have hrightStart := hρ.denotes_blockStartTerm hright elses
  have hsingle : ∀ x, x ∈ VariableSet.ofList vars ↔ x ∈ vars := by simp
  have hinter : ∀ x, x ∈ (VariableSet.ofList vars).inter (.ofList vars) ↔ x ∈ vars := by simp
  have htest := holds_boolFormula hρ.trace hpoint.eval hchosen
  rw [← test_chronicle hk.formed.1.1] at htest
  rw [List.forall_mem_cons, List.forall_mem_singleton, holds_withLabel, holds_withLabel,
    holds_conjunction, holds_conjunction, List.forall_mem_append, List.forall_mem_append,
    holds_map_implication, holds_map_implication, Holds,
    holds_frame hρ hleftStart hpoint hsingle hintoLeft,
    holds_frame hρ hrightStart hpoint hsingle hintoRight,
    holds_frame hρ hnext hleft hinter hfromLeft, holds_frame hρ hnext hright hinter hfromRight,
    htest, ← eq_ite_iff]
  rfl

/-- What is said of all iterations holds if it does for every number of them. -/
theorem holds_forAllIterations (location : String) (f : Formula) :
    M.Holds ρ (.quantified .all [Symbol.iteration location] f) ↔
      ∀ i : Nat, M.Holds (Function.update ρ ("It_" ++ location) (.time i)) f :=
  M.holds_forall_time ρ _ f

/-- An iteration that has just been bound comes before the last one. -/
theorem holds_before_lastIteration (hρ : M.Situated S.mode tail loops ι ρ) {location : String}
    (hfresh : location ∉ loops) {last : Term}
    (hlast : (S.mode.lastIteration location loops).outcome = .ok last) (i : Nat) :
    M.Holds (Function.update ρ ("It_" ++ location) (.time i))
        (.predicate beforeSymbol [.iteration location, last]) ↔
      i < M.lastIteration tail location ι := by
  have hlastNow := ((hρ.iteration hfresh (.time i)).denotes_lastIteration hlast).eval
  rw [Holds, evalAll, evalAll, evalAll, (denotes_iteration ρ location i).eval, hlastNow,
    apply_before, Value.truth.injEq, before_eq_true_iff]

/-- The formula of a loop speaks about all of its iterations. -/
theorem holds_loop_iff {enclosing : List String} {c : BoolExpr Variable} {body : List Statement}
    (hk : S.timeline.Knows vars loops stop (.loop site enclosing c body :: rest))
    (hρ : M.Situated S.mode tail loops ι ρ) (hstop : M.Denotes ρ stop (M.moment q))
    (h : (S.statement (.loop site enclosing c body)).outcome = .ok f)
    (hbody : ∀ {inside : List Formula}, (S.block body).outcome = .ok inside → ∀ i,
      (∀ f ∈ inside, M.Holds (Function.update ρ ("It_" ++ site.location) (.time i)) f) ↔
        (M.chronicle tail vars).BlockObeys (ι ++ [i]) ⟨site.location, ι ++ [i + 1]⟩ body) :
    M.Holds ρ f ↔
      (M.chronicle tail vars).Obeys ι (blockStart ι q rest) (.loop site enclosing c body) := by
  obtain ⟨rfl, hc, _⟩ := hk.formed.1
  rw [Semantics.loop_eq hk] at h
  simp only [outcome_bind_eq_ok, outcome_pure] at h
  obtain ⟨last, hlast, head, hhead, headNow, hheadNow, headLast, hheadLast, entry, hentry, inside,
    hinside, early, hearly, runs, hruns, ends, hends, exit, hexit, hf⟩ := h
  cases hhead
  cases hf
  obtain rfl := Term.app?_eq_ok hheadNow
  obtain rfl := Term.app?_eq_ok hheadLast
  obtain rfl : early = .predicate beforeSymbol [.iteration site.location, last] :=
    Formula.predicate?_eq_ok hearly
  have hfresh := hk.location_not_mem
  have hall : ∀ x, x ∈ VariableSet.ofList vars ↔ x ∈ vars := by simp
  -- the head of the loop in the last iteration, and in every iteration
  have hheadLast := hρ.denotes_loopHead site.location enclosing (hρ.denotes_lastIteration hlast)
  have hheadNow (i : Nat) := (hρ.iteration hfresh (.time i)).denotes_loopHead site.location
    enclosing (denotes_iteration ρ site.location i)
  have hheadNext := hρ.denotes_nextHead hfresh enclosing
  have hentryIff (i : Nat) := holds_frame (hρ.enter hfresh i)
    ((hρ.enter hfresh i).denotes_blockStartTerm (hheadNext i) body) (hheadNow i) hall hentry
  have hrunsIff (i : Nat) := holds_boolFormula (hρ.enter hfresh i).trace (hheadNow i).eval hruns
  have hendsIff := holds_boolFormula hρ.trace hheadLast.eval hends
  have hexitIff := holds_frame hρ (hρ.denotes_blockStartTerm hstop rest) hheadLast hall hexit
  simp only [← test_chronicle hc] at hrunsIff hendsIff
  simp only [holds_withLabel, holds_conjunction, List.forall_mem_cons, List.not_mem_nil,
    false_imp_iff, implies_true, and_true, holds_forAllIterations, holds_implication,
    holds_negation, hendsIff, hexitIff, hentryIff, hbody hinside,
    holds_before_lastIteration hρ hfresh hlast, hrunsIff, Bool.not_eq_true]
  rfl

end

/-- The formulas of a block hold if and only if the chronicle obeys the block. The induction is over
the block, for all iterations of the loops around it. -/
theorem holds_block_iff (hnames : (vars.map (·.name)).Nodup) {b : List Statement} {stop : Term}
    {q : Point} {fs : List Formula} (hk : S.timeline.Knows vars loops stop b)
    (hρ : M.Situated S.mode tail loops ι ρ) (hstop : M.Denotes ρ stop (M.moment q))
    (h : (S.block b).outcome = .ok fs) :
    (∀ f ∈ fs, M.Holds ρ f) ↔ (M.chronicle tail vars).BlockObeys ι q b := by
  induction b using blockInduction generalizing loops ι ρ stop q fs with
  | nil =>
    cases h
    simp [Chronicle.BlockObeys]
  | assign site target value rest ih =>
    obtain ⟨f, fs, hf, hfs, rfl⟩ := Semantics.block_cons_eq_ok h
    rw [List.forall_mem_cons, Chronicle.BlockObeys]
    exact and_congr (holds_assign_iff hnames hk hρ hstop hf) (ih hk.of_rest hρ hstop hfs)
  | skip site rest ih =>
    obtain ⟨f, fs, hf, hfs, rfl⟩ := Semantics.block_cons_eq_ok h
    rw [List.forall_mem_cons, Chronicle.BlockObeys]
    exact and_congr (holds_skip_iff hk hρ hstop hf) (ih hk.of_rest hρ hstop hfs)
  | branch site c thens elses rest ihthens ihelses ih =>
    obtain ⟨f, fs, hf, hfs, rfl⟩ := Semantics.block_cons_eq_ok h
    rw [List.forall_mem_cons, Chronicle.BlockObeys]
    refine and_congr ?_ (ih hk.of_rest hρ hstop hfs)
    simp only [Semantics.statement, outcome_bind_eq_ok, outcome_pure] at hf
    obtain ⟨joints, hjoints, inThens, hinThens, inElses, hinElses, hf⟩ := hf
    cases hf
    rw [holds_withLabel, holds_conjunction, List.forall_mem_append, List.forall_mem_append,
      holds_branching_iff hk hρ hstop hjoints,
      ihthens hk.of_thens hρ (hρ.denotes_point _) hinThens,
      ihelses hk.of_elses hρ (hρ.denotes_point _) hinElses, and_assoc]
    rfl
  | loop site enclosing c body rest ihbody ih =>
    obtain ⟨f, fs, hf, hfs, rfl⟩ := Semantics.block_cons_eq_ok h
    rw [List.forall_mem_cons, Chronicle.BlockObeys]
    have hrest := ih hk.of_rest hρ hstop hfs
    refine and_congr (holds_loop_iff hk hρ hstop hf fun hinside i => ?_) hrest
    have hfresh := hk.location_not_mem
    exact ihbody hk.of_body (hρ.enter hfresh i) (hρ.denotes_nextHead hfresh enclosing i) hinside

end Interpretation

end TraceLogic
