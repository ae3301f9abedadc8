import TraceLogic.Proofs.Adequacy
import TraceLogic.Proofs.Realization
import Mathlib.Data.List.Pairwise

/-!
# Satisfiability of the axioms

The axioms of a program speak about both blocks of every branch and about all iterations of every
loop. So they can be satisfied together with given stores at the starts of the functions if and only
if the speculative executions from these stores converge: an interpretation contains such
executions, and converging executions of all functions can be put together into one interpretation.
The functions share the symbols of their variables, but only constants have the same value at all
moments.
-/

namespace TraceLogic

open Construction Statement

/-! ## Constants -/

namespace Store

/-- A store with the constants of another one. -/
def withConstants (κ σ : Store) : Store where
  scalar x := if x.isConstant then κ.scalar x else σ.scalar x
  array x := if x.isConstant then κ.array x else σ.array x

/-- Whether a store has given values of all constants. -/
def KeepsConstants (κ σ : Store) : Prop := ∀ x : Variable, x.isConstant = true → AgreeAt x σ κ

/-- A store that was given constants has them. -/
theorem keepsConstants_withConstants (κ σ : Store) : KeepsConstants κ (withConstants κ σ) := by
  intro x hx
  simp [AgreeAt, withConstants, hx]

/-- Assignments in scope change no constant. -/
theorem KeepsConstants.assign {κ σ : Store} {vars : List Variable} {target : Target Variable}
    (value : IntExpr Variable) (htarget : target.Scoped vars) (h : KeepsConstants κ σ) :
    KeepsConstants κ (σ.assign target value) := by
  intro x hx
  have hne : x ≠ target.written := by
    rintro rfl
    cases target with
    | scalar y => exact absurd hx (by simp [Target.written, htarget.2.2])
    | element a index => exact absurd hx (by simp [Target.written, htarget.1.2.2])
  exact (agreeAt_assign_of_ne σ target value hne).trans (h x hx)

/-- A store that has the given constants already does not change in scope. -/
theorem agreeAt_withConstants {κ σ : Store} {vars : List Variable}
    (h : ∀ x ∈ vars, x.isConstant = true → AgreeAt x σ κ) :
    ∀ x ∈ vars, AgreeAt x σ (withConstants κ σ) := by
  intro x hx
  cases hconstant : x.isConstant with
  | true => exact (h x hx hconstant).trans (keepsConstants_withConstants κ σ x hconstant).symm
  | false => simp [AgreeAt, withConstants, hconstant]

end Store

/-! ## The interpretation of a chronicle -/

namespace Interpretation

/-- The iterations that arguments stand for. -/
def timesOf {τ : SortSymbol → Type} (args : List (Value τ)) : List Nat :=
  args.map fun v => match v with
    | .time n => n
    | _ => 0

/-- The iterations that moments stand for are the moments. -/
@[simp]
theorem timesOf_map_time {τ : SortSymbol → Type} (ι : List Nat) :
    timesOf (ι.map (.time : Nat → Value τ)) = ι := by
  simp [timesOf, Function.comp_def]

/-- The interpretation with the moments, stores and last iterations of a chronicle, and with given
constants. -/
def ofChronicle (loops : List String) (κ : Store) (C : Chronicle) : Interpretation fun _ => Unit :=
  .ofValues
    (fun name args => match args with
      | [] => κ.scalar ⟨name, false, true⟩
      | [.time n] => (C.store n).scalar ⟨name, false, false⟩
      | [.int i] => κ.array ⟨name, true, true⟩ i
      | [.time n, .int i] => (C.store n).array ⟨name, true, false⟩ i
      | _ => 0)
    (fun name args => match loops.find? (fun l => lastName l = name) with
      | some l => C.last l (timesOf args)
      | none => C.moment ⟨name, timesOf args⟩)

variable {loops : List String} {κ : Store} {C : Chronicle}

/-- The interpretation has the moments of the chronicle at all names that are not those of last
iterations. -/
theorem moment_ofChronicle {q : Point} (hq : ∀ l ∈ loops, lastName l ≠ q.location) :
    (ofChronicle loops κ C).moment q = C.moment q := by
  have hnone : loops.find? (fun l => lastName l = q.location) = none := by
    simpa using hq
  simp only [moment, ofChronicle, ofValues, hnone, timesOf_map_time]

/-- The interpretation ends every loop where the chronicle does. -/
theorem lastIteration_ofChronicle {location : String} (hlocation : location ∈ loops)
    (ι : List Nat) :
    (ofChronicle loops κ C).lastIteration [] location ι = C.last location ι := by
  have hsome : loops.find? (fun l => lastName l = lastName location) = some location := by
    cases hfind : loops.find? (fun l => lastName l = lastName location) with
    | none =>
      have hnone := List.find?_eq_none.mp hfind location hlocation
      simp at hnone
    | some l =>
      have hl := List.find?_some hfind
      rw [lastName_injective (of_decide_eq_true hl)]
  simp only [lastIteration, ofChronicle, ofValues, hsome, List.append_nil, timesOf_map_time]

/-- The interpretation has the given constants at every moment. -/
theorem agreeAt_ofChronicle_of_isConstant {x : Variable} (hx : x.isConstant = true) (n : Nat) :
    Store.AgreeAt x ((ofChronicle loops κ C).storeAt [] n) κ := by
  obtain ⟨name, isArray, isConstant⟩ := x
  cases isArray <;> simp_all [Store.AgreeAt, storeAt, timeValues, ofChronicle, ofValues]

/-- A moment of the interpretation has the store of the chronicle. -/
theorem agreeAt_ofChronicle {n : Nat} (hn : Store.KeepsConstants κ (C.store n)) (x : Variable) :
    Store.AgreeAt x ((ofChronicle loops κ C).storeAt [] n) (C.store n) := by
  cases hconstant : x.isConstant with
  | true => exact (agreeAt_ofChronicle_of_isConstant hconstant n).trans (hn x hconstant).symm
  | false =>
    obtain ⟨name, isArray, isConstant⟩ := x
    cases isArray <;> simp_all [Store.AgreeAt, storeAt, timeValues, ofChronicle, ofValues]

section

variable {p : Program} {f : Function} {q : Point}

/-- The interpretation has the moments of the chronicle at all points of a program. -/
theorem moment_ofChronicle_of_inBlock (hp : p.Formed) (hf : f ∈ p.functions)
    (hq : Chronicle.InBlock [] f.endPoint f.statements q) :
    (ofChronicle p.loops κ C).moment q = C.moment q :=
  moment_ofChronicle fun _ => hp.lastName_ne_location hf hq

/-- The interpretation has the stores of the chronicle at all points of a function, as far as its
variables go. -/
theorem storeAt_ofChronicle (hp : p.Formed) (hf : f ∈ p.functions)
    (hkeeps : ∀ q, Store.KeepsConstants κ (C.storeAt q))
    (hq : Chronicle.InBlock [] f.endPoint f.statements q) :
    ((ofChronicle p.loops κ C).chronicle [] f.declared).storeAt q =
      (C.storeAt q).restrict f.declared := by
  rw [storeAt_chronicle, moment_ofChronicle_of_inBlock hp hf hq]
  exact Store.merge_eq_merge_iff.mpr fun x _ => agreeAt_ofChronicle (hkeeps q) x

/-- What a chronicle obeys is obeyed by the chronicle of its interpretation. -/
theorem blockObeys_ofChronicle (hp : p.Formed) (hf : f ∈ p.functions)
    (hkeeps : ∀ q, Store.KeepsConstants κ (C.storeAt q))
    (h : C.BlockObeys [] f.endPoint f.statements) :
    ((ofChronicle p.loops κ C).chronicle [] f.declared).BlockObeys [] f.endPoint f.statements := by
  refine h.transfer (Store.restrict f.declared) (fun σ target value htarget hvalue => ?_)
    (fun σ c hc => Store.test_merge σ .zero hc) (hp.functions f hf).statements
    (fun q hq => storeAt_ofChronicle hp hf hkeeps hq) (fun q q' hq hq' hsame => ?_)
    (fun l hl ι _ => ?_)
  · exact (Store.assign_merge σ .zero htarget hvalue).symm
  · change (ofChronicle p.loops κ C).moment q = (ofChronicle p.loops κ C).moment q'
    rw [moment_ofChronicle_of_inBlock hp hf hq, moment_ofChronicle_of_inBlock hp hf hq', hsame]
  · have hloop : l ∈ p.loops := List.mem_flatMap.mpr ⟨f, hf, hl⟩
    exact lastIteration_ofChronicle (κ := κ) hloop ι

end

end Interpretation

/-! ## All functions at once -/

namespace Program

variable {p : Program}

/-- The function that a location belongs to. -/
def owner? (p : Program) (location : String) : Option Function :=
  p.functions.find? fun f => decide (location ∈ f.locations)

/-- A location belongs to the only function that has it. -/
theorem Formed.owner?_eq (hp : p.Formed) {f : Function} (hf : f ∈ p.functions) {location : String}
    (hlocation : location ∈ f.locations) : p.owner? location = some f := by
  unfold owner?
  cases hfind : p.functions.find? (fun f => decide (location ∈ f.locations)) with
  | none =>
    have hnone := List.find?_eq_none.mp hfind f hf
    simp [hlocation] at hnone
  | some g =>
    have hg : g ∈ p.functions := List.mem_of_find?_eq_some hfind
    have hlocation' : location ∈ g.locations := by simpa using List.find?_some hfind
    have hdisjoint := (List.nodup_flatMap.mp hp.locations_nodup).2
    have hsymm : Std.Symm (Function.onFun List.Disjoint Function.locations) := ⟨fun _ _ h => h.symm⟩
    by_contra hne
    have hgf : g ≠ f := fun heq => hne (congrArg some heq)
    exact hdisjoint.forall hg hf hgf hlocation' hlocation

/-- Chronicles of the functions of a program can be put together into one. -/
theorem Formed.exists_chronicle (hp : p.Formed) {κ : Store} {σ : Function → Store}
    (h : ∀ f ∈ p.functions, ∃ τ, Chronicle.Realized (Store.KeepsConstants κ) [] f.endPoint
      f.statements (σ f) τ) :
    ∃ C : Chronicle, (∀ q, Store.KeepsConstants κ (C.storeAt q)) ∧ ∀ f ∈ p.functions,
      C.BlockObeys [] f.endPoint f.statements ∧
        C.storeAt (blockStart [] f.endPoint f.statements) = σ f := by
  have hchoice : ∀ f, ∃ stores last, f ∈ p.functions →
      (∀ q, Store.KeepsConstants κ (stores q)) ∧
        (Chronicle.ofStores stores last).BlockObeys [] f.endPoint f.statements ∧
        stores (blockStart [] f.endPoint f.statements) = σ f := by
    intro f
    by_cases hf : f ∈ p.functions
    · obtain ⟨_, stores, last, hkeeps, hobeys, hstart, _⟩ := h f hf
      exact ⟨stores, last, fun _ => ⟨hkeeps, hobeys, hstart⟩⟩
    · exact ⟨fun _ => .zero, fun _ _ => 0, fun hmem => absurd hmem hf⟩
  choose stores last hfunctions using hchoice
  -- every point belongs to one function, which gives it its store
  let together (q : Point) : Store :=
    match p.owner? q.location with
    | some f => stores f q
    | none => .withConstants κ .zero
  let lastTogether (location : String) (ι : List Nat) : Nat :=
    match p.owner? location with
    | some f => last f location ι
    | none => 0
  have heq : ∀ f ∈ p.functions, ∀ q, Chronicle.InBlock [] f.endPoint f.statements q →
      together q = stores f q := by
    intro f hf q hq
    simp only [together, hp.owner?_eq hf hq.location_mem]
  refine ⟨.ofStores together lastTogether, fun q => ?_, fun f hf => ⟨?_, ?_⟩⟩
  · rw [Chronicle.storeAt_ofStores]
    simp only [together]
    split
    · rename_i f hf
      exact (hfunctions f (List.mem_of_find?_eq_some hf)).1 q
    · exact Store.keepsConstants_withConstants κ .zero
  · refine (hfunctions f hf).2.1.of_stores (hp.functions f hf).statements (heq f hf)
      fun l hl ι _ => ?_
    have hlocation : l ∈ f.locations := List.mem_cons_of_mem _ (blockLoops_subset _ hl)
    simp only [lastTogether, hp.owner?_eq hf hlocation]
  · rw [Chronicle.storeAt_ofStores, heq f hf _ Chronicle.inBlock_blockStart]
    exact (hfunctions f hf).2.2

/-- Converging speculative executions of all functions are contained in one interpretation. -/
theorem Formed.exists_interpretation (hp : p.Formed) {κ : Store} {σ : Function → Store}
    (hconstants : ∀ f ∈ p.functions, ∀ x ∈ f.declared, x.isConstant = true →
      Store.AgreeAt x (σ f) κ)
    (hconverges : ∀ f ∈ p.functions, ∃ τ, Speculates f.statements (σ f) τ) :
    ∃ M : Interpretation fun _ => Unit,
      (∀ x : Variable, x.isConstant = true → ∀ n, Store.AgreeAt x (M.storeAt [] n) κ) ∧
      ∀ f ∈ p.functions, (M.chronicle [] f.declared).BlockObeys [] f.endPoint f.statements ∧
        (M.chronicle [] f.declared).storeAt (blockStart [] f.endPoint f.statements) =
          (σ f).restrict f.declared := by
  have hrealized : ∀ f ∈ p.functions, ∃ τ, Chronicle.Realized (Store.KeepsConstants κ) []
      f.endPoint f.statements (.withConstants κ (σ f)) τ := by
    intro f hf
    obtain ⟨τ, hτ⟩ := hconverges f hf
    have hagree := Store.agreeAt_withConstants (hconstants f hf)
    have hspeculates := hτ.merge (hp.functions f hf).statements (.withConstants κ (σ f))
    rw [Store.merge_eq_merge_iff.mpr hagree, Store.merge_self] at hspeculates
    exact ⟨_, hspeculates.realized (fun _ _ value => .assign value) (hp.functions f hf).statements
      (Store.keepsConstants_withConstants κ (σ f)) (hp.function_locations_nodup hf)⟩
  obtain ⟨C, hkeeps, hfunctions⟩ := hp.exists_chronicle hrealized
  refine ⟨.ofChronicle p.loops κ C,
    fun x hx n => Interpretation.agreeAt_ofChronicle_of_isConstant hx n, fun f hf => ?_⟩
  obtain ⟨hobeys, hstart⟩ := hfunctions f hf
  refine ⟨Interpretation.blockObeys_ofChronicle hp hf hkeeps hobeys, ?_⟩
  rw [Interpretation.storeAt_ofChronicle hp hf hkeeps Chronicle.inBlock_blockStart, hstart]
  have hagree := Store.agreeAt_withConstants (hconstants f hf)
  exact Store.merge_eq_merge_iff.mpr fun x hx => (hagree x hx).symm

end Program

/-- Execution from the store of the variables in scope is execution from the whole store. -/
theorem Statement.Speculates.of_restrict {vars : List Variable} {loops : List String}
    {b : List Statement} {σ τ : Store} (h : Speculates b (σ.restrict vars) τ)
    (hb : BlockFormed vars loops b) : Speculates b σ (Store.merge vars τ σ) := by
  have hmerge := h.merge hb σ
  rwa [Store.restrict, Store.merge_merge, Store.merge_self] at hmerge

/-- Whether an interpretation gives chosen stores to functions where their first statements
start. -/
def Interpretation.StartsIn {τ : SortSymbol → Type} (M : Interpretation τ) (tl : Timeline)
    (functions : List Function) (σ : Function → Store) : Prop :=
  ∀ f ∈ functions, ∀ start, tl.functionStart? f = some start →
    M.storeOf f start = (σ f).restrict f.declared

/-- The axioms of a program can be satisfied with given constants and with given stores at the
starts of its functions if and only if the speculative execution of every function from its store
converges. -/
theorem axioms_satisfiable_iff {source : String} {p : Program}
    (hload : Program.load source = .ok p) {tl : Timeline} {v w : Vocabulary} {axioms : List Formula}
    (hlocate : p.locate .one = .ok (tl, v))
    (haxioms : (Semantics.program ⟨.one, tl⟩ p).run v = (.ok axioms, w)) {κ : Store}
    {σ : Function → Store}
    (hconstants : ∀ f ∈ p.functions, f.statements ≠ [] → ∀ x ∈ f.declared, x.isConstant = true →
      Store.AgreeAt x (σ f) κ) :
    ((∃ (τ : SortSymbol → Type) (M : Interpretation τ),
      (∀ φ ∈ axioms, M.Satisfies φ) ∧ M.StartsIn tl p.functions σ) ↔
      ∀ f ∈ p.functions, f.statements ≠ [] → ∃ τ, Speculates f.statements (σ f) τ) ∧
    ((∀ f ∈ p.functions, f.statements ≠ [] → ∃ τ, Speculates f.statements (σ f) τ) →
      ∃ M : Interpretation fun _ => Unit,
        (∀ x : Variable, x.isConstant = true → ∀ n, Store.AgreeAt x (M.storeAt [] n) κ) ∧
        (∀ φ ∈ axioms, M.Satisfies φ) ∧ M.StartsIn tl p.functions σ) := by
  have hp := Program.formed_of_load hload
  have hcovers := hp.covers hlocate
  obtain ⟨houtcome, _⟩ := run_eq_ok.mp haxioms
  have hexists : (∀ f ∈ p.functions, f.statements ≠ [] → ∃ τ, Speculates f.statements (σ f) τ) →
      ∃ M : Interpretation fun _ => Unit,
        (∀ x : Variable, x.isConstant = true → ∀ n, Store.AgreeAt x (M.storeAt [] n) κ) ∧
        (∀ φ ∈ axioms, M.Satisfies φ) ∧ M.StartsIn tl p.functions σ := by
    intro hconverges
    -- a function without statements is given the store of the constants
    have hconstants' : ∀ f ∈ p.functions, ∀ x ∈ f.declared, x.isConstant = true →
        Store.AgreeAt x (if f.statements = [] then κ else σ f) κ := by
      intro f hf x hx hconstant
      split
      · simp [Store.AgreeAt]
      · rename_i hstatements
        exact hconstants f hf hstatements x hx hconstant
    have hconverges' : ∀ f ∈ p.functions, ∃ τ,
        Speculates f.statements (if f.statements = [] then κ else σ f) τ := by
      intro f hf
      split
      · rename_i hstatements
        exact ⟨κ, hstatements ▸ .done⟩
      · rename_i hstatements
        exact hconverges f hf hstatements
    obtain ⟨M, hM, hfunctions⟩ := hp.exists_interpretation hconstants' hconverges'
    refine ⟨M, hM, (hp.satisfies_axioms_iff (S := ⟨.one, tl⟩) hcovers houtcome).mpr ?_, ?_⟩
    · rintro f hf _ rfl
      exact (hfunctions f hf).1
    · intro f hf start hfirst
      have hstatements : f.statements ≠ [] := by
        intro hempty
        simp [Timeline.functionStart?, hempty] at hfirst
      obtain rfl := Option.some.inj
        ((hp.functionStart?_eq hcovers hf hstatements).symm.trans hfirst)
      rw [Interpretation.storeOf_blockStartTerm, (hfunctions f hf).2, if_neg hstatements]
  refine ⟨⟨?_, fun hconverges => ?_⟩, hexists⟩
  · rintro ⟨τ, M, hsatisfied, hstores⟩ f hf hstatements
    have hobeys := (hp.satisfies_axioms_iff (S := ⟨.one, tl⟩) hcovers houtcome).mp hsatisfied
    have hspeculates := (Interpretation.run_of_blockObeys (hobeys f hf [] rfl)).1
    rw [hstores f hf _ (hp.functionStart?_eq hcovers hf hstatements)] at hspeculates
    exact ⟨_, hspeculates.of_restrict (hp.functions f hf).statements⟩
  · obtain ⟨M, _, hM⟩ := hexists hconverges
    exact ⟨_, M, hM⟩

/-- The counting function converges from the store of zeros: some interpretation starts in it. -/
theorem axioms_satisfiable_counting :
    ∃ p tl v axioms w, Program.load countingSource = .ok p ∧ p.locate .one = .ok (tl, v) ∧
      (Semantics.program ⟨.one, tl⟩ p).run v = (.ok axioms, w) ∧
      (∀ f ∈ p.functions, f.statements ≠ [] → ∀ x ∈ f.declared, x.isConstant = true →
        Store.AgreeAt x .zero .zero) ∧
      ((∀ φ ∈ axioms, countingModel.Satisfies φ) ∧
        countingModel.StartsIn tl p.functions fun _ => .zero) ∧
      ∀ f ∈ p.functions, f.statements ≠ [] → ∃ τ, Speculates f.statements .zero τ := by
  obtain ⟨tl, v, axioms, w, hlocate, haxioms⟩ := counting_generates
  have hp := Program.formed_of_load load_countingSource
  have hcovers := hp.covers hlocate
  have hconstants : ∀ f ∈ countingProgram.functions, f.statements ≠ [] → ∀ x ∈ f.declared,
      x.isConstant = true → Store.AgreeAt x .zero .zero := by
    intro f _ _ x _ _
    simp [Store.AgreeAt]
  have hsatisfied := countingModel_satisfies hlocate (run_eq_ok.mp haxioms).1
  have hstarts : countingModel.StartsIn tl countingProgram.functions fun _ => .zero := by
    intro f hf start hstart
    have hfirst := hp.functionStart?_eq hcovers hf
    obtain rfl := List.mem_singleton.mp hf
    obtain rfl := Option.some.inj ((hfirst (List.cons_ne_nil _ _)).symm.trans hstart)
    rw [Interpretation.storeOf_blockStartTerm]
    refine Store.merge_eq_merge_iff.mpr fun x hx => ?_
    obtain rfl := List.mem_singleton.mp hx
    rfl
  exact ⟨_, tl, v, axioms, w, load_countingSource, hlocate, haxioms, hconstants,
    ⟨hsatisfied, hstarts⟩,
    (axioms_satisfiable_iff load_countingSource hlocate haxioms hconstants).1.mp
      ⟨_, countingModel, hsatisfied, hstarts⟩⟩

end TraceLogic
