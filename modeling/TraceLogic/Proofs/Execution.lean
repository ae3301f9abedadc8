import TraceLogic.Proofs.Shape

/-!
# Execution of statements

`Statement.Executes` is the ordinary big-step execution of a block. It also records every loop that
it leaves, with the iterations of the loops around it and the number of iterations that were made.

`Statement.Speculates` runs both blocks of every branch, and all iterations of every loop, whether
the condition holds or not. It continues with the store that the condition selects, so that a
speculative execution that converges ends where the ordinary one does.
-/

namespace TraceLogic

/-- A loop that has been left. -/
structure LoopExit where
  /-- The location of the loop. -/
  location : String
  /-- The current iterations of the loops around it, the outermost first. -/
  enclosing : List Nat
  /-- How often the body was executed. -/
  iterations : Nat
deriving DecidableEq

namespace Statement

/-- Ordinary execution of a block inside loops with current iterations `ι`. If the block starts with
a loop, `i` iterations of it have been made already. -/
inductive Executes : (ι : List Nat) → (i : Nat) → List Statement → Store → List LoopExit →
    Store → Prop
  /-- Nothing is left to do. -/
  | done {ι : List Nat} {σ : Store} : Executes ι 0 [] σ [] σ
  /-- An assignment changes its target. -/
  | assign {ι : List Nat} {site : Site} {target : Target Variable} {value : IntExpr Variable}
      {rest : List Statement} {exits : List LoopExit} {σ τ : Store}
      (hrest : Executes ι 0 rest (σ.assign target value) exits τ) :
      Executes ι 0 (.assign site target value :: rest) σ exits τ
  /-- A `skip` changes nothing. -/
  | skip {ι : List Nat} {site : Site} {rest : List Statement} {exits : List LoopExit} {σ τ : Store}
      (hrest : Executes ι 0 rest σ exits τ) : Executes ι 0 (.skip site :: rest) σ exits τ
  /-- A branch executes the block that its condition selects. -/
  | branch {ι : List Nat} {site : Site} {c : BoolExpr Variable} {thens elses rest : List Statement}
      {exits exits' : List LoopExit} {σ σ' τ : Store}
      (hblock : Executes ι 0 (if σ.test c then thens else elses) σ exits σ')
      (hrest : Executes ι 0 rest σ' exits' τ) :
      Executes ι 0 (.branch site c thens elses :: rest) σ (exits ++ exits') τ
  /-- A loop whose condition holds executes its body and starts over. -/
  | again {ι : List Nat} {i : Nat} {site : Site} {enclosing : List String}
      {c : BoolExpr Variable} {body rest : List Statement} {exits exits' : List LoopExit}
      {σ σ' τ : Store} (htest : σ.test c = true)
      (hbody : Executes (ι ++ [i]) 0 body σ exits σ')
      (hloop : Executes ι (i + 1) (.loop site enclosing c body :: rest) σ' exits' τ) :
      Executes ι i (.loop site enclosing c body :: rest) σ (exits ++ exits') τ
  /-- A loop whose condition fails is left. -/
  | leave {ι : List Nat} {i : Nat} {site : Site} {enclosing : List String}
      {c : BoolExpr Variable} {body rest : List Statement} {exits : List LoopExit} {σ τ : Store}
      (htest : σ.test c = false) (hrest : Executes ι 0 rest σ exits τ) :
      Executes ι i (.loop site enclosing c body :: rest) σ (⟨site.location, ι, i⟩ :: exits) τ

/-- Speculative execution of a block. -/
inductive Speculates : List Statement → Store → Store → Prop
  /-- Nothing is left to do. -/
  | done {σ : Store} : Speculates [] σ σ
  /-- An assignment changes its target. -/
  | assign {site : Site} {target : Target Variable} {value : IntExpr Variable}
      {rest : List Statement} {σ τ : Store} (hrest : Speculates rest (σ.assign target value) τ) :
      Speculates (.assign site target value :: rest) σ τ
  /-- A `skip` changes nothing. -/
  | skip {site : Site} {rest : List Statement} {σ τ : Store} (hrest : Speculates rest σ τ) :
      Speculates (.skip site :: rest) σ τ
  /-- Both blocks of a branch converge, and the condition selects one of the results. -/
  | branch {site : Site} {c : BoolExpr Variable} {thens elses rest : List Statement}
      {σ left right τ : Store} (hthens : Speculates thens σ left)
      (helses : Speculates elses σ right)
      (hrest : Speculates rest (if σ.test c then left else right) τ) :
      Speculates (.branch site c thens elses :: rest) σ τ
  /-- The body of a loop converges from every store of the infinite sequence that it gives rise to,
  and the condition fails at some store of the sequence. The first such store is the result. -/
  | loop {site : Site} {enclosing : List String} {c : BoolExpr Variable}
      {body rest : List Statement} {τ : Store} (states : Nat → Store) (n : Nat)
      (hbody : ∀ i, Speculates body (states i) (states (i + 1)))
      (hruns : ∀ i < n, (states i).test c = true) (hends : (states n).test c = false)
      (hrest : Speculates rest (states n) τ) :
      Speculates (.loop site enclosing c body :: rest) (states 0) τ

/-- The first index at which a test fails is unique. -/
theorem first_failure_unique {test : Nat → Bool} {m n : Nat} (hm : ∀ i < m, test i = true)
    (hm' : test m = false) (hn : ∀ i < n, test i = true) (hn' : test n = false) : m = n := by
  rcases Nat.lt_trichotomy m n with hlt | heq | hgt
  · exact absurd (hn m hlt) (by simp [hm'])
  · exact heq
  · exact absurd (hm n hgt) (by simp [hn'])

/-- Ordinary execution has at most one result. -/
theorem Executes.deterministic {ι : List Nat} {i : Nat} {b : List Statement}
    {exits exits' : List LoopExit} {σ τ τ' : Store} (h : Executes ι i b σ exits τ)
    (h' : Executes ι i b σ exits' τ') : exits = exits' ∧ τ = τ' := by
  induction h generalizing exits' τ' with
  | done =>
    cases h'
    exact ⟨rfl, rfl⟩
  | assign _ ih =>
    cases h' with
    | assign hrest' => exact ih hrest'
  | skip _ ih =>
    cases h' with
    | skip hrest' => exact ih hrest'
  | branch _ _ ihblock ihrest =>
    cases h' with
    | branch hblock' hrest' =>
      obtain ⟨rfl, rfl⟩ := ihblock hblock'
      obtain ⟨rfl, rfl⟩ := ihrest hrest'
      exact ⟨rfl, rfl⟩
  | again htest _ _ ihbody ihloop =>
    cases h' with
    | again _ hbody' hloop' =>
      obtain ⟨rfl, rfl⟩ := ihbody hbody'
      obtain ⟨rfl, rfl⟩ := ihloop hloop'
      exact ⟨rfl, rfl⟩
    | leave htest' _ => simp [htest] at htest'
  | leave htest _ ih =>
    cases h' with
    | again htest' _ _ => simp [htest] at htest'
    | leave _ hrest' =>
      obtain ⟨rfl, rfl⟩ := ih hrest'
      exact ⟨rfl, rfl⟩

/-- Speculative execution has at most one result. -/
theorem Speculates.deterministic {b : List Statement} {σ τ τ' : Store} (h : Speculates b σ τ)
    (h' : Speculates b σ τ') : τ = τ' := by
  induction h generalizing τ' with
  | done =>
    cases h'
    rfl
  | assign _ ih =>
    cases h' with
    | assign hrest' => exact ih hrest'
  | skip _ ih =>
    cases h' with
    | skip hrest' => exact ih hrest'
  | branch _ _ _ ihthens ihelses ihrest =>
    cases h' with
    | branch hthens' helses' hrest' =>
      obtain rfl := ihthens hthens'
      obtain rfl := ihelses helses'
      exact ihrest hrest'
  | @loop site enclosing c body rest τ states n _ hruns hends _ ihbody ihrest =>
    generalize hstart : states 0 = σ at h'
    cases h' with
    | loop states' n' hbody' hruns' hends' hrest' =>
      -- the stores at the head are the same in every iteration, so the first failure is as well
      have hstates : ∀ i, states i = states' i := by
        intro i
        induction i with
        | zero => exact hstart
        | succ i ih => exact ihbody i (ih ▸ hbody' i)
      obtain rfl : states = states' := funext hstates
      obtain rfl := first_failure_unique hruns hends hruns' hends'
      exact ihrest hrest'

/-- Ordinary execution in which every loop is left in a way that is allowed. -/
def ExecutesWithin (allowed : LoopExit → Prop) (ι : List Nat) (i : Nat) (b : List Statement)
    (σ τ : Store) : Prop :=
  ∃ exits, Executes ι i b σ exits τ ∧ ∀ e ∈ exits, allowed e

section

variable {allowed : LoopExit → Prop} {ι : List Nat}

/-- The empty block leaves no loop. -/
theorem ExecutesWithin.done (σ : Store) : ExecutesWithin allowed ι 0 [] σ σ :=
  ⟨[], .done, by simp⟩

/-- An assignment leaves no loop. -/
theorem ExecutesWithin.assign {site : Site} {target : Target Variable} {value : IntExpr Variable}
    {rest : List Statement} {σ τ : Store}
    (hrest : ExecutesWithin allowed ι 0 rest (σ.assign target value) τ) :
    ExecutesWithin allowed ι 0 (.assign site target value :: rest) σ τ := by
  obtain ⟨exits, hrest, hallowed⟩ := hrest
  exact ⟨exits, .assign hrest, hallowed⟩

/-- A skip leaves no loop. -/
theorem ExecutesWithin.skip {site : Site} {rest : List Statement} {σ τ : Store}
    (hrest : ExecutesWithin allowed ι 0 rest σ τ) :
    ExecutesWithin allowed ι 0 (.skip site :: rest) σ τ := by
  obtain ⟨exits, hrest, hallowed⟩ := hrest
  exact ⟨exits, .skip hrest, hallowed⟩

/-- A branch whose blocks can both be executed goes on after the one that is taken. -/
theorem ExecutesWithin.branch {site : Site} {c : BoolExpr Variable}
    {thens elses rest : List Statement} {σ left right τ : Store}
    (hthens : ExecutesWithin allowed ι 0 thens σ left)
    (helses : ExecutesWithin allowed ι 0 elses σ right)
    (hrest : ExecutesWithin allowed ι 0 rest (if σ.test c then left else right) τ) :
    ExecutesWithin allowed ι 0 (.branch site c thens elses :: rest) σ τ := by
  have hblock : ExecutesWithin allowed ι 0 (if σ.test c then thens else elses) σ
      (if σ.test c then left else right) := by
    split
    · exact hthens
    · exact helses
  obtain ⟨exits, hblock, hallowed⟩ := hblock
  obtain ⟨exits', hrest, hallowed'⟩ := hrest
  refine ⟨exits ++ exits', .branch hblock hrest, fun e he => ?_⟩
  rcases List.mem_append.mp he with he | he
  · exact hallowed e he
  · exact hallowed' e he

/-- A loop runs through the stores of a sequence up to the first one at which its condition fails.
The induction is on the number of iterations that are left. -/
theorem ExecutesWithin.loop {site : Site} {enclosing : List String} {c : BoolExpr Variable}
    {body rest : List Statement} {τ : Store} (states : Nat → Store) {n : Nat}
    (hbody : ∀ i < n, ExecutesWithin allowed (ι ++ [i]) 0 body (states i) (states (i + 1)))
    (hruns : ∀ i < n, (states i).test c = true) (hends : (states n).test c = false)
    (hexit : allowed ⟨site.location, ι, n⟩) (hrest : ExecutesWithin allowed ι 0 rest (states n) τ) :
    ExecutesWithin allowed ι 0 (.loop site enclosing c body :: rest) (states 0) τ := by
  have hfrom : ∀ left i, i + left = n →
      ExecutesWithin allowed ι i (.loop site enclosing c body :: rest) (states i) τ := by
    intro left
    induction left with
    | zero =>
      intro i hi
      obtain rfl : i = n := by omega
      obtain ⟨exits, hrest, hallowed⟩ := hrest
      exact ⟨_, .leave hends hrest, List.forall_mem_cons.mpr ⟨hexit, hallowed⟩⟩
    | succ left ih =>
      intro i hi
      obtain ⟨exits, hblock, hallowed⟩ := hbody i (by omega)
      obtain ⟨exits', hloop, hallowed'⟩ := ih (i + 1) (by omega)
      refine ⟨exits ++ exits', .again (hruns i (by omega)) hblock hloop, fun e he => ?_⟩
      rcases List.mem_append.mp he with he | he
      · exact hallowed e he
      · exact hallowed' e he
  exact hfrom n 0 (by omega)

end

/-- A speculative execution that converges ends where the ordinary execution does. -/
theorem Speculates.executes {b : List Statement} {σ τ : Store} (h : Speculates b σ τ)
    (ι : List Nat) : ExecutesWithin (fun _ => True) ι 0 b σ τ := by
  induction h generalizing ι with
  | done => exact .done _
  | assign _ ih => exact .assign (ih ι)
  | skip _ ih => exact .skip (ih ι)
  | branch _ _ _ ihthens ihelses ihrest => exact .branch (ihthens ι) (ihelses ι) (ihrest ι)
  | loop states n _ hruns hends _ ihbody ihrest =>
    exact .loop states (fun i _ => ihbody i _) hruns hends trivial (ihrest ι)

/-- Speculative execution does not depend on variables that are out of scope, and does not change
them. -/
theorem Speculates.merge {vars : List Variable} {b : List Statement} {σ τ : Store}
    (h : Speculates b σ τ) {loops : List String} (hb : BlockFormed vars loops b) (υ : Store) :
    Speculates b (Store.merge vars σ υ) (Store.merge vars τ υ) := by
  induction h generalizing loops with
  | done => exact .done
  | @assign site target value rest σ τ _ ih =>
    obtain ⟨⟨htarget, hvalue⟩, hrest⟩ := hb
    apply Speculates.assign
    rw [Store.assign_merge σ υ htarget hvalue]
    exact ih hrest
  | skip _ ih => exact .skip (ih hb.2)
  | @branch site c thens elses rest σ left right τ _ _ _ ihthens ihelses ihrest =>
    obtain ⟨⟨hc, ⟨_, hthens⟩, _, helses⟩, hrest⟩ := hb
    refine .branch (ihthens hthens) (ihelses helses) ?_
    rw [Store.test_merge σ υ hc, ← apply_ite (Store.merge vars · υ)]
    exact ihrest hrest
  | @loop site enclosing c body rest τ states n _ hruns hends _ ihbody ihrest =>
    obtain ⟨⟨_, hc, _, hbody⟩, hrest⟩ := hb
    refine .loop (fun i => Store.merge vars (states i) υ) n (fun i => ihbody i hbody) ?_ ?_
      (ihrest hrest)
    · intro i hi
      rw [Store.test_merge _ υ hc]
      exact hruns i hi
    · rw [Store.test_merge _ υ hc]
      exact hends

end Statement

end TraceLogic
