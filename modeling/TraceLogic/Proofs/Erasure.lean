import TraceLogic.Proofs.Acceptance

/-!
# Programs and their descriptions

A loaded program is its description with sites: erasing them, and reading every variable as its
name, gives back the description, but for the `skip` that has been put into each empty branch and
loop body. `Program.Realizes` says what is added. Statements are numbered in order, loops name the
loops around them, and variables are those that the function declares.
-/

namespace TraceLogic

/-- Replaces the variables of an integer expression. -/
def IntExpr.map {ν μ : Type} (f : ν → μ) : IntExpr ν → IntExpr μ
  | .literal n => .literal n
  | .variable x => .variable (f x)
  | .element a index => .element (f a) (index.map f)
  | .arith op lhs rhs => .arith op (lhs.map f) (rhs.map f)
  | .negate operand => .negate (operand.map f)

mutual

/-- Replaces the variables of a Boolean expression. -/
def BoolExpr.map {ν μ : Type} (f : ν → μ) : BoolExpr ν → BoolExpr μ
  | .constant b => .constant b
  | .compare op lhs rhs => .compare op (lhs.map f) (rhs.map f)
  | .junction op parts => .junction op (BoolExpr.mapAll f parts)
  | .not operand => .not (operand.map f)

/-- Replaces the variables of several Boolean expressions. -/
def BoolExpr.mapAll {ν μ : Type} (f : ν → μ) : List (BoolExpr ν) → List (BoolExpr μ)
  | [] => []
  | b :: rest => b.map f :: BoolExpr.mapAll f rest

end

/-- Replaces the variables of a target. -/
def Target.map {ν μ : Type} (f : ν → μ) : Target ν → Target μ
  | .scalar x => .scalar (f x)
  | .element a index => .element (f a) (index.map f)

mutual

/-- A statement as it is written. -/
def Statement.erase : Statement → Description.Command
  | .assign _ target value => .assign (target.map (·.name)) (value.map (·.name))
  | .branch _ condition thenBlock elseBlock =>
    .branch (condition.map (·.name)) (Statement.eraseBlock thenBlock)
      (Statement.eraseBlock elseBlock)
  | .loop _ _ condition body => .loop (condition.map (·.name)) (Statement.eraseBlock body)
  | .skip _ => .skip

/-- A block as it is written. -/
def Statement.eraseBlock : List Statement → List Description.Command
  | [] => []
  | s :: rest => s.erase :: Statement.eraseBlock rest

end

/-- A function as it is written. -/
def Function.erase (f : Function) : Description.FunctionEntry where
  name := f.name
  declared := f.declared.map fun x => ⟨x.name, x.isArray, x.isConstant⟩
  commands := Statement.eraseBlock f.statements
  postcondition := f.postcondition.map (·.map (·.name))

/-- A program as it is written. -/
def Program.erase (p : Program) : Description := ⟨p.functions.map Function.erase⟩

namespace Description

mutual

/-- Puts a `skip` into the empty blocks inside a statement. -/
def Command.fill : Command → Command
  | .branch condition thenBlock elseBlock =>
    .branch condition (Command.fillNested thenBlock) (Command.fillNested elseBlock)
  | .loop condition body => .loop condition (Command.fillNested body)
  | .assign target value => .assign target value
  | .skip => .skip

/-- Puts a `skip` into a block inside a statement if it is empty, and into those inside it. -/
def Command.fillNested : List Command → List Command
  | [] => [.skip]
  | c :: rest => c.fill :: Command.fillBlock rest

/-- Puts a `skip` into the empty blocks inside the statements of a block. -/
def Command.fillBlock : List Command → List Command
  | [] => []
  | c :: rest => c.fill :: Command.fillBlock rest

end

/-- The function with a `skip` in each empty branch and loop body. -/
def FunctionEntry.fill (f : FunctionEntry) : FunctionEntry :=
  { f with commands := Command.fillBlock f.commands }

/-- The description with a `skip` in each empty branch and loop body. -/
def fill (d : Description) : Description := ⟨d.functions.map FunctionEntry.fill⟩

namespace Scope

variable {s : Scope}

/-- A resolved integer expression reads as it was written. -/
theorem intExpr_erase : {e : IntExpr String} → {e' : IntExpr Variable} →
    s.intExpr e = .ok e' → e'.map (·.name) = e
  | .literal _, _, h => by
    cases h
    rfl
  | .variable _, _, h => by
    obtain ⟨x, hlookup, h⟩ := bind_eq_ok.mp h
    cases h
    rw [IntExpr.map, (lookup_eq_ok hlookup).2.1]
  | .element _ _, _, h => by
    obtain ⟨a, hlookup, h⟩ := bind_eq_ok.mp h
    obtain ⟨i, hindex, h⟩ := bind_eq_ok.mp h
    cases h
    rw [IntExpr.map, (lookup_eq_ok hlookup).2.1, intExpr_erase hindex]
  | .arith _ _ _, _, h => by
    obtain ⟨l, hl, h⟩ := bind_eq_ok.mp h
    obtain ⟨r, hr, h⟩ := bind_eq_ok.mp h
    cases h
    rw [IntExpr.map, intExpr_erase hl, intExpr_erase hr]
  | .negate _, _, h => by
    obtain ⟨o, ho, h⟩ := bind_eq_ok.mp h
    cases h
    rw [IntExpr.map, intExpr_erase ho]

mutual

/-- A resolved Boolean expression reads as it was written. -/
theorem boolExpr_erase : {b : BoolExpr String} → {b' : BoolExpr Variable} →
    s.boolExpr b = .ok b' → b'.map (·.name) = b
  | .constant _, _, h => by
    cases h
    rfl
  | .compare _ _ _, _, h => by
    obtain ⟨l, hl, h⟩ := bind_eq_ok.mp h
    obtain ⟨r, hr, h⟩ := bind_eq_ok.mp h
    cases h
    rw [BoolExpr.map, intExpr_erase hl, intExpr_erase hr]
  | .junction _ _, _, h => by
    obtain ⟨ps, hps, h⟩ := bind_eq_ok.mp h
    cases h
    rw [BoolExpr.map, boolExprs_erase hps]
  | .not _, _, h => by
    obtain ⟨o, ho, h⟩ := bind_eq_ok.mp h
    cases h
    rw [BoolExpr.map, boolExpr_erase ho]

/-- Resolved conditions read as they were written. -/
theorem boolExprs_erase : {bs : List (BoolExpr String)} → {bs' : List (BoolExpr Variable)} →
    s.boolExprs bs = .ok bs' → BoolExpr.mapAll (·.name) bs' = bs
  | [], _, h => by
    cases h
    rfl
  | _ :: _, _, h => by
    obtain ⟨c, hc, h⟩ := bind_eq_ok.mp h
    obtain ⟨cs, hcs, h⟩ := bind_eq_ok.mp h
    cases h
    rw [BoolExpr.mapAll, boolExpr_erase hc, boolExprs_erase hcs]

end

/-- A resolved target reads as it was written. -/
theorem target_erase {t : Target String} {t' : Target Variable} (h : s.target t = .ok t') :
    t'.map (·.name) = t := by
  cases t with
  | scalar name =>
    obtain ⟨x, hx, h⟩ := bind_eq_ok.mp h
    cases h
    rw [Target.map, (writable_eq_ok hx).2.1]
  | element name index =>
    obtain ⟨a, ha, h⟩ := bind_eq_ok.mp h
    obtain ⟨i, hi, h⟩ := bind_eq_ok.mp h
    cases h
    rw [Target.map, (writable_eq_ok ha).2.1, intExpr_erase hi]

/-- A nested block reads as it was written, with a skip in it if it was empty. -/
theorem nestedBlock_erase {loops : List String} {number : Nat} {cs : List Command}
    {result : List Statement × Nat}
    (hblock : ∀ result, s.block loops number cs = .ok result →
      Statement.eraseBlock result.1 = Command.fillBlock cs)
    (h : s.nestedBlock loops number cs = .ok result) :
    Statement.eraseBlock result.1 = Command.fillNested cs := by
  cases cs with
  | nil =>
    cases h
    rfl
  | cons c rest => exact hblock result h

/-- A resolved block reads as it was written, with its empty blocks filled. -/
theorem block_erase {loops : List String} {number : Nat} {cs : List Command}
    {result : List Statement × Nat} (h : s.block loops number cs = .ok result) :
    Statement.eraseBlock result.1 = Command.fillBlock cs := by
  induction cs using Command.blockInduction generalizing loops number result with
  | nil =>
    cases h
    rfl
  | assign target value rest ih =>
    obtain ⟨_, _, ts, m, hcommand, hrest, rfl⟩ := block_cons_eq_ok h
    obtain ⟨t, e, htarget, hvalue, ⟨⟩⟩ := command_assign_eq_ok hcommand
    rw [Statement.eraseBlock, Statement.erase, target_erase htarget, intExpr_erase hvalue,
      ih hrest, Command.fillBlock, Command.fill]
  | skip rest ih =>
    obtain ⟨_, _, ts, m, hcommand, hrest, rfl⟩ := block_cons_eq_ok h
    cases hcommand
    rw [Statement.eraseBlock, Statement.erase, ih hrest, Command.fillBlock, Command.fill]
  | branch c thens elses rest ihthens ihelses ih =>
    obtain ⟨_, _, ts, m, hcommand, hrest, rfl⟩ := block_cons_eq_ok h
    obtain ⟨b, left, n, right, _, hcondition, hleft, hright, ⟨⟩⟩ := command_branch_eq_ok hcommand
    rw [Statement.eraseBlock, Statement.erase, boolExpr_erase hcondition,
      nestedBlock_erase (fun _ => ihthens) hleft, nestedBlock_erase (fun _ => ihelses) hright,
      ih hrest, Command.fillBlock, Command.fill]
  | loop c body rest ihbody ih =>
    obtain ⟨_, _, ts, m, hcommand, hrest, rfl⟩ := block_cons_eq_ok h
    obtain ⟨b, inside, _, hcondition, hbody, ⟨⟩⟩ := command_loop_eq_ok hcommand
    rw [Statement.eraseBlock, Statement.erase, boolExpr_erase hcondition,
      nestedBlock_erase (fun _ => ihbody) hbody, ih hrest, Command.fillBlock, Command.fill]

end Scope

/-- A resolved function reads as it was written, with its empty blocks filled. -/
theorem resolveFunction_erase {names : List String} {number : Nat} {f : FunctionEntry}
    {g : Function} {last : Nat} (h : resolveFunction names number f = .ok (g, last)) :
    g.erase = f.fill := by
  obtain ⟨s, hdeclared, h⟩ := bind_eq_ok.mp h
  obtain ⟨⟨statements, n⟩, hblock, h⟩ := bind_eq_ok.mp h
  have hvariables : s.declared.map (fun x => (⟨x.name, x.isArray, x.isConstant⟩ : VariableEntry)) =
      f.declared := by
    rw [declareVariables_eq_ok hdeclared, List.nil_append, List.map_map]
    exact List.map_id _
  have hstatements := Scope.block_erase hblock
  cases hpost : f.postcondition with
  | none =>
    rw [hpost] at h
    cases h
    rw [Function.erase, FunctionEntry.fill, hvariables, hstatements, hpost]
    rfl
  | some b =>
    rw [hpost] at h
    obtain ⟨post, hpost', h⟩ := bind_eq_ok.mp h
    cases h
    rw [Function.erase, FunctionEntry.fill, hvariables, hstatements, hpost, Option.map_some,
      Scope.boolExpr_erase hpost']

/-- Resolved functions read as they were written, with their empty blocks filled. -/
theorem resolveFunctions_erase {names earlier : List String} {number : Nat}
    {fs : List FunctionEntry} {gs : List Function}
    (h : resolveFunctions names earlier number fs = .ok gs) :
    gs.map Function.erase = fs.map FunctionEntry.fill := by
  induction fs generalizing earlier number gs with
  | nil =>
    cases h
    rfl
  | cons f rest ih =>
    obtain ⟨_, _, h⟩ := bind_eq_ok.mp h
    split at h
    · cases h
    · obtain ⟨⟨g, n⟩, hfunction, h⟩ := bind_eq_ok.mp h
      obtain ⟨gs', hrest, h⟩ := bind_eq_ok.mp h
      cases h
      rw [List.map_cons, List.map_cons, resolveFunction_erase hfunction, ih hrest]

/-- A resolved program reads as it was written, with its empty blocks filled. -/
theorem resolve_erase {d : Description} {p : Program} (h : d.resolve = .ok p) :
    p.erase = d.fill := by
  obtain ⟨gs, hresolve, h⟩ := bind_eq_ok.mp h
  cases h
  rw [Program.erase, fill, resolveFunctions_erase hresolve]

end Description

/-- Whether a use is that of a declared variable, as what it is declared. -/
def Use.Bound (vars : List Variable) (u : Use Variable) : Prop :=
  u.var ∈ vars ∧ u.var.isArray = u.asArray ∧ (u.assigns = true → u.var.isConstant = false)

section Bound

variable {vars : List Variable}

/-- The variables in a scoped expression are used as what they are declared. -/
theorem IntExpr.Scoped.bound : {e : IntExpr Variable} → e.Scoped vars → ∀ u ∈ e.uses, u.Bound vars
  | .literal _, _ => by simp [IntExpr.uses]
  | .variable _, he => by
    rw [IntExpr.uses, List.forall_mem_singleton]
    exact ⟨he.1, he.2, by simp⟩
  | .element _ _, he => by
    rw [IntExpr.uses, List.forall_mem_cons]
    exact ⟨⟨he.1.1, he.1.2, by simp⟩, he.2.bound⟩
  | .arith _ _ _, he => by
    rw [IntExpr.uses, List.forall_mem_append]
    exact ⟨he.1.bound, he.2.bound⟩
  | .negate e, he => IntExpr.Scoped.bound (e := e) he

mutual

/-- The variables in a scoped condition are used as what they are declared. -/
theorem BoolExpr.Scoped.bound : {b : BoolExpr Variable} → b.Scoped vars →
    ∀ u ∈ b.uses, u.Bound vars
  | .constant _, _ => by simp [BoolExpr.uses]
  | .compare _ _ _, hb => by
    rw [BoolExpr.uses, List.forall_mem_append]
    exact ⟨hb.1.bound, hb.2.bound⟩
  | .junction _ parts, hb => by
    have hparts : BoolExpr.AllScoped vars parts := hb
    exact BoolExpr.AllScoped.bound hparts
  | .not b, hb => BoolExpr.Scoped.bound (b := b) hb

/-- The variables in scoped conditions are used as what they are declared. -/
theorem BoolExpr.AllScoped.bound : {bs : List (BoolExpr Variable)} → BoolExpr.AllScoped vars bs →
    ∀ u ∈ BoolExpr.usesOfAll bs, u.Bound vars
  | [], _ => by simp [BoolExpr.usesOfAll]
  | _ :: _, hbs => by
    rw [BoolExpr.usesOfAll, List.forall_mem_append]
    exact ⟨BoolExpr.Scoped.bound hbs.1, BoolExpr.AllScoped.bound hbs.2⟩

end

/-- The variables in a scoped target are used as what they are declared, and what is assigned to is
no constant. -/
theorem Target.Scoped.bound {t : Target Variable} (ht : t.Scoped vars) :
    ∀ u ∈ t.uses, u.Bound vars := by
  cases t with
  | scalar x =>
    rw [Target.uses, List.forall_mem_singleton]
    exact ⟨ht.1, ht.2.1, fun _ => ht.2.2⟩
  | element a index =>
    rw [Target.uses, List.forall_mem_cons]
    exact ⟨⟨ht.1.1, ht.1.2.1, fun _ => ht.1.2.2⟩, ht.2.bound⟩

end Bound

namespace Statement

/-- The uses of variables in a statement itself, outside of its blocks. -/
def ownUses : Statement → List (Use Variable)
  | .assign _ target value => target.uses ++ value.uses
  | .branch _ condition _ _ => condition.uses
  | .loop _ _ condition _ => condition.uses
  | .skip _ => []

/-- The blocks of a statement. -/
def blocks : Statement → List (List Statement)
  | .branch _ _ thenBlock elseBlock => [thenBlock, elseBlock]
  | .loop _ _ _ body => [body]
  | .assign _ _ _ => []
  | .skip _ => []

/-- Whether a statement is in a block or nested in it, inside loops with locations, the outermost
first. -/
inductive Within : List Statement → List String → Statement → Prop
  | here {b s} (hs : s ∈ b) : Within b [] s
  | branch {b site c thens elses arm loops s} (hbranch : .branch site c thens elses ∈ b)
      (harm : arm = thens ∨ arm = elses) (hs : Within arm loops s) : Within b loops s
  | loop {b site enclosing c body loops s} (hloop : .loop site enclosing c body ∈ b)
      (hs : Within body loops s) : Within b (site.location :: loops) s

/-- What is within a block is within every larger one. -/
theorem Within.mono {b b' : List Statement} {loops : List String} {s : Statement}
    (hs : Within b loops s) (hsub : b ⊆ b') : Within b' loops s := by
  cases hs with
  | here hs => exact .here (hsub hs)
  | branch hbranch harm hs => exact .branch (hsub hbranch) harm hs
  | loop hloop hs => exact .loop (hsub hloop) hs

/-- Every statement of a block is in it inside some loops. -/
theorem exists_within {b : List Statement} {s : Statement} (hs : s ∈ blockInOrder b) :
    ∃ loops, Within b loops s := by
  -- Statements after the first one stay where they are when it is put in front.
  have hafter {t : Statement} {rest : List Statement} (h : ∃ loops, Within rest loops s) :
      ∃ loops, Within (t :: rest) loops s := by
    obtain ⟨loops, h⟩ := h
    exact ⟨loops, h.mono (List.subset_cons_self _ _)⟩
  induction b using blockInduction with
  | nil => cases hs
  | assign site target value rest ih =>
    rcases List.mem_cons.mp hs with rfl | hs
    · exact ⟨[], .here List.mem_cons_self⟩
    · exact hafter (ih hs)
  | skip site rest ih =>
    rcases List.mem_cons.mp hs with rfl | hs
    · exact ⟨[], .here List.mem_cons_self⟩
    · exact hafter (ih hs)
  | branch site c thens elses rest ihthens ihelses ih =>
    rcases List.mem_append.mp hs with hs | hs
    · rcases List.mem_cons.mp hs with rfl | hs
      · exact ⟨[], .here List.mem_cons_self⟩
      · rcases List.mem_append.mp hs with hs | hs
        · obtain ⟨loops, hwithin⟩ := ihthens hs
          exact ⟨loops, .branch List.mem_cons_self (.inl rfl) hwithin⟩
        · obtain ⟨loops, hwithin⟩ := ihelses hs
          exact ⟨loops, .branch List.mem_cons_self (.inr rfl) hwithin⟩
    · exact hafter (ih hs)
  | loop site enclosing c body rest ihbody ih =>
    rcases List.mem_append.mp hs with hs | hs
    · rcases List.mem_cons.mp hs with rfl | hs
      · exact ⟨[], .here List.mem_cons_self⟩
      · obtain ⟨loops, hwithin⟩ := ihbody hs
        exact ⟨site.location :: loops, .loop List.mem_cons_self hwithin⟩
    · exact hafter (ih hs)

/-- The statements of a formed block are formed inside the loops around it. -/
theorem BlockFormed.mem {vars : List Variable} {loops : List String} {b : List Statement}
    (hb : BlockFormed vars loops b) {s : Statement} (hs : s ∈ b) : s.Formed vars loops := by
  induction b with
  | nil => cases hs
  | cons t rest ih =>
    rcases List.mem_cons.mp hs with rfl | hs
    · exact hb.1
    · exact ih hb.2 hs

/-- A statement within a formed block is formed inside the loops around it. -/
theorem Within.formed {vars : List Variable} {outer loops : List String} {b : List Statement}
    {s : Statement} (hs : Within b loops s) (hb : BlockFormed vars outer b) :
    s.Formed vars (outer ++ loops) := by
  -- On the way down a loop moves from the loops inside the block to those around it.
  induction hs generalizing outer with
  | here hs =>
    rw [List.append_nil]
    exact hb.mem hs
  | branch hbranch harm _ ih =>
    obtain ⟨_, ⟨_, hthens⟩, _, helses⟩ := hb.mem hbranch
    rcases harm with rfl | rfl
    · exact ih hthens
    · exact ih helses
  | loop hloop _ ih =>
    obtain ⟨_, _, _, hbody⟩ := hb.mem hloop
    rw [List.append_cons]
    exact ih hbody

variable {vars : List Variable} {loops : List String} {s : Statement}

/-- A formed statement uses variables as what they are declared. -/
theorem Formed.own_bound (hs : s.Formed vars loops) : ∀ u ∈ s.ownUses, u.Bound vars := by
  cases s with
  | assign site target value =>
    rw [ownUses, List.forall_mem_append]
    exact ⟨hs.1.bound, hs.2.bound⟩
  | branch site c thens elses => exact hs.1.bound
  | loop site enclosing c body => exact hs.2.1.bound
  | skip site => simp [ownUses]

/-- The blocks of a formed statement are not empty. -/
theorem Formed.blocks_ne_nil (hs : s.Formed vars loops) : ∀ b ∈ s.blocks, b ≠ [] := by
  cases s with
  | assign site target value => simp [blocks]
  | branch site c thens elses => simp [blocks, hs.2.1.1, hs.2.2.1]
  | loop site enclosing c body => simp [blocks, hs.2.2.1]
  | skip site => simp [blocks]

end Statement

/-- The uses of variables in a function. -/
def Function.uses (f : Function) : List (Use Variable) :=
  f.statementsInOrder.flatMap Statement.ownUses ++ f.postcondition.elim [] BoolExpr.uses

/-- Whether a program is what a description stands for. -/
structure Program.Realizes (p : Program) (d : Description) : Prop where
  /-- The statements of all functions are numbered from one in order, and named after their
  numbers. -/
  numbered : ∀ k s, (p.functions.flatMap Function.statementsInOrder)[k]? = some s →
    s.id = k + 1 ∧ s.location = "l" ++ (k + 1).repr
  /-- Branches and loop bodies are not empty. -/
  blocks_ne_nil : ∀ f ∈ p.functions, ∀ s ∈ f.statementsInOrder, ∀ b ∈ s.blocks, b ≠ []
  /-- A loop names the loops that it is nested in. -/
  nested : ∀ f ∈ p.functions, ∀ site enclosing c body,
    .loop site enclosing c body ∈ f.statementsInOrder → ∀ loops,
      Statement.Within f.statements loops (.loop site enclosing c body) ↔ loops = enclosing
  /-- Variables are those that the function declares. -/
  bound : ∀ f ∈ p.functions, ∀ u ∈ f.uses, u.Bound f.declared
  /-- Without sites the program reads as the description does once its empty blocks are filled. -/
  erased : p.erase = d.fill

/-- Statements that are numbered from a number have the sites of the numbers that follow it. -/
theorem NumberedFrom.site_eq {first last k : Nat} {statements : List Statement} {s : Statement}
    (h : NumberedFrom first last statements) (hs : statements[k]? = some s) :
    s.site = Description.Scope.siteOf (first + 1 + k) := by
  have hsite : (statements.map Statement.site)[k]? = some s.site := by
    rw [List.getElem?_map, hs]
    rfl
  rw [h.2, List.getElem?_map, Option.map_eq_some_iff] at hsite
  obtain ⟨n, hn, hsite⟩ := hsite
  obtain ⟨hk, rfl⟩ := List.getElem?_eq_some_iff.mp hn
  rw [← hsite, List.getElem_range', Nat.one_mul]

namespace Function.Formed

variable {f : Function}

/-- A formed function uses variables as what they are declared, in its statements and in its
postcondition. -/
theorem bound (hf : f.Formed) : ∀ u ∈ f.uses, u.Bound f.declared := by
  intro u hu
  rcases List.mem_append.mp hu with hu | hu
  · obtain ⟨s, hs, hu⟩ := List.mem_flatMap.mp hu
    obtain ⟨loops, hwithin⟩ := Statement.exists_within hs
    exact (hwithin.formed hf.statements).own_bound u hu
  · cases hpost : f.postcondition with
    | none => simp [hpost] at hu
    | some post =>
      rw [hpost] at hu
      exact (hf.postcondition post hpost).bound u hu

/-- The loops that a loop is nested in are those that it names, and no others. -/
theorem within_loop_iff (hf : f.Formed) {site : Site} {enclosing : List String}
    {c : BoolExpr Variable} {body : List Statement}
    (hloop : .loop site enclosing c body ∈ f.statementsInOrder) {loops : List String} :
    Statement.Within f.statements loops (.loop site enclosing c body) ↔ loops = enclosing := by
  have hnamed : ∀ inner, Statement.Within f.statements inner (.loop site enclosing c body) →
      inner = enclosing := by
    intro inner hwithin
    exact (hwithin.formed hf.statements).1.symm
  obtain ⟨inner, hwithin⟩ := Statement.exists_within hloop
  constructor
  · exact hnamed loops
  · rintro rfl
    obtain rfl := hnamed inner hwithin
    exact hwithin

end Function.Formed

namespace Program

variable {p : Program}

/-- A loaded program is what the text describes. -/
theorem realizes_of_load {source : String} (hload : load source = .ok p) :
    ∃ d, Description.parse source = .ok d ∧ p.Realizes d := by
  have hp := formed_of_load hload
  unfold load at hload
  split at hload
  · rename_i d hparse
    refine ⟨d, hparse, ?_, ?_, ?_, ?_, Description.resolve_erase hload⟩
    · intro k s hs
      obtain ⟨last, hnumbered⟩ := hp.numbered
      have hsite : s.site = Description.Scope.siteOf (k + 1) := by
        rw [hnumbered.site_eq hs, Nat.zero_add, Nat.add_comm]
      rw [Statement.id, Statement.location, hsite]
      exact ⟨rfl, rfl⟩
    · intro f hf s hs
      obtain ⟨loops, hwithin⟩ := Statement.exists_within hs
      exact (hwithin.formed (hp.functions f hf).statements).blocks_ne_nil
    · intro f hf site enclosing c body hloop loops
      exact (hp.functions f hf).within_loop_iff hloop
    · intro f hf
      exact (hp.functions f hf).bound
  · cases hload

/-- The sample has a loop inside a loop, and an empty branch that is filled. -/
theorem realizes_nestedProgram : load nestedSource = .ok nestedProgram ∧
    ∃ d, Description.parse nestedSource = .ok d ∧ nestedProgram.Realizes d :=
  ⟨load_nestedSource, realizes_of_load load_nestedSource⟩

end Program

end TraceLogic
