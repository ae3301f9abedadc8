import TraceLogic.Program.Expr

/-!
# Statements, functions, programs

Statements form trees: branches and loops hold blocks of statements. Each statement stands at a
site, which gives its number and the name of its location. `Function.statementsInOrder` lists all
statements of a function, every statement before those nested in it.
-/

namespace TraceLogic

/-- Where a statement stands in the program. -/
structure Site where
  /-- The statement's number. -/
  id : Nat
  /-- The name of the statement's location. -/
  location : String
deriving DecidableEq, Inhabited

/-- A statement. A loop also names the loops that it is nested in, the outermost first. -/
inductive Statement
  | assign (site : Site) (target : Target Variable) (value : IntExpr Variable)
  | branch (site : Site) (condition : BoolExpr Variable) (thenBlock elseBlock : List Statement)
  | loop (site : Site) (enclosing : List String) (condition : BoolExpr Variable)
      (body : List Statement)
  | skip (site : Site)

namespace Statement

instance : Inhabited Statement := ⟨.skip default⟩

mutual

/-- Equality of statements is decided along their structure. -/
def decEq : (s t : Statement) → Decidable (s = t)
  | .assign site target value, .assign site' target' value' =>
    if h : site = site' ∧ target = target' ∧ value = value' then
      isTrue (by obtain ⟨rfl, rfl, rfl⟩ := h; rfl)
    else isFalse (fun hst => h (Statement.assign.inj hst))
  | .branch site c thens elses, .branch site' c' thens' elses' =>
    if h : site = site' ∧ c = c' then
      match decEqBlock thens thens', decEqBlock elses elses' with
      | isTrue ht, isTrue he => isTrue (by rw [h.1, h.2, ht, he])
      | isFalse ht, _ => isFalse (fun hst => ht (Statement.branch.inj hst).2.2.1)
      | _, isFalse he => isFalse (fun hst => he (Statement.branch.inj hst).2.2.2)
    else isFalse (fun hst => h ⟨(Statement.branch.inj hst).1, (Statement.branch.inj hst).2.1⟩)
  | .loop site enclosing c body, .loop site' enclosing' c' body' =>
    if h : site = site' ∧ enclosing = enclosing' ∧ c = c' then
      match decEqBlock body body' with
      | isTrue hb => isTrue (by rw [h.1, h.2.1, h.2.2, hb])
      | isFalse hb => isFalse (fun hst => hb (Statement.loop.inj hst).2.2.2)
    else
      isFalse (fun hst => h ⟨(Statement.loop.inj hst).1, (Statement.loop.inj hst).2.1,
        (Statement.loop.inj hst).2.2.1⟩)
  | .skip site, .skip site' =>
    if h : site = site' then isTrue (congrArg _ h)
    else isFalse (fun hst => h (Statement.skip.inj hst))
  | .assign _ _ _, .branch _ _ _ _ => isFalse nofun
  | .assign _ _ _, .loop _ _ _ _ => isFalse nofun
  | .assign _ _ _, .skip _ => isFalse nofun
  | .branch _ _ _ _, .assign _ _ _ => isFalse nofun
  | .branch _ _ _ _, .loop _ _ _ _ => isFalse nofun
  | .branch _ _ _ _, .skip _ => isFalse nofun
  | .loop _ _ _ _, .assign _ _ _ => isFalse nofun
  | .loop _ _ _ _, .branch _ _ _ _ => isFalse nofun
  | .loop _ _ _ _, .skip _ => isFalse nofun
  | .skip _, .assign _ _ _ => isFalse nofun
  | .skip _, .branch _ _ _ _ => isFalse nofun
  | .skip _, .loop _ _ _ _ => isFalse nofun

/-- Equality of blocks. -/
def decEqBlock : (b c : List Statement) → Decidable (b = c)
  | [], [] => isTrue rfl
  | [], _ :: _ => isFalse nofun
  | _ :: _, [] => isFalse nofun
  | s :: b, t :: c =>
    match decEq s t with
    | isFalse h => isFalse (fun hst => h (List.cons.inj hst).1)
    | isTrue h =>
      match decEqBlock b c with
      | isTrue hs => isTrue (by rw [h, hs])
      | isFalse hs => isFalse (fun hst => hs (List.cons.inj hst).2)

end

instance : DecidableEq Statement := decEq

/-- The site of a statement. -/
def site : Statement → Site
  | assign s _ _ => s
  | branch s _ _ _ => s
  | loop s _ _ _ => s
  | skip s => s

/-- The number of a statement. -/
def id (s : Statement) : Nat := s.site.id

/-- The location of a statement. -/
def location (s : Statement) : String := s.site.location

/-- The name of a kind of statement in listings. -/
def kindName : Statement → String
  | assign _ _ _ => "assignment"
  | branch _ _ _ _ => "if-else"
  | loop _ _ _ _ => "while"
  | skip _ => "skip"

mutual

/-- The statement followed by the statements nested in it. -/
def inOrder : Statement → List Statement
  | s@(branch _ _ thenBlock elseBlock) => s :: (blockInOrder thenBlock ++ blockInOrder elseBlock)
  | s@(loop _ _ _ body) => s :: blockInOrder body
  | s@(assign _ _ _) => [s]
  | s@(skip _) => [s]

/-- The statements of a block in order, each followed by the statements nested in it. -/
def blockInOrder : List Statement → List Statement
  | [] => []
  | s :: rest => s.inOrder ++ blockInOrder rest

end

end Statement

/-- A function: its variables, its statements, and what should hold after the last of them. -/
structure Function where
  /-- The function's name. -/
  name : String
  /-- The declared variables, in order of declaration. -/
  declared : List Variable
  /-- The statements at the top level of the function. -/
  statements : List Statement
  /-- The condition to be verified at the end of the function. -/
  postcondition : Option (BoolExpr Variable)
deriving DecidableEq

/-- All statements of a function, each before those nested in it. -/
def Function.statementsInOrder (f : Function) : List Statement :=
  Statement.blockInOrder f.statements

/-- A program is a list of functions that do not call each other. -/
structure Program where
  functions : List Function
deriving DecidableEq

end TraceLogic
