import TraceLogic.Trace.Timeline
import TraceLogic.Proofs.Store

/-!
# The shape of blocks

Blocks are trees of statements. `Statement.blockInduction` is the induction along them that the
theory uses throughout: a block is empty, or it starts with a statement of one of the four kinds,
whose own blocks are smaller.

`Statement.BlockFormed` says what every block of a loaded program satisfies: its expressions are in
scope, nested blocks are not empty, and each loop names the loops around it.
-/

namespace TraceLogic

namespace Statement

/-- Induction over a block, along its first statement and that statement's blocks. -/
@[elab_as_elim]
theorem blockInduction {motive : List Statement → Prop} (nil : motive [])
    (assign : ∀ site target value rest, motive rest → motive (.assign site target value :: rest))
    (skip : ∀ site rest, motive rest → motive (.skip site :: rest))
    (branch : ∀ site c thens elses rest, motive thens → motive elses → motive rest →
      motive (.branch site c thens elses :: rest))
    (loop : ∀ site enclosing c body rest, motive body → motive rest →
      motive (.loop site enclosing c body :: rest)) : ∀ b, motive b
  | [] => nil
  | .assign _ _ _ :: rest => assign _ _ _ _ (blockInduction nil assign skip branch loop rest)
  | .skip _ :: rest => skip _ _ (blockInduction nil assign skip branch loop rest)
  | .branch _ _ thens elses :: rest =>
    branch _ _ _ _ _ (blockInduction nil assign skip branch loop thens)
      (blockInduction nil assign skip branch loop elses)
      (blockInduction nil assign skip branch loop rest)
  | .loop _ _ _ body :: rest =>
    loop _ _ _ _ _ (blockInduction nil assign skip branch loop body)
      (blockInduction nil assign skip branch loop rest)

mutual

/-- Whether a statement inside loops is in the scope of variables and has no empty block. -/
def Formed (vars : List Variable) (loops : List String) : Statement → Prop
  | .assign _ target value => target.Scoped vars ∧ value.Scoped vars
  | .skip _ => True
  | .branch _ c thens elses =>
    c.Scoped vars ∧ (thens ≠ [] ∧ BlockFormed vars loops thens) ∧
      (elses ≠ [] ∧ BlockFormed vars loops elses)
  | .loop site enclosing c body =>
    enclosing = loops ∧ c.Scoped vars ∧
      (body ≠ [] ∧ BlockFormed vars (loops ++ [site.location]) body)

/-- Whether all statements of a block are formed in the same way. -/
def BlockFormed (vars : List Variable) (loops : List String) : List Statement → Prop
  | [] => True
  | s :: rest => s.Formed vars loops ∧ BlockFormed vars loops rest

end

/-- The locations that a statement itself introduces: where it starts, and where the blocks of a
branch end. -/
def ownLocations : Statement → List String
  | .branch site _ _ _ =>
    [site.location, Timeline.leftEnd site.location, Timeline.rightEnd site.location]
  | s => [s.location]

/-- All locations of a block. -/
def blockLocations (b : List Statement) : List String := (blockInOrder b).flatMap ownLocations

/-- An empty block has no points. -/
@[simp]
theorem blockLocations_nil : blockLocations [] = [] := rfl

/-- The points of a block are those of its first statement and of what is nested in it, and then
those of the rest. -/
theorem blockLocations_cons (s : Statement) (rest : List Statement) :
    blockLocations (s :: rest) = s.inOrder.flatMap ownLocations ++ blockLocations rest := by
  simp [blockLocations, blockInOrder]

/-- An assignment starts at its location and has no other point. -/
@[simp]
theorem blockLocations_assign (site : Site) (target : Target Variable) (value : IntExpr Variable)
    (rest : List Statement) :
    blockLocations (.assign site target value :: rest) = site.location :: blockLocations rest := rfl

/-- A skip starts at its location and has no other point. -/
@[simp]
theorem blockLocations_skip (site : Site) (rest : List Statement) :
    blockLocations (.skip site :: rest) = site.location :: blockLocations rest := rfl

/-- A branch has a point at its start and one at the end of each of its blocks, and then the points
of both blocks. -/
@[simp]
theorem blockLocations_branch (site : Site) (c : BoolExpr Variable)
    (thens elses rest : List Statement) :
    blockLocations (.branch site c thens elses :: rest) =
      site.location :: Timeline.leftEnd site.location :: Timeline.rightEnd site.location ::
        (blockLocations thens ++ (blockLocations elses ++ blockLocations rest)) := by
  simp [blockLocations, blockInOrder, inOrder, ownLocations]

/-- A loop has its head, and then the points of its body. -/
@[simp]
theorem blockLocations_loop (site : Site) (enclosing : List String) (c : BoolExpr Variable)
    (body rest : List Statement) :
    blockLocations (.loop site enclosing c body :: rest) =
      site.location :: (blockLocations body ++ blockLocations rest) := by
  simp [blockLocations, blockInOrder, inOrder, ownLocations, location, Statement.site]

/-- The location of a statement that is a loop. -/
def ownLoops : Statement → List String
  | .loop site _ _ _ => [site.location]
  | _ => []

/-- The locations of the loops of a block. -/
def blockLoops (b : List Statement) : List String := (blockInOrder b).flatMap ownLoops

/-- An empty block has no loops. -/
@[simp]
theorem blockLoops_nil : blockLoops [] = [] := rfl

/-- An assignment is no loop. -/
@[simp]
theorem blockLoops_assign (site : Site) (target : Target Variable) (value : IntExpr Variable)
    (rest : List Statement) :
    blockLoops (.assign site target value :: rest) = blockLoops rest := rfl

/-- A skip is no loop. -/
@[simp]
theorem blockLoops_skip (site : Site) (rest : List Statement) :
    blockLoops (.skip site :: rest) = blockLoops rest := rfl

/-- A branch is no loop, but both of its blocks may have some. -/
@[simp]
theorem blockLoops_branch (site : Site) (c : BoolExpr Variable)
    (thens elses rest : List Statement) :
    blockLoops (.branch site c thens elses :: rest) =
      blockLoops thens ++ (blockLoops elses ++ blockLoops rest) := by
  simp [blockLoops, blockInOrder, inOrder, ownLoops]

/-- A loop counts itself before the loops in its body. -/
@[simp]
theorem blockLoops_loop (site : Site) (enclosing : List String) (c : BoolExpr Variable)
    (body rest : List Statement) :
    blockLoops (.loop site enclosing c body :: rest) =
      site.location :: (blockLoops body ++ blockLoops rest) := by
  simp [blockLoops, blockInOrder, inOrder, ownLoops]

/-- Each loop of a block is one of its points, its head. -/
theorem blockLoops_subset (b : List Statement) : blockLoops b ⊆ blockLocations b := by
  intro name hname
  obtain ⟨s, hs, hname⟩ := List.mem_flatMap.mp hname
  refine List.mem_flatMap.mpr ⟨s, hs, ?_⟩
  cases s with
  | loop site enclosing c body => exact hname
  | assign site target value => cases hname
  | branch site c thens elses => cases hname
  | skip site => cases hname

/-- A statement that is a loop, with the loops around it. -/
def ownNests : Statement → List (String × List String)
  | .loop site enclosing _ _ => [(site.location, enclosing)]
  | _ => []

/-- The loops of a block, each with the loops around it. -/
def blockNests (b : List Statement) : List (String × List String) :=
  (blockInOrder b).flatMap ownNests

/-- A branch is no loop, but both of its blocks may have some. -/
@[simp]
theorem blockNests_branch (site : Site) (c : BoolExpr Variable)
    (thens elses rest : List Statement) :
    blockNests (.branch site c thens elses :: rest) =
      blockNests thens ++ (blockNests elses ++ blockNests rest) := by
  simp [blockNests, blockInOrder, inOrder, ownNests]

/-- A loop is listed with the loops around it, before those in its body. -/
@[simp]
theorem blockNests_loop (site : Site) (enclosing : List String) (c : BoolExpr Variable)
    (body rest : List Statement) :
    blockNests (.loop site enclosing c body :: rest) =
      (site.location, enclosing) :: (blockNests body ++ blockNests rest) := by
  simp [blockNests, blockInOrder, inOrder, ownNests]

/-- The loops of the rest of a block are loops of the block. -/
theorem blockNests_subset_cons (s : Statement) (rest : List Statement) :
    blockNests rest ⊆ blockNests (s :: rest) := by
  intro nest hnest
  simp [blockNests, blockInOrder, List.mem_flatMap.mp hnest]

/-- Without what is around them, the nested loops are the loops. -/
theorem map_fst_blockNests (b : List Statement) : (blockNests b).map Prod.fst = blockLoops b := by
  have hown (s : Statement) : s.ownNests.map Prod.fst = s.ownLoops := by cases s <;> rfl
  simp only [blockNests, blockLoops, List.map_flatMap, hown]

mutual

/-- The locations of a statement inside a number of loops, each with the number of iterations that
it depends on. The head of a loop also depends on the iteration of the loop. -/
def places (depth : Nat) : Statement → List (String × Nat)
  | .branch site _ thens elses =>
    (site.location, depth) :: (Timeline.leftEnd site.location, depth) ::
      (Timeline.rightEnd site.location, depth) ::
        (blockPlaces depth thens ++ blockPlaces depth elses)
  | .loop site _ _ body => (site.location, depth + 1) :: blockPlaces (depth + 1) body
  | .assign site _ _ => [(site.location, depth)]
  | .skip site => [(site.location, depth)]

/-- The locations of a block, with the number of iterations that each of them depends on. -/
def blockPlaces (depth : Nat) : List Statement → List (String × Nat)
  | [] => []
  | s :: rest => s.places depth ++ blockPlaces depth rest

end

/-- Without their depths, the places of a block are its points, whatever its depth is. -/
theorem map_fst_blockPlaces (depth : Nat) (b : List Statement) :
    (blockPlaces depth b).map Prod.fst = blockLocations b := by
  induction b using blockInduction generalizing depth with
  | nil => rfl
  | assign site target value rest ih => simp [blockPlaces, places, ih]
  | skip site rest ih => simp [blockPlaces, places, ih]
  | branch site c thens elses rest ihthens ihelses ih =>
    simp [blockPlaces, places, ihthens, ihelses, ih]
  | loop site enclosing c body rest ihbody ih => simp [blockPlaces, places, ihbody, ih]

/-- The head of a loop, with the number of iterations that it depends on. -/
def headOf (nest : String × List String) : String × Nat := (nest.1, nest.2.length + 1)

/-- The heads of loops are among the locations of a block. -/
theorem headOf_mem_blockPlaces {vars : List Variable} {loops : List String} {b : List Statement}
    (hb : BlockFormed vars loops b) {nest : String × List String} (hnest : nest ∈ blockNests b) :
    headOf nest ∈ blockPlaces loops.length b := by
  induction b using blockInduction generalizing loops with
  | nil => cases hnest
  | assign site target value rest ih => exact List.mem_cons_of_mem _ (ih hb.2 hnest)
  | skip site rest ih => exact List.mem_cons_of_mem _ (ih hb.2 hnest)
  | branch site c thens elses rest ihthens ihelses ih =>
    obtain ⟨⟨_, ⟨_, hthens⟩, _, helses⟩, hrest⟩ := hb
    rw [blockNests_branch, List.mem_append, List.mem_append] at hnest
    rcases hnest with hnest | hnest | hnest
    · simp [blockPlaces, places, ihthens hthens hnest]
    · simp [blockPlaces, places, ihelses helses hnest]
    · simp [blockPlaces, places, ih hrest hnest]
  | loop site enclosing c body rest ihbody ih =>
    obtain ⟨⟨rfl, _, _, hbody⟩, hrest⟩ := hb
    rw [blockNests_loop, List.mem_cons, List.mem_append] at hnest
    rcases hnest with rfl | hnest | hnest
    · simp [blockPlaces, places, headOf]
    · have hinner := ihbody hbody hnest
      rw [List.length_append, List.length_singleton] at hinner
      simp [blockPlaces, places, hinner]
    · simp [blockPlaces, places, ih hrest hnest]

end Statement

/-- The locations of a function, with the number of iterations that each of them depends on. -/
def Function.places (f : Function) : List (String × Nat) :=
  (Timeline.functionEnd f.name, 0) :: Statement.blockPlaces 0 f.statements

/-- The locations of a program, with the number of iterations that each of them depends on. -/
def Program.places (p : Program) : List (String × Nat) := p.functions.flatMap Function.places

/-- The loops of a program, each with the loops around it. -/
def Program.nests (p : Program) : List (String × List String) :=
  p.functions.flatMap fun f => Statement.blockNests f.statements

/-- All locations of a function, its end among them. -/
def Function.locations (f : Function) : List String :=
  Timeline.functionEnd f.name :: Statement.blockLocations f.statements

/-- The locations of all functions. -/
def Program.locations (p : Program) : List String := p.functions.flatMap Function.locations

/-- The locations of all loops of a program. -/
def Program.loops (p : Program) : List String :=
  p.functions.flatMap fun f => Statement.blockLoops f.statements

/-- The variables that the functions of a program declare. -/
def Program.declared (p : Program) : List Variable := p.functions.flatMap Function.declared

/-- Without their depths, the places of a function are its points. -/
theorem Function.map_fst_places (f : Function) : f.places.map Prod.fst = f.locations := by
  rw [Function.places, List.map_cons, Statement.map_fst_blockPlaces]
  rfl

/-- Without their depths, the places of a program are its points. -/
theorem Program.map_fst_places (p : Program) : p.places.map Prod.fst = p.locations := by
  simp only [Program.places, Program.locations, List.map_flatMap, Function.map_fst_places]

/-- Without what is around them, the nested loops of a program are its loops. -/
theorem Program.map_fst_nests (p : Program) : p.nests.map Prod.fst = p.loops := by
  simp only [Program.nests, Program.loops, List.map_flatMap, Statement.map_fst_blockNests]

/-- The name of a place is one of the points of the program. -/
theorem Program.mem_locations {p : Program} {place : String × Nat} (h : place ∈ p.places) :
    place.1 ∈ p.locations :=
  p.map_fst_places ▸ List.mem_map_of_mem h

/-- The location of a nested loop is one of the loops of the program. -/
theorem Program.mem_loops {p : Program} {nest : String × List String} (h : nest ∈ p.nests) :
    nest.1 ∈ p.loops :=
  p.map_fst_nests ▸ List.mem_map_of_mem h

end TraceLogic
