import TraceLogic.Proofs.Interpretation
import TraceLogic.Proofs.Loading
import TraceLogic.Proofs.Vocabulary

/-!
# What symbols stand for

A symbol that is asked for stands for a location, for the last iteration of a loop, for the values
of a variable or for an operation of the solver. This is its notion; only the domain of the symbol
depends on the number of traces. A notion belongs to a program if it is one of the program's
locations, loops and variables, or an operation.
-/

namespace TraceLogic

/-! ## Operations -/

/-- The names of the operations of the solver, literals apart. -/
def Interpreted.theoryNames : List String :=
  ["int_plus", "int_minus", "int_multiply", "int_unary_minus", "int_less", "int_less_eq",
    "int_greater", "int_greater_eq", "bool_true", "bool_false", "time_zero", "time_succ",
    "time_pre", "time_sub"]

/-- The operations of the solver. -/
inductive Operation
  | literal (n : Int)
  | arith (op : ArithOp)
  | negate
  | less
  | lessEq
  | greater
  | greaterEq
  | truth (value : Bool)
  | zero
  | succ
  | pred
  | before

namespace Operation

open Interpreted

/-- The symbol of an operation. -/
def symbol : Operation → Symbol
  | literal n => literalSymbol n
  | arith op => arithSymbol op
  | negate => negateSymbol
  | less => lessSymbol
  | lessEq => lessEqSymbol
  | greater => greaterSymbol
  | greaterEq => greaterEqSymbol
  | truth value => truthSymbol value
  | zero => zeroSymbol
  | succ => succSymbol
  | pred => predSymbol
  | before => beforeSymbol

/-- The operations that are not literals, in the order of their names. -/
def theory : List Operation :=
  [arith .add, arith .sub, arith .mul, negate, less, lessEq, greater, greaterEq, truth true,
    truth false, zero, succ, pred, before]

/-- The operations of the theory have the names that are listed for it. -/
theorem name_mem_theoryNames {o : Operation} (h : o ∈ theory) : o.symbol.name ∈ theoryNames := by
  have hnames : theory.map (·.symbol.name) = theoryNames := rfl
  rw [← hnames]
  exact List.mem_map_of_mem h

/-- An operation belongs to the theory or is a numeral. -/
theorem mem_theory_or_literal (o : Operation) : o ∈ theory ∨ ∃ n, o = literal n := by
  cases o with
  | literal n => exact .inr ⟨n, rfl⟩
  | arith op => cases op <;> simp [theory]
  | truth value => cases value <;> simp [theory]
  | _ => simp [theory]

/-- The solver interprets all operations. -/
theorem interpreted_symbol (o : Operation) : o.symbol.interpreted = true := by
  cases o with
  | arith op => cases op <;> rfl
  | truth value => cases value <;> rfl
  | _ => rfl

/-- Operations are about integers, truth values and time. -/
theorem sorts_symbol (o : Operation) :
    ∀ s ∈ o.symbol.range :: o.symbol.domain, s ∈ [SortSymbol.int, .bool, .time] := by
  cases o with
  | literal n => simp [symbol, literalSymbol, interpreted]
  | arith op => cases op <;> decide
  | truth value => cases value <;> decide
  | _ => decide

/-- The text of a number starts with a digit or a sign. -/
theorem isSymbol_decimal (n : Int) : Identifier.isSymbol (decimal n).toList = false := by
  cases n with
  | ofNat k =>
    have hdigits : ∀ c ∈ Nat.toDigits 10 k, c.isDigit = true := fun c hc =>
      Nat.isDigit_of_mem_toDigits (by decide) (by decide) hc
    rw [decimal, Nat.toList_repr]
    cases htext : Nat.toDigits 10 k with
    | nil => rfl
    | cons d ds => simp [Identifier.isSymbol, hdigits d (htext ▸ List.mem_cons_self)]
  | negSucc k => simp [decimal, Identifier.isSymbol, Identifier.isSymbolChar]

/-- The name of an operation says which one it is. -/
theorem eq_of_name {o o' : Operation} (h : o.symbol.name = o'.symbol.name) : o = o' := by
  have hsymbols : ∀ name ∈ theoryNames, Identifier.isSymbol name.toList = true := by decide
  have hapart {a : Operation} (ha : a ∈ theory) (n : Int) : a.symbol.name ≠ decimal n := by
    intro heq
    have hsymbol := hsymbols _ (name_mem_theoryNames ha)
    rw [heq, isSymbol_decimal] at hsymbol
    cases hsymbol
  rcases mem_theory_or_literal o with ho | ⟨n, rfl⟩ <;>
    rcases mem_theory_or_literal o' with ho' | ⟨m, rfl⟩
  · have hnodup : (theory.map (·.symbol.name)).Nodup := by decide
    exact List.inj_on_of_nodup_map hnodup ho ho' h
  · exact absurd h (hapart ho m)
  · exact absurd h.symm (hapart ho' n)
  · have hn := numeral?_decimal n
    have hm : numeral? (decimal n) = some m := by
      rw [show decimal n = decimal m from h, numeral?_decimal]
    exact congrArg literal (Option.some.inj (hn.symm.trans hm))

end Operation

/-! ## Notions -/

/-- What a symbol stands for. -/
inductive Notion
  /-- A location inside a number of loops. -/
  | location (name : String) (depth : Nat)
  /-- The iteration in which a loop ends. -/
  | lastIteration (loop : String) (enclosing : List String)
  /-- The values of a variable. -/
  | value (x : Variable)
  /-- An operation of the solver. -/
  | operation (o : Operation)

/-- The sorts that a problem may speak about. -/
def TraceMode.sorts (mode : TraceMode) : List SortSymbol :=
  [.int, .bool, .time] ++ mode.traceDomain

namespace Notion

/-- The symbol of a notion. -/
def symbol (mode : TraceMode) : Notion → Symbol
  | location name depth => .location name depth
  | lastIteration loop enclosing => mode.lastIterationSymbol loop enclosing
  | value x => mode.variableSymbol x
  | operation o => o.symbol

/-- The symbol of a notion has only sorts of the mode. -/
theorem sorts_symbol (n : Notion) (mode : TraceMode) :
    ∀ s ∈ (n.symbol mode).range :: (n.symbol mode).domain, s ∈ mode.sorts := by
  cases n with
  | location name depth =>
    simp only [symbol, Symbol.location, List.mem_cons, List.mem_replicate]
    rintro s (rfl | ⟨_, rfl⟩) <;> simp [TraceMode.sorts]
  | lastIteration loop enclosing =>
    simp only [symbol, TraceMode.lastIterationSymbol, List.mem_cons, List.mem_append,
      List.mem_replicate]
    rintro s (rfl | ⟨_, rfl⟩ | hs)
    · simp [TraceMode.sorts]
    · simp [TraceMode.sorts]
    · exact List.mem_append_right _ hs
  | value x =>
    obtain ⟨name, isArray, isConstant⟩ := x
    cases mode <;> cases isArray <;> cases isConstant <;> simp [symbol, TraceMode.sorts,
      TraceMode.variableSymbol, TraceMode.traceDomain]
  | operation o => exact fun s hs => List.mem_append_left _ (o.sorts_symbol s hs)

/-- Whether a notion belongs to locations, loops and variables. -/
def Of (places : List (String × Nat)) (nests : List (String × List String))
    (vars : List Variable) : Notion → Prop
  | location name depth => (name, depth) ∈ places
  | lastIteration loop enclosing => (loop, enclosing) ∈ nests
  | value x => x ∈ vars
  | operation _ => True

/-- A notion of some places, loops and variables is one of any more of them. -/
theorem Of.mono {places places' : List (String × Nat)} {nests nests' : List (String × List String)}
    {vars vars' : List Variable} (hplaces : places ⊆ places') (hnests : nests ⊆ nests')
    (hvars : vars ⊆ vars') {n : Notion} (h : n.Of places nests vars) :
    n.Of places' nests' vars' := by
  cases n with
  | location name depth => exact hplaces h
  | lastIteration loop enclosing => exact hnests h
  | value x => exact hvars h
  | operation o => trivial

/-- Whether a notion belongs to the meaning of a block in the scope of variables. Of the locations,
only the heads of loops do. -/
def OfBlock (vars : List Variable) (b : List Statement) (n : Notion) : Prop :=
  n.Of ((Statement.blockNests b).map Statement.headOf) (Statement.blockNests b) vars

namespace OfBlock

variable {vars : List Variable} {n : Notion} {s : Statement} {site : Site} {c : BoolExpr Variable}
  {enclosing : List String} {b thens elses body rest : List Statement}

/-- An expression in a block asks for no more than variables and operations. -/
theorem of_expression (h : n.Of [] [] vars) : n.OfBlock vars b :=
  h.mono (List.nil_subset _) (List.nil_subset _) (List.Subset.refl _)

/-- A notion of a block is one of every block that has at least its loops. -/
theorem of_nests_subset {b b' : List Statement}
    (hnests : Statement.blockNests b ⊆ Statement.blockNests b') (h : n.OfBlock vars b) :
    n.OfBlock vars b' :=
  h.mono (List.map_subset _ hnests) hnests (List.Subset.refl _)

/-- A notion of the rest of a block is one of the block. -/
theorem of_rest (h : n.OfBlock vars rest) : n.OfBlock vars (s :: rest) :=
  h.of_nests_subset (Statement.blockNests_subset_cons s rest)

/-- A notion of the first block of a branch is one of the whole block. -/
theorem of_thens (h : n.OfBlock vars thens) :
    n.OfBlock vars (.branch site c thens elses :: rest) :=
  h.of_nests_subset fun nest hnest => by simp [hnest]

/-- A notion of the second block of a branch is one of the whole block. -/
theorem of_elses (h : n.OfBlock vars elses) :
    n.OfBlock vars (.branch site c thens elses :: rest) :=
  h.of_nests_subset fun nest hnest => by simp [hnest]

/-- A notion of the body of a loop is one of the whole block. -/
theorem of_body (h : n.OfBlock vars body) :
    n.OfBlock vars (.loop site enclosing c body :: rest) :=
  h.of_nests_subset fun nest hnest => by simp [hnest]

end OfBlock

/-- Whether a notion belongs to a program. -/
def OfProgram (p : Program) (n : Notion) : Prop := n.Of p.places p.nests p.declared

/-- What belongs to a function of a program belongs to the program. -/
theorem OfProgram.of_function {p : Program} {f : Function} (hf : f ∈ p.functions)
    {n : Notion} (h : n.Of f.places (Statement.blockNests f.statements) f.declared) :
    n.OfProgram p :=
  h.mono (fun _ hx => List.mem_flatMap.mpr ⟨f, hf, hx⟩)
    (fun _ hx => List.mem_flatMap.mpr ⟨f, hf, hx⟩) fun _ hx => List.mem_flatMap.mpr ⟨f, hf, hx⟩

/-- A notion of the statements of a function is one of the program. -/
theorem OfProgram.of_statements {p : Program} {f : Function} (hf : f ∈ p.functions)
    (hformed : f.Formed) {n : Notion} (h : n.OfBlock f.declared f.statements) : n.OfProgram p := by
  refine .of_function hf (h.mono (fun place hplace => ?_) (List.Subset.refl _)
    (List.Subset.refl _))
  obtain ⟨nest, hnest, rfl⟩ := List.mem_map.mp hplace
  exact List.mem_cons_of_mem _ (Statement.headOf_mem_blockPlaces hformed.statements hnest)

/-- The number of traces changes no name. -/
theorem name_symbol (n : Notion) (mode mode' : TraceMode) :
    (n.symbol mode).name = (n.symbol mode').name := by
  cases n <;> rfl

/-- Whether the symbol of a notion depends on a trace when there are two. -/
def traced : Notion → Bool
  | location _ _ => false
  | lastIteration _ _ => true
  | value _ => true
  | operation _ => false

/-- A second trace adds an argument to the symbols that depend on it. -/
theorem symbol_eq (n : Notion) (mode : TraceMode) :
    n.symbol mode = { n.symbol .one with
      domain := (n.symbol .one).domain ++ if n.traced then mode.traceDomain else [] } := by
  cases n <;> simp [symbol, traced, TraceMode.lastIterationSymbol, TraceMode.variableSymbol,
    TraceMode.traceDomain]

section

variable {places : List (String × Nat)} {nests : List (String × List String)}
  {vars : List Variable} {n m : Notion} {mode : TraceMode}

/-- A symbol that depends on a trace is none that does not, if no location is named like the last
iteration of a loop. -/
theorem symbol_ne_of_traced
    (hdistinct : ∀ nest ∈ nests, ∀ place ∈ places, lastName nest.1 ≠ place.1)
    (hn : n.Of places nests vars) (hm : m.Of places nests vars) (htraced : n.traced = true)
    (huntraced : m.traced = false) : n.symbol mode ≠ m.symbol mode := by
  intro heq
  have hname := congrArg Symbol.name heq
  have hrange := congrArg Symbol.range heq
  have hinterpreted := congrArg Symbol.interpreted heq
  cases n with
  | location name depth => cases htraced
  | operation o => cases htraced
  | lastIteration loop enclosing =>
    cases m with
    | location name depth =>
      exact hdistinct _ hn _ hm hname
    | operation o => exact absurd (hinterpreted.trans o.interpreted_symbol) Bool.false_ne_true
    | lastIteration loop' enclosing' => cases huntraced
    | value y => cases huntraced
  | value x =>
    cases m with
    | location name depth => exact absurd hrange (by decide : SortSymbol.int ≠ SortSymbol.time)
    | operation o => exact absurd (hinterpreted.trans o.interpreted_symbol) Bool.false_ne_true
    | lastIteration loop' enclosing' => cases huntraced
    | value y => cases huntraced

/-- Two notions have one symbol if they have one when there is a single trace. -/
theorem symbol_eq_iff (hdistinct : ∀ nest ∈ nests, ∀ place ∈ places, lastName nest.1 ≠ place.1)
    (hn : n.Of places nests vars) (hm : m.Of places nests vars) :
    n.symbol mode = m.symbol mode ↔ n.symbol .one = m.symbol .one := by
  by_cases htraced : n.traced = m.traced
  · rw [n.symbol_eq, m.symbol_eq, htraced]
    generalize n.symbol .one = s
    generalize m.symbol .one = t
    cases s
    cases t
    simp
  · have hne (mode : TraceMode) : n.symbol mode ≠ m.symbol mode := by
      cases hcase : n.traced with
      | true => exact symbol_ne_of_traced hdistinct hn hm hcase (by grind)
      | false => exact (symbol_ne_of_traced hdistinct hm hn (by grind) hcase).symm
    exact iff_of_false (hne mode) (hne .one)

/-- Whether names clash does not depend on the number of traces. -/
theorem coherent_map_symbol_iff
    (hdistinct : ∀ nest ∈ nests, ∀ place ∈ places, lastName nest.1 ≠ place.1)
    {notions : List Notion} (hnotions : ∀ n ∈ notions, n.Of places nests vars) :
    Coherent (notions.map (symbol mode)) ↔ Coherent (notions.map (symbol .one)) := by
  simp only [Coherent, List.forall_mem_map]
  refine forall₂_congr fun n hn => forall₂_congr fun m hm => ?_
  rw [symbol_eq_iff hdistinct (hnotions n hn) (hnotions m hm), n.name_symbol mode .one,
    m.name_symbol mode .one]

end

end Notion

end TraceLogic
