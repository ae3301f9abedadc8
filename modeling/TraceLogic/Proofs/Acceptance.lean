import TraceLogic.Proofs.Loading

/-!
# Which descriptions are accepted

A description is well-formed if its names are accepted and different, and every variable is used as
it is declared. `Description.violations` lists what is wrong with a description, in the order in
which it is resolved: functions one after the other, in each of them the name, the variables, the
statements in order, and the postcondition. Each violation is found on its own, whatever else is
wrong.

Resolving stops at the first fault. `Reports` says that a step stops at the first of some
violations, and it is put together along the steps.
-/

namespace TraceLogic

/-- A place where a variable is used. -/
structure Use (ν : Type) where
  /-- The variable, or how the place refers to it. -/
  var : ν
  /-- Whether the variable is used as an array. -/
  asArray : Bool
  /-- Whether the place assigns to the variable. -/
  assigns : Bool

variable {ν : Type}

/-- The uses of variables in an integer expression, from left to right. -/
def IntExpr.uses : IntExpr ν → List (Use ν)
  | .literal _ => []
  | .variable x => [⟨x, false, false⟩]
  | .element a index => ⟨a, true, false⟩ :: index.uses
  | .arith _ lhs rhs => lhs.uses ++ rhs.uses
  | .negate operand => operand.uses

mutual

/-- The uses of variables in a Boolean expression, from left to right. -/
def BoolExpr.uses : BoolExpr ν → List (Use ν)
  | .constant _ => []
  | .compare _ lhs rhs => lhs.uses ++ rhs.uses
  | .junction _ parts => BoolExpr.usesOfAll parts
  | .not operand => operand.uses

/-- The uses of variables in several Boolean expressions. -/
def BoolExpr.usesOfAll : List (BoolExpr ν) → List (Use ν)
  | [] => []
  | b :: rest => b.uses ++ BoolExpr.usesOfAll rest

end

/-- The uses of variables in the target of an assignment. -/
def Target.uses : Target ν → List (Use ν)
  | .scalar x => [⟨x, false, true⟩]
  | .element a index => ⟨a, true, true⟩ :: index.uses

namespace Description

mutual

/-- The uses of variables in a statement. -/
def Command.uses : Command → List (Use String)
  | .assign target value => target.uses ++ value.uses
  | .branch condition thenBlock elseBlock =>
    condition.uses ++ (Command.blockUses thenBlock ++ Command.blockUses elseBlock)
  | .loop condition body => condition.uses ++ Command.blockUses body
  | .skip => []

/-- The uses of variables in a block. -/
def Command.blockUses : List Command → List (Use String)
  | [] => []
  | c :: rest => c.uses ++ Command.blockUses rest

end

/-- The uses of variables in the postcondition of a function. -/
def FunctionEntry.finalUses (f : FunctionEntry) : List (Use String) :=
  f.postcondition.elim [] BoolExpr.uses

/-- The uses of variables in a function. -/
def FunctionEntry.uses (f : FunctionEntry) : List (Use String) :=
  Command.blockUses f.commands ++ f.finalUses

/-- Whether the names of a function are accepted, among functions with names, and its variables are
declared once and used as they are declared. -/
structure FunctionEntry.WellFormed (names : List String) (f : FunctionEntry) : Prop where
  accepted : Identifier.checkFunction f.name = .ok ()
  variables_accepted : ∀ v ∈ f.declared, Identifier.checkVariable names v.name = .ok ()
  variables_distinct : (f.declared.map (·.name)).Nodup
  uses_declared : ∀ u ∈ f.uses, ∃ v ∈ f.declared,
    v.name = u.var ∧ v.isArray = u.asArray ∧ (u.assigns = true → v.isConstant = false)

/-- Whether the functions of a description are well-formed and have different names. -/
structure WellFormed (d : Description) : Prop where
  functions_distinct : (d.functions.map (·.name)).Nodup
  functions : ∀ f ∈ d.functions, f.WellFormed (d.functions.map (·.name))

/-- The variable that an entry declares. -/
def VariableEntry.toVariable (v : VariableEntry) : Variable := ⟨v.name, v.isArray, v.isConstant⟩

/-- The scope of the statements of a function. -/
def FunctionEntry.scope (f : FunctionEntry) : Scope := ⟨f.name, f.declared.map (·.toVariable)⟩

/-- What is wrong with a use of a variable. -/
def Scope.violations (s : Scope) (u : Use String) : List LoadFault :=
  match s.declared.find? (fun x => x.name = u.var) with
  | none => [.unknownVariable s.function u.var]
  | some x =>
    (if x.isArray = u.asArray then [] else [.shapeMismatch s.function u.var u.asArray]) ++
      if u.assigns && x.isConstant then [.assignToConstant s.function u.var] else []

/-- What is wrong with a name in a function. -/
def clashes (function name : String) : Except Identifier.Clash Unit → List LoadFault
  | .ok () => []
  | .error clash => [.ofClash function name clash]

/-- What is wrong with the members of a list, each of which is seen after those before it. -/
def violationsInTurn {α : Type} (check : List α → α → List LoadFault) (before : List α) :
    List α → List LoadFault
  | [] => []
  | a :: rest => check before a ++ violationsInTurn check (before ++ [a]) rest

/-- What is wrong with a variable that is declared after others. -/
def VariableEntry.violations (names : List String) (function : String)
    (before : List VariableEntry) (v : VariableEntry) : List LoadFault :=
  clashes function v.name (Identifier.checkVariable names v.name) ++
    if v.name ∈ before.map (·.name) then [.duplicateVariable function v.name] else []

/-- What is wrong with a function that comes after others. -/
def FunctionEntry.violations (names : List String) (before : List FunctionEntry)
    (f : FunctionEntry) : List LoadFault :=
  clashes f.name f.name (Identifier.checkFunction f.name) ++
    ((if f.name ∈ before.map (·.name) then [.duplicateFunction f.name] else []) ++
      (violationsInTurn (VariableEntry.violations names f.name) [] f.declared ++
        f.uses.flatMap f.scope.violations))

/-- What is wrong with a description, in the order in which it is resolved. -/
def violations (d : Description) : List LoadFault :=
  violationsInTurn (FunctionEntry.violations (d.functions.map (·.name))) [] d.functions

/-- Nothing is wrong with the members of a list if nothing is wrong with any of them by itself and
their keys are new and different. -/
theorem violationsInTurn_eq_nil {α : Type} {check : List α → α → List LoadFault}
    {key : α → String} {Good : α → Prop}
    (hcheck : ∀ before a, check before a = [] ↔ key a ∉ before.map key ∧ Good a)
    {before l : List α} :
    violationsInTurn check before l = [] ↔
      (∀ a ∈ l, key a ∉ before.map key ∧ Good a) ∧ (l.map key).Nodup := by
  induction l generalizing before with
  | nil => simp [violationsInTurn]
  | cons a rest ih =>
    rw [violationsInTurn, List.append_eq_nil_iff, hcheck, ih, List.map_append, List.map_cons,
      List.map_cons, List.nodup_cons]
    constructor
    · rintro ⟨ha, hrest, hnodup⟩
      refine ⟨?_, ?_, hnodup⟩
      · intro b hb
        rcases List.mem_cons.mp hb with rfl | hb
        · exact ha
        · exact ⟨fun hmem => (hrest b hb).1 (List.mem_append_left _ hmem), (hrest b hb).2⟩
      · intro hmem
        obtain ⟨b, hb, heq⟩ := List.mem_map.mp hmem
        exact (hrest b hb).1 (by simp [heq])
    · rintro ⟨hall, hnew, hnodup⟩
      refine ⟨hall a List.mem_cons_self, ?_, hnodup⟩
      intro b hb
      obtain ⟨hbefore, hgood⟩ := hall b (List.mem_cons_of_mem _ hb)
      refine ⟨?_, hgood⟩
      intro hmem
      rcases List.mem_append.mp hmem with hmem | hmem
      · exact hbefore hmem
      · exact hnew (List.mem_map.mpr ⟨b, hb, by simpa using hmem⟩)

/-- Nothing is wrong with a name that passes its check. -/
theorem clashes_eq_nil {function name : String} {outcome : Except Identifier.Clash Unit} :
    clashes function name outcome = [] ↔ outcome = .ok () := by
  cases outcome <;> simp [clashes]

/-- Nothing is wrong with a variable whose name is accepted and has not been declared before. -/
theorem VariableEntry.violations_eq_nil {names : List String} {function : String}
    (before : List VariableEntry) (v : VariableEntry) :
    v.violations names function before = [] ↔
      v.name ∉ before.map (·.name) ∧ Identifier.checkVariable names v.name = .ok () := by
  rw [VariableEntry.violations, List.append_eq_nil_iff, clashes_eq_nil, and_comm]
  simp

/-- Nothing is wrong with a use if a variable of that name is declared for it. -/
theorem Scope.violations_eq_nil {s : Scope} (hdistinct : (s.declared.map (·.name)).Nodup)
    {u : Use String} :
    s.violations u = [] ↔ ∃ x ∈ s.declared,
      x.name = u.var ∧ x.isArray = u.asArray ∧ (u.assigns = true → x.isConstant = false) := by
  unfold Scope.violations
  split
  · rename_i hfind
    constructor
    · intro h
      cases h
    · rintro ⟨x, hx, hname, _⟩
      exact absurd hname (by simpa using List.find?_eq_none.mp hfind x hx)
  · rename_i x hfind
    have hx : x ∈ s.declared := List.mem_of_find?_eq_some hfind
    have hname : x.name = u.var := by simpa using List.find?_some hfind
    constructor
    · intro h
      obtain ⟨hshape, hconstant⟩ := List.append_eq_nil_iff.mp h
      exact ⟨x, hx, hname, by simpa using hshape, by simpa using hconstant⟩
    · rintro ⟨y, hy, hyname, hshape, hconstant⟩
      obtain rfl := List.inj_on_of_nodup_map hdistinct hy hx (hyname.trans hname.symm)
      simpa [hshape] using hconstant

/-- The scope of a function has the names that the function declares. -/
theorem FunctionEntry.map_name_scope (f : FunctionEntry) :
    f.scope.declared.map (·.name) = f.declared.map (·.name) := by
  rw [FunctionEntry.scope, List.map_map]
  rfl

/-- Nothing is wrong with a function if it is well-formed and its name is new. -/
theorem FunctionEntry.violations_eq_nil {names : List String} (before : List FunctionEntry)
    (f : FunctionEntry) :
    f.violations names before = [] ↔ f.name ∉ before.map (·.name) ∧ f.WellFormed names := by
  have hname : (if f.name ∈ before.map (·.name) then [LoadFault.duplicateFunction f.name]
      else []) = [] ↔ f.name ∉ before.map (·.name) := by simp
  rw [FunctionEntry.violations, List.append_eq_nil_iff, List.append_eq_nil_iff,
    List.append_eq_nil_iff, clashes_eq_nil, hname,
    violationsInTurn_eq_nil VariableEntry.violations_eq_nil, List.flatMap_eq_nil_iff]
  constructor
  · rintro ⟨haccepted, hnew, ⟨hvariables, hdistinct⟩, huses⟩
    refine ⟨hnew, haccepted, fun v hv => (hvariables v hv).2, hdistinct, ?_⟩
    intro u hu
    obtain ⟨_, hx, huse⟩ :=
      (Scope.violations_eq_nil (f.map_name_scope ▸ hdistinct)).mp (huses u hu)
    obtain ⟨v, hv, rfl⟩ := List.mem_map.mp hx
    exact ⟨v, hv, huse⟩
  · rintro ⟨hnew, haccepted, hvariables, hdistinct, huses⟩
    refine ⟨haccepted, hnew, ⟨fun v hv => ⟨by simp, hvariables v hv⟩, hdistinct⟩, ?_⟩
    intro u hu
    obtain ⟨v, hv, huse⟩ := huses u hu
    exact (Scope.violations_eq_nil (f.map_name_scope ▸ hdistinct)).mpr
      ⟨v.toVariable, List.mem_map_of_mem hv, huse⟩

/-- A description is well-formed if nothing is wrong with it. -/
theorem wellFormed_iff {d : Description} : d.WellFormed ↔ d.violations = [] := by
  rw [violations, violationsInTurn_eq_nil FunctionEntry.violations_eq_nil]
  constructor
  · intro h
    exact ⟨fun f hf => ⟨by simp, h.functions f hf⟩, h.functions_distinct⟩
  · rintro ⟨hfunctions, hdistinct⟩
    exact ⟨hdistinct, fun f hf => (hfunctions f hf).2⟩

instance (d : Description) : Decidable d.WellFormed := decidable_of_iff _ wellFormed_iff.symm

/-- Whether a step stops at the first of some violations, and succeeds if there are none. -/
def Reports {α : Type} (x : Except LoadFault α) (faults : List LoadFault) : Prop :=
  match x with
  | .ok _ => faults = []
  | .error fault => faults.head? = some fault

namespace Reports

variable {α β : Type} {x : Except LoadFault α} {faults later : List LoadFault}

/-- A value reports nothing. -/
theorem ok (a : α) : Reports (.ok a) [] := rfl

/-- A fault reports itself. -/
theorem error (fault : LoadFault) : Reports (.error fault : Except LoadFault α) [fault] := rfl

/-- A step after another one is not reached if that one stops. -/
theorem bind {next : α → Except LoadFault β} (hx : Reports x faults)
    (hnext : ∀ a, x = .ok a → Reports (next a) later) : Reports (x >>= next) (faults ++ later) := by
  cases x with
  | ok a =>
    have hnone : faults = [] := hx
    rw [hnone]
    exact hnext a rfl
  | error fault =>
    have hhead : faults.head? = some fault := hx
    change (faults ++ later).head? = some fault
    rw [List.head?_append, hhead]
    rfl

/-- A last step that cannot stop adds no violations. -/
theorem map {next : α → β} (hx : Reports x faults) :
    Reports (x >>= fun a => pure (next a)) faults := by
  have h := hx.bind (fun a _ => ok (next a))
  rwa [List.append_nil] at h

/-- What reports its faults succeeds if and only if it has none. -/
theorem exists_eq_ok_iff (hx : Reports x faults) : (∃ a, x = .ok a) ↔ faults = [] := by
  cases x with
  | ok a => exact ⟨fun _ => hx, fun _ => ⟨a, rfl⟩⟩
  | error fault =>
    have hhead : faults.head? = some fault := hx
    constructor
    · rintro ⟨_, h⟩
      cases h
    · rintro rfl
      cases hhead

/-- What reports its faults fails with the first one. -/
theorem eq_error_iff (hx : Reports x faults) {fault : LoadFault} :
    x = .error fault ↔ faults.head? = some fault := by
  cases x with
  | ok a =>
    have hnone : faults = [] := hx
    simp [hnone]
  | error first =>
    have hhead : faults.head? = some first := hx
    simp [hhead]

end Reports

namespace Scope

variable {s : Scope}

/-- Looking up a variable reports what is wrong with a use that reads it. -/
theorem lookup_reports (name : String) (asArray : Bool) :
    Reports (s.lookup name asArray) (s.violations ⟨name, asArray, false⟩) := by
  cases hfind : s.declared.find? (fun x => x.name = name) with
  | none => simp [lookup, Scope.violations, hfind, Reports]
  | some x =>
    by_cases hshape : x.isArray = asArray
    · simp [lookup, Scope.violations, hfind, hshape, Reports]
    · simp [lookup, Scope.violations, hfind, hshape, Reports]

/-- Looking up a variable to assign to reports what is wrong with a use that writes it. -/
theorem writable_reports (name : String) (asArray : Bool) :
    Reports (s.writable name asArray) (s.violations ⟨name, asArray, true⟩) := by
  cases hfind : s.declared.find? (fun x => x.name = name) with
  | none => simp [writable, lookup, Scope.violations, hfind, Reports, bind, Except.bind]
  | some x =>
    by_cases hshape : x.isArray = asArray
    · by_cases hconstant : x.isConstant = true
      · simp [writable, lookup, Scope.violations, hfind, hshape, hconstant, Reports, bind,
          Except.bind]
      · simp [writable, lookup, Scope.violations, hfind, hshape, hconstant, Reports, bind,
          Except.bind]
    · simp [writable, lookup, Scope.violations, hfind, hshape, Reports, bind, Except.bind]

/-- An integer expression is resolved from left to right. -/
theorem intExpr_reports : (e : IntExpr String) →
    Reports (s.intExpr e) (e.uses.flatMap s.violations)
  | .literal _ => .ok _
  | .variable name => by
    rw [IntExpr.uses, List.flatMap_singleton]
    exact (lookup_reports name false).map
  | .element name index => by
    rw [IntExpr.uses, List.flatMap_cons]
    exact (lookup_reports name true).bind fun _ _ => (intExpr_reports index).map
  | .arith _ lhs rhs => by
    rw [IntExpr.uses, List.flatMap_append]
    exact (intExpr_reports lhs).bind fun _ _ => (intExpr_reports rhs).map
  | .negate operand => (intExpr_reports operand).map

mutual

/-- A Boolean expression is resolved from left to right. -/
theorem boolExpr_reports : (b : BoolExpr String) →
    Reports (s.boolExpr b) (b.uses.flatMap s.violations)
  | .constant _ => .ok _
  | .compare _ lhs rhs => by
    rw [BoolExpr.uses, List.flatMap_append]
    exact (intExpr_reports lhs).bind fun _ _ => (intExpr_reports rhs).map
  | .junction _ parts => (boolExprs_reports parts).map
  | .not operand => (boolExpr_reports operand).map

/-- Conditions report what is wrong with the uses in them, from left to right. -/
theorem boolExprs_reports : (bs : List (BoolExpr String)) →
    Reports (s.boolExprs bs) ((BoolExpr.usesOfAll bs).flatMap s.violations)
  | [] => .ok _
  | b :: rest => by
    rw [BoolExpr.usesOfAll, List.flatMap_append]
    exact (boolExpr_reports b).bind fun _ _ => (boolExprs_reports rest).map

end

/-- A target reports what is wrong with its variable, and then with the uses in its index. -/
theorem target_reports (t : Target String) :
    Reports (s.target t) (t.uses.flatMap s.violations) := by
  cases t with
  | scalar name =>
    rw [Target.uses, List.flatMap_singleton]
    exact (writable_reports name false).map
  | element name index =>
    rw [Target.uses, List.flatMap_cons]
    exact (writable_reports name true).bind fun _ _ => (intExpr_reports index).map

/-- A nested block stops where its statements do. The statement that is put into an empty one uses
no variables. -/
theorem nestedBlock_reports {loops : List String} {number : Nat} {cs : List Command}
    (hblock : Reports (s.block loops number cs) ((Command.blockUses cs).flatMap s.violations)) :
    Reports (s.nestedBlock loops number cs) ((Command.blockUses cs).flatMap s.violations) := by
  cases cs with
  | nil => exact .ok _
  | cons c rest => exact hblock

/-- The statements of a block are resolved in order, each before those nested in it. -/
theorem block_reports (cs : List Command) (loops : List String) (number : Nat) :
    Reports (s.block loops number cs) ((Command.blockUses cs).flatMap s.violations) := by
  induction cs using Command.blockInduction generalizing loops number with
  | nil => exact .ok _
  | assign target value rest ih =>
    rw [Command.blockUses, Command.uses, List.flatMap_append, List.flatMap_append]
    refine Reports.bind ?_ fun _ _ => (ih _ _).map
    exact (target_reports target).bind fun _ _ => (intExpr_reports value).map
  | skip rest ih => exact (Reports.ok _).bind fun _ _ => (ih _ _).map
  | branch c thens elses rest ihthens ihelses ih =>
    rw [Command.blockUses, Command.uses, List.flatMap_append, List.flatMap_append,
      List.flatMap_append]
    refine Reports.bind ?_ fun _ _ => (ih _ _).map
    refine (boolExpr_reports c).bind fun _ _ => ?_
    refine (nestedBlock_reports (ihthens _ _)).bind fun _ _ => ?_
    exact (nestedBlock_reports (ihelses _ _)).map
  | loop c body rest ihbody ih =>
    rw [Command.blockUses, Command.uses, List.flatMap_append, List.flatMap_append]
    refine Reports.bind ?_ fun _ _ => (ih _ _).map
    exact (boolExpr_reports c).bind fun _ _ => (nestedBlock_reports (ihbody _ _)).map

end Scope

/-- A check of a name reports what is wrong with the name. -/
theorem checked_reports (function name : String) (outcome : Except Identifier.Clash Unit) :
    Reports (checked function name outcome) (clashes function name outcome) := by
  cases outcome with
  | ok _ => exact .ok _
  | error clash => exact .error _

/-- Variables are declared in order. -/
theorem declareVariables_reports (names : List String) (function : String)
    (before vs : List VariableEntry) :
    Reports (declareVariables names ⟨function, before.map (·.toVariable)⟩ vs)
      (violationsInTurn (VariableEntry.violations names function) before vs) := by
  induction vs generalizing before with
  | nil => exact .ok _
  | cons v rest ih =>
    rw [violationsInTurn, VariableEntry.violations, List.append_assoc]
    refine (checked_reports _ _ _).bind fun _ _ => ?_
    have hany : (before.map (·.toVariable)).any (fun x => x.name = v.name) = true ↔
        v.name ∈ before.map (·.name) := by
      simp [VariableEntry.toVariable]
    by_cases hmem : v.name ∈ before.map (·.name)
    · rw [if_pos hmem, if_pos (hany.mpr hmem)]
      exact rfl
    · rw [if_neg hmem, if_neg (fun h => hmem (hany.mp h)), List.nil_append]
      have hdeclared := ih (before ++ [v])
      rwa [List.map_append] at hdeclared

/-- The scope after declaring variables holds all of them. -/
theorem declareVariables_eq_ok {names : List String} {s s' : Scope} {vs : List VariableEntry}
    (h : declareVariables names s vs = .ok s') :
    s' = { s with declared := s.declared ++ vs.map (·.toVariable) } := by
  induction vs generalizing s with
  | nil =>
    cases h
    simp
  | cons v rest ih =>
    obtain ⟨_, _, h⟩ := bind_eq_ok.mp h
    split at h
    · cases h
    · rw [ih h, List.map_cons, List.append_assoc]
      rfl

/-- The statements and the postcondition of a function are resolved after its variables. -/
theorem resolveFunction_reports (names : List String) (number : Nat) (f : FunctionEntry) :
    Reports (resolveFunction names number f)
      (violationsInTurn (VariableEntry.violations names f.name) [] f.declared ++
        f.uses.flatMap f.scope.violations) := by
  refine (declareVariables_reports names f.name [] f.declared).bind fun s hs => ?_
  obtain rfl : s = f.scope := by
    rw [declareVariables_eq_ok hs]
    rfl
  -- From here on the scope is that of the declared variables, since all of them were accepted.
  rw [FunctionEntry.uses, List.flatMap_append]
  refine (Scope.block_reports _ _ _).bind fun _ _ => ?_
  cases hpost : f.postcondition with
  | none =>
    rw [FunctionEntry.finalUses, hpost]
    exact .ok _
  | some b =>
    rw [FunctionEntry.finalUses, hpost]
    exact (Scope.boolExpr_reports b).map

/-- Functions are resolved in order. -/
theorem resolveFunctions_reports (names : List String) {earlier : List String}
    {before : List FunctionEntry} (hearlier : ∀ name, name ∈ earlier ↔ name ∈ before.map (·.name))
    (number : Nat) (fs : List FunctionEntry) :
    Reports (resolveFunctions names earlier number fs)
      (violationsInTurn (FunctionEntry.violations names) before fs) := by
  -- The names of earlier functions are kept the last one first, so only membership is compared.
  induction fs generalizing earlier before number with
  | nil => exact .ok _
  | cons f rest ih =>
    rw [violationsInTurn, FunctionEntry.violations, List.append_assoc, List.append_assoc]
    refine (checked_reports _ _ _).bind fun _ _ => ?_
    have hcontains : earlier.contains f.name = true ↔ f.name ∈ before.map (·.name) := by
      rw [List.contains_iff_mem, hearlier]
    by_cases hmem : f.name ∈ before.map (·.name)
    · rw [if_pos hmem, if_pos (hcontains.mpr hmem)]
      exact rfl
    · rw [if_neg hmem, if_neg (fun h => hmem (hcontains.mp h)), List.nil_append]
      refine (resolveFunction_reports names number f).bind fun _ _ => (ih ?_ _).map
      intro name
      rw [List.mem_cons, hearlier, List.map_append, List.mem_append, or_comm]
      simp

/-- A description reports what is wrong with it, in the order in which it is resolved. -/
theorem resolve_reports (d : Description) : Reports d.resolve d.violations :=
  (resolveFunctions_reports _ (by simp) 0 d.functions).map

end Description

namespace Program

/-- Of the texts that describe a program, those of well-formed descriptions are loaded. For every
other one the fault is the first violation. -/
theorem load_eq_error_iff_first_violation {source : String} {d : Description}
    (hparse : Description.parse source = .ok d) :
    ((∃ p, load source = .ok p) ↔ d.WellFormed) ∧
      ∀ fault, load source = .error fault ↔ d.violations.head? = some fault := by
  have hload : load source = d.resolve := by rw [load, hparse]
  rw [hload, Description.wellFormed_iff]
  exact ⟨d.resolve_reports.exists_eq_ok_iff, fun _ => d.resolve_reports.eq_error_iff⟩

/-- A variable is named like the end of a function that comes later, a constant scalar is assigned
to as an array, and the index is not declared. -/
def faultySource : String :=
  "[[[\"f\",[[\"x\",false,true],[\"g_end\"]]," ++
    "[\x7b\"assign\":[\x7b\"array\":\"x\",\"index\":\x7b\"var\":\"y\"\x7d\x7d,\x7b\"const\":0\x7d]\x7d]],[\"g\"]]]"

/-- The sample has four faults, and the first one is reported. -/
theorem load_faultySource : ∃ d, Description.parse faultySource = .ok d ∧
    d.violations = [.reservedName "f" "g_end" .timePoint, .shapeMismatch "f" "x" true,
      .assignToConstant "f" "x", .unknownVariable "f" "y"] ∧
    ¬ d.WellFormed ∧ load faultySource = .error (.reservedName "f" "g_end" .timePoint) := by
  have hsome : (Description.parse faultySource).toOption.map (·.violations) =
      some [.reservedName "f" "g_end" .timePoint, .shapeMismatch "f" "x" true,
        .assignToConstant "f" "x", .unknownVariable "f" "y"] := by decide +kernel
  obtain ⟨d, hd, hviolations⟩ := Option.map_eq_some_iff.mp hsome
  have hparse := toOption_eq_some.mp hd
  obtain ⟨hformed, hfault⟩ := load_eq_error_iff_first_violation hparse
  have hload : load faultySource = .error (.reservedName "f" "g_end" .timePoint) := by
    rw [hfault, hviolations]
    rfl
  refine ⟨d, hparse, hviolations, ?_, hload⟩
  rw [← hformed, hload]
  rintro ⟨_, h⟩
  cases h

end Program

end TraceLogic
