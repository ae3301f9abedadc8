import TraceLogic.Proofs.Naming

/-!
# What every loaded program satisfies

Loading numbers the statements of a program in order, fills empty blocks, records the loops around
every loop and binds every name to a declared variable. `Program.Formed` collects these facts, and
`Program.formed_of_load` derives them from a successful load. All that is proved about generated
problems goes through it.
-/

namespace TraceLogic

open Description Description.Scope

/-- What holds of every function that has been loaded. -/
structure Function.Formed (f : Function) : Prop where
  /-- The name has been checked. -/
  accepted : Identifier.checkFunction f.name = .ok ()
  /-- No two variables have the same name. -/
  declared_nodup : (f.declared.map (·.name)).Nodup
  /-- Statements are in scope, and nested blocks are not empty. -/
  statements : Statement.BlockFormed f.declared [] f.statements
  /-- The postcondition is in scope. -/
  postcondition : ∀ post, f.postcondition = some post → post.Scoped f.declared

/-- Whether statements have the numbers after a first one up to a last one, in order. -/
def NumberedFrom (first last : Nat) (statements : List Statement) : Prop :=
  first ≤ last ∧
    statements.map Statement.site = (List.range' (first + 1) (last - first)).map siteOf

namespace NumberedFrom

/-- No statements have no numbers. -/
theorem nil (n : Nat) : NumberedFrom n n [] := by
  simp [NumberedFrom]

/-- Statements that are numbered one after the other are numbered together. -/
theorem append {a b c : Nat} {ss ts : List Statement} (hs : NumberedFrom a b ss)
    (ht : NumberedFrom b c ts) : NumberedFrom a c (ss ++ ts) := by
  refine ⟨Nat.le_trans hs.1 ht.1, ?_⟩
  have hlength : c - a = (b - a) + (c - b) := by
    have := hs.1
    have := ht.1
    omega
  have hnext : a + 1 + 1 * (b - a) = b + 1 := by
    have := hs.1
    omega
  rw [List.map_append, hs.2, ht.2, hlength, ← List.range'_append, hnext, List.map_append]

/-- A statement with the next number comes before those that are numbered after it. -/
theorem cons {a b : Nat} {s : Statement} {ts : List Statement} (hs : s.site = siteOf (a + 1))
    (ht : NumberedFrom (a + 1) b ts) : NumberedFrom a b (s :: ts) := by
  have hone : NumberedFrom a (a + 1) [s] := by
    refine ⟨Nat.le_succ a, ?_⟩
    rw [Nat.add_sub_cancel_left, List.range'_one, List.map_singleton, List.map_singleton, hs]
  exact hone.append ht

end NumberedFrom

/-- What holds of every program that has been loaded. -/
structure Program.Formed (p : Program) : Prop where
  /-- The statements are numbered from one in order. -/
  numbered : ∃ last, NumberedFrom 0 last (p.functions.flatMap Function.statementsInOrder)
  /-- No two functions have the same name. -/
  functions_nodup : (p.functions.map (·.name)).Nodup
  /-- Each function is formed. -/
  functions : ∀ f ∈ p.functions, f.Formed
  /-- The names of variables have been checked. -/
  variable_accepted : ∀ f ∈ p.functions, ∀ x ∈ f.declared,
    Identifier.checkVariable (p.functions.map (·.name)) x.name = .ok ()

namespace Description

/-- Induction over a block of commands, along its first command and that command's blocks. -/
@[elab_as_elim]
theorem Command.blockInduction {motive : List Command → Prop} (nil : motive [])
    (assign : ∀ target value rest, motive rest → motive (.assign target value :: rest))
    (skip : ∀ rest, motive rest → motive (.skip :: rest))
    (branch : ∀ c thens elses rest, motive thens → motive elses → motive rest →
      motive (.branch c thens elses :: rest))
    (loop : ∀ c body rest, motive body → motive rest → motive (.loop c body :: rest)) :
    ∀ cs, motive cs
  | [] => nil
  | .assign _ _ :: rest => assign _ _ _ (blockInduction nil assign skip branch loop rest)
  | .skip :: rest => skip _ (blockInduction nil assign skip branch loop rest)
  | .branch _ thens elses :: rest =>
    branch _ _ _ _ (blockInduction nil assign skip branch loop thens)
      (blockInduction nil assign skip branch loop elses)
      (blockInduction nil assign skip branch loop rest)
  | .loop _ body :: rest =>
    loop _ _ _ (blockInduction nil assign skip branch loop body)
      (blockInduction nil assign skip branch loop rest)

namespace Scope

variable {s : Scope}

/-- A variable that has been found is declared, has the name and has the shape that was asked
for. -/
theorem lookup_eq_ok {name : String} {asArray : Bool} {x : Variable}
    (h : s.lookup name asArray = .ok x) :
    x ∈ s.declared ∧ x.name = name ∧ x.isArray = asArray := by
  unfold lookup at h
  split at h
  · cases h
  · rename_i y hfind
    split at h
    · rename_i hshape
      cases h
      exact ⟨List.mem_of_find?_eq_some hfind, by simpa using List.find?_some hfind, hshape⟩
    · cases h

/-- A variable that may be assigned to is also no constant. -/
theorem writable_eq_ok {name : String} {asArray : Bool} {x : Variable}
    (h : s.writable name asArray = .ok x) :
    x ∈ s.declared ∧ x.name = name ∧ x.isArray = asArray ∧ x.isConstant = false := by
  obtain ⟨y, hlookup, h⟩ := bind_eq_ok.mp h
  obtain ⟨hmem, hname, hshape⟩ := lookup_eq_ok hlookup
  split at h
  · cases h
  · rename_i hconstant
    cases h
    exact ⟨hmem, hname, hshape, by simpa using hconstant⟩

/-- A resolved integer expression is in scope. -/
theorem intExpr_scoped : {e : IntExpr String} → {e' : IntExpr Variable} →
    s.intExpr e = .ok e' → e'.Scoped s.declared
  | .literal _, _, h => by
    cases h
    trivial
  | .variable _, _, h => by
    obtain ⟨x, hlookup, h⟩ := bind_eq_ok.mp h
    obtain ⟨hmem, _, hshape⟩ := lookup_eq_ok hlookup
    cases h
    exact ⟨hmem, hshape⟩
  | .element _ _, _, h => by
    obtain ⟨a, hlookup, h⟩ := bind_eq_ok.mp h
    obtain ⟨i, hindex, h⟩ := bind_eq_ok.mp h
    obtain ⟨hmem, _, hshape⟩ := lookup_eq_ok hlookup
    cases h
    exact ⟨⟨hmem, hshape⟩, intExpr_scoped hindex⟩
  | .arith _ _ _, _, h => by
    obtain ⟨l, hl, h⟩ := bind_eq_ok.mp h
    obtain ⟨r, hr, h⟩ := bind_eq_ok.mp h
    cases h
    exact ⟨intExpr_scoped hl, intExpr_scoped hr⟩
  | .negate _, _, h => by
    obtain ⟨o, ho, h⟩ := bind_eq_ok.mp h
    cases h
    exact (intExpr_scoped ho : o.Scoped s.declared)

mutual

/-- A resolved Boolean expression is in scope. -/
theorem boolExpr_scoped : {b : BoolExpr String} → {b' : BoolExpr Variable} →
    s.boolExpr b = .ok b' → b'.Scoped s.declared
  | .constant _, _, h => by
    cases h
    trivial
  | .compare _ _ _, _, h => by
    obtain ⟨l, hl, h⟩ := bind_eq_ok.mp h
    obtain ⟨r, hr, h⟩ := bind_eq_ok.mp h
    cases h
    exact ⟨intExpr_scoped hl, intExpr_scoped hr⟩
  | .junction _ _, _, h => by
    obtain ⟨ps, hps, h⟩ := bind_eq_ok.mp h
    cases h
    exact boolExprs_scoped hps
  | .not _, _, h => by
    obtain ⟨o, ho, h⟩ := bind_eq_ok.mp h
    cases h
    exact (boolExpr_scoped ho : o.Scoped s.declared)

/-- Resolved conditions are in scope. -/
theorem boolExprs_scoped : {bs : List (BoolExpr String)} → {bs' : List (BoolExpr Variable)} →
    s.boolExprs bs = .ok bs' → BoolExpr.AllScoped s.declared bs'
  | [], _, h => by
    cases h
    trivial
  | _ :: _, _, h => by
    obtain ⟨c, hc, h⟩ := bind_eq_ok.mp h
    obtain ⟨cs, hcs, h⟩ := bind_eq_ok.mp h
    cases h
    exact ⟨boolExpr_scoped hc, boolExprs_scoped hcs⟩

end

/-- A resolved target is in scope. -/
theorem target_scoped {t : Target String} {t' : Target Variable} (h : s.target t = .ok t') :
    t'.Scoped s.declared := by
  cases t with
  | scalar name =>
    obtain ⟨x, hx, h⟩ := bind_eq_ok.mp h
    obtain ⟨hmem, _, hwritable⟩ := writable_eq_ok hx
    cases h
    exact ⟨hmem, hwritable⟩
  | element name index =>
    obtain ⟨a, ha, h⟩ := bind_eq_ok.mp h
    obtain ⟨i, hi, h⟩ := bind_eq_ok.mp h
    obtain ⟨hmem, _, hwritable⟩ := writable_eq_ok ha
    cases h
    exact ⟨⟨hmem, hwritable⟩, intExpr_scoped hi⟩

section Inversion

variable {loops : List String} {number : Nat}

/-- A block is resolved statement by statement, and the rest is numbered after the first one. -/
theorem block_cons_eq_ok {c : Command} {rest : List Command} {result : List Statement × Nat}
    (h : s.block loops number (c :: rest) = .ok result) :
    ∃ t n ts m, s.command loops number c = .ok (t, n) ∧ s.block loops n rest = .ok (ts, m) ∧
      result = (t :: ts, m) := by
  obtain ⟨⟨t, n⟩, hcommand, h⟩ := bind_eq_ok.mp h
  obtain ⟨⟨ts, m⟩, hrest, h⟩ := bind_eq_ok.mp h
  cases h
  exact ⟨t, n, ts, m, hcommand, hrest, rfl⟩

/-- An assignment takes one number, and its target and value are resolved. -/
theorem command_assign_eq_ok {target : Target String} {value : IntExpr String}
    {result : Statement × Nat} (h : s.command loops number (.assign target value) = .ok result) :
    ∃ t e, s.target target = .ok t ∧ s.intExpr value = .ok e ∧
      result = (.assign (siteOf (number + 1)) t e, number + 1) := by
  obtain ⟨t, htarget, h⟩ := bind_eq_ok.mp h
  obtain ⟨e, hvalue, h⟩ := bind_eq_ok.mp h
  cases h
  exact ⟨t, e, htarget, hvalue, rfl⟩

/-- A branch takes one number, and its blocks are numbered after it in order. -/
theorem command_branch_eq_ok {c : BoolExpr String} {thens elses : List Command}
    {result : Statement × Nat} (h : s.command loops number (.branch c thens elses) = .ok result) :
    ∃ b left n right m, s.boolExpr c = .ok b ∧
      s.nestedBlock loops (number + 1) thens = .ok (left, n) ∧
      s.nestedBlock loops n elses = .ok (right, m) ∧
      result = (.branch (siteOf (number + 1)) b left right, m) := by
  obtain ⟨b, hcondition, h⟩ := bind_eq_ok.mp h
  obtain ⟨⟨left, n⟩, hleft, h⟩ := bind_eq_ok.mp h
  obtain ⟨⟨right, m⟩, hright, h⟩ := bind_eq_ok.mp h
  cases h
  exact ⟨b, left, n, right, m, hcondition, hleft, hright, rfl⟩

/-- A loop takes one number and is around its body, which is numbered after it. -/
theorem command_loop_eq_ok {c : BoolExpr String} {body : List Command} {result : Statement × Nat}
    (h : s.command loops number (.loop c body) = .ok result) :
    ∃ b inside n, s.boolExpr c = .ok b ∧
      s.nestedBlock (loops ++ [(siteOf (number + 1)).location]) (number + 1) body =
        .ok (inside, n) ∧
      result = (.loop (siteOf (number + 1)) loops b inside, n) := by
  obtain ⟨b, hcondition, h⟩ := bind_eq_ok.mp h
  obtain ⟨⟨inside, n⟩, hbody, h⟩ := bind_eq_ok.mp h
  cases h
  exact ⟨b, inside, n, hcondition, hbody, rfl⟩

end Inversion

/-- What resolving a block gives, inside loops and after a number has been given. -/
def Resolved (s : Scope) (loops : List String) (number : Nat) (result : List Statement × Nat) :
    Prop :=
  Statement.BlockFormed s.declared loops result.1 ∧
    NumberedFrom number result.2 (Statement.blockInOrder result.1)

/-- A nested block is resolved like any other, and is not empty. -/
theorem nestedBlock_resolved {loops : List String} {number : Nat} {cs : List Command}
    {result : List Statement × Nat}
    (hblock : ∀ result, s.block loops number cs = .ok result → s.Resolved loops number result)
    (h : s.nestedBlock loops number cs = .ok result) :
    result.1 ≠ [] ∧ s.Resolved loops number result := by
  cases cs with
  | nil =>
    cases h
    exact ⟨by simp, ⟨trivial, trivial⟩, .cons rfl (.nil _)⟩
  | cons c rest =>
    refine ⟨?_, hblock result h⟩
    obtain ⟨t, _, ts, _, _, _, rfl⟩ := block_cons_eq_ok h
    simp

/-- Resolving a block numbers its statements in order, binds its names and fills its blocks. -/
theorem block_resolved {loops : List String} {number : Nat} {cs : List Command}
    {result : List Statement × Nat} (h : s.block loops number cs = .ok result) :
    s.Resolved loops number result := by
  induction cs using Command.blockInduction generalizing loops number result with
  | nil =>
    cases h
    exact ⟨trivial, .nil _⟩
  | assign target value rest ih =>
    obtain ⟨_, _, ts, m, hcommand, hrest, rfl⟩ := block_cons_eq_ok h
    obtain ⟨t, e, htarget, hvalue, ⟨⟩⟩ := command_assign_eq_ok hcommand
    obtain ⟨hformed, hnumbered⟩ := ih hrest
    exact ⟨⟨⟨target_scoped htarget, intExpr_scoped hvalue⟩, hformed⟩, .cons rfl hnumbered⟩
  | skip rest ih =>
    obtain ⟨_, _, ts, m, hcommand, hrest, rfl⟩ := block_cons_eq_ok h
    cases hcommand
    obtain ⟨hformed, hnumbered⟩ := ih hrest
    exact ⟨⟨trivial, hformed⟩, .cons rfl hnumbered⟩
  | branch c thens elses rest ihthens ihelses ih =>
    obtain ⟨_, _, ts, m, hcommand, hrest, rfl⟩ := block_cons_eq_ok h
    obtain ⟨b, left, n, right, _, hcondition, hleft, hright, ⟨⟩⟩ := command_branch_eq_ok hcommand
    obtain ⟨hleftne, hleft, hleftnumbered⟩ := nestedBlock_resolved (fun _ => ihthens) hleft
    obtain ⟨hrightne, hright, hrightnumbered⟩ := nestedBlock_resolved (fun _ => ihelses) hright
    obtain ⟨hformed, hnumbered⟩ := ih hrest
    refine ⟨⟨⟨boolExpr_scoped hcondition, ⟨hleftne, hleft⟩, hrightne, hright⟩, hformed⟩, ?_⟩
    exact .append (.cons rfl (hleftnumbered.append hrightnumbered)) hnumbered
  | loop c body rest ihbody ih =>
    obtain ⟨_, _, ts, m, hcommand, hrest, rfl⟩ := block_cons_eq_ok h
    obtain ⟨b, inside, _, hcondition, hbody, ⟨⟩⟩ := command_loop_eq_ok hcommand
    obtain ⟨hbodyne, hbody, hbodynumbered⟩ := nestedBlock_resolved (fun _ => ihbody) hbody
    obtain ⟨hformed, hnumbered⟩ := ih hrest
    refine ⟨⟨⟨rfl, boolExpr_scoped hcondition, hbodyne, hbody⟩, hformed⟩, ?_⟩
    exact .append (.cons rfl hbodynumbered) hnumbered

end Scope

/-- Declared variables have different names. -/
theorem declareVariables_nodup {functions : List String} {s s' : Scope} {vs : List VariableEntry}
    (h : declareVariables functions s vs = .ok s') (hs : (s.declared.map (·.name)).Nodup) :
    (s'.declared.map (·.name)).Nodup := by
  induction vs generalizing s with
  | nil =>
    cases h
    exact hs
  | cons v rest ih =>
    obtain ⟨_, _, h⟩ := bind_eq_ok.mp h
    split at h
    · cases h
    · rename_i hnew
      refine ih h ?_
      rw [List.map_append, List.nodup_append]
      refine ⟨hs, List.nodup_singleton _, ?_⟩
      intro name hname name' hname'
      obtain ⟨x, hx, rfl⟩ := List.mem_map.mp hname
      obtain rfl := List.mem_singleton.mp hname'
      intro heq
      exact hnew (List.any_eq_true.mpr ⟨x, hx, by simpa using heq⟩)

/-- A name that has been checked has passed its check. -/
theorem checked_eq_ok {function name : String} {outcome : Except Identifier.Clash Unit}
    (h : checked function name outcome = .ok ()) : outcome = .ok () := by
  cases outcome with
  | ok _ => rfl
  | error clash => cases h

/-- The names of declared variables have been checked. -/
theorem declareVariables_accepted {functions : List String} {s s' : Scope}
    {vs : List VariableEntry} (h : declareVariables functions s vs = .ok s')
    (hs : ∀ x ∈ s.declared, Identifier.checkVariable functions x.name = .ok ()) :
    ∀ x ∈ s'.declared, Identifier.checkVariable functions x.name = .ok () := by
  induction vs generalizing s with
  | nil =>
    cases h
    exact hs
  | cons v rest ih =>
    obtain ⟨_, hchecked, h⟩ := bind_eq_ok.mp h
    split at h
    · cases h
    · refine ih h fun x hx => ?_
      rcases List.mem_append.mp hx with hx | hx
      · exact hs x hx
      · obtain rfl := List.mem_singleton.mp hx
        exact checked_eq_ok hchecked

/-- A resolved function is formed, its variables are accepted, and its statements are numbered
on. -/
theorem resolveFunction_formed {names : List String} {number : Nat} {f : FunctionEntry}
    {g : Function} {last : Nat} (haccepted : Identifier.checkFunction f.name = .ok ())
    (h : resolveFunction names number f = .ok (g, last)) :
    g.name = f.name ∧ g.Formed ∧
      (∀ x ∈ g.declared, Identifier.checkVariable names x.name = .ok ()) ∧
      NumberedFrom number last g.statementsInOrder := by
  obtain ⟨s, hdeclared, h⟩ := bind_eq_ok.mp h
  obtain ⟨⟨statements, n⟩, hblock, h⟩ := bind_eq_ok.mp h
  have hnodup := declareVariables_nodup hdeclared List.nodup_nil
  have hvariables := declareVariables_accepted hdeclared (by simp)
  obtain ⟨hformed, hnumbered⟩ := Scope.block_resolved hblock
  cases hpost : f.postcondition with
  | none =>
    rw [hpost] at h
    cases h
    exact ⟨rfl, ⟨haccepted, hnodup, hformed, by simp⟩, hvariables, hnumbered⟩
  | some b =>
    rw [hpost] at h
    obtain ⟨post, hpost, h⟩ := bind_eq_ok.mp h
    cases h
    refine ⟨rfl, ⟨haccepted, hnodup, hformed, ?_⟩, hvariables, hnumbered⟩
    rintro _ ⟨⟩
    exact Scope.boolExpr_scoped hpost

/-- Resolved functions are formed, numbered in order, and named differently. -/
theorem resolveFunctions_formed {names earlier : List String} {number : Nat}
    {fs : List FunctionEntry} {gs : List Function}
    (h : resolveFunctions names earlier number fs = .ok gs) :
    gs.map (·.name) = fs.map (·.name) ∧
      (∃ last, NumberedFrom number last (gs.flatMap Function.statementsInOrder)) ∧
      (gs.map (·.name)).Nodup ∧ ∀ g ∈ gs, g.name ∉ earlier ∧ g.Formed ∧
        ∀ x ∈ g.declared, Identifier.checkVariable names x.name = .ok () := by
  induction fs generalizing earlier number gs with
  | nil =>
    cases h
    exact ⟨rfl, ⟨number, .nil _⟩, List.nodup_nil, by simp⟩
  | cons f rest ih =>
    obtain ⟨_, hchecked, h⟩ := bind_eq_ok.mp h
    split at h
    · cases h
    · rename_i hnew
      obtain ⟨⟨g, n⟩, hfunction, h⟩ := bind_eq_ok.mp h
      obtain ⟨gs', hrest, h⟩ := bind_eq_ok.mp h
      cases h
      obtain ⟨hname, hg, hgvariables, hgnumbered⟩ :=
        resolveFunction_formed (checked_eq_ok hchecked) hfunction
      obtain ⟨hnames, ⟨last, hnumbered⟩, hnodup, hformed⟩ := ih hrest
      refine ⟨?_, ⟨last, hgnumbered.append hnumbered⟩, List.nodup_cons.mpr ⟨?_, hnodup⟩, ?_⟩
      · rw [List.map_cons, List.map_cons, hname, hnames]
      · intro hmem
        obtain ⟨g', hg', heq⟩ := List.mem_map.mp hmem
        have hsame : g'.name = f.name := heq.trans hname
        exact (hformed g' hg').1 (hsame ▸ List.mem_cons_self)
      · intro g' hg'
        rcases List.mem_cons.mp hg' with rfl | hg'
        · exact ⟨by rw [hname]; simpa using hnew, hg, hgvariables⟩
        · exact ⟨fun h => (hformed g' hg').1 (List.mem_cons_of_mem _ h), (hformed g' hg').2⟩

end Description

/-- Every loaded program is formed. -/
theorem Program.formed_of_load {source : String} {p : Program} (h : Program.load source = .ok p) :
    p.Formed := by
  unfold Program.load at h
  split at h
  · obtain ⟨gs, hresolve, h⟩ := bind_eq_ok.mp h
    cases h
    obtain ⟨hnames, hnumbered, hnodup, hformed⟩ := Description.resolveFunctions_formed hresolve
    refine ⟨hnumbered, hnodup, fun f hf => (hformed f hf).2.1, fun f hf x hx => ?_⟩
    rw [hnames]
    exact (hformed f hf).2.2 x hx
  · cases h

namespace Program.Formed

variable {p : Program}

/-- Every statement stands at the location of its number. -/
theorem exists_site_eq (hp : p.Formed) {f : Function} (hf : f ∈ p.functions) {s : Statement}
    (hs : s ∈ f.statementsInOrder) : ∃ n, s.site = siteOf n := by
  obtain ⟨last, _, hsites⟩ := hp.numbered
  have hmem : s.site ∈ (List.range' (0 + 1) (last - 0)).map siteOf := by
    rw [← hsites]
    exact List.mem_map_of_mem (List.mem_flatMap.mpr ⟨f, hf, hs⟩)
  obtain ⟨n, _, hn⟩ := List.mem_map.mp hmem
  exact ⟨n, hn.symm⟩

/-- No two points of a program share a location. -/
theorem locations_nodup (hp : p.Formed) : p.locations.Nodup := by
  obtain ⟨last, _, hsites⟩ := hp.numbered
  have hstatements := flatMap_ownLocations_nodup hsites List.nodup_range'
  rw [List.flatMap_assoc] at hstatements
  obtain ⟨hblocks, hdisjoint⟩ := List.nodup_flatMap.mp hstatements
  refine List.nodup_flatMap.mpr ⟨?_, ?_⟩
  · intro f hf
    refine List.nodup_cons.mpr ⟨?_, hblocks f hf⟩
    intro hmem
    obtain ⟨s, hs, hname⟩ := List.mem_flatMap.mp hmem
    obtain ⟨n, hsite⟩ := hp.exists_site_eq hf hs
    exact functionEnd_ne_of_mem_ownLocations (hp.functions f hf).accepted hsite hname rfl
  · have hnames := List.pairwise_map.mp hp.functions_nodup
    refine List.Pairwise.imp_of_mem ?_ (hdisjoint.and hnames)
    rintro f g hf hg ⟨hdisjoint, hne⟩ name hnamef hnameg
    rcases List.mem_cons.mp hnamef with rfl | hnamef
    · rcases List.mem_cons.mp hnameg with heq | hnameg
      · exact hne (functionEnd_injective heq)
      · obtain ⟨s, hs, hname⟩ := List.mem_flatMap.mp hnameg
        obtain ⟨n, hsite⟩ := hp.exists_site_eq hg hs
        exact functionEnd_ne_of_mem_ownLocations (hp.functions f hf).accepted hsite hname rfl
    · rcases List.mem_cons.mp hnameg with rfl | hnameg
      · obtain ⟨s, hs, hname⟩ := List.mem_flatMap.mp hnamef
        obtain ⟨n, hsite⟩ := hp.exists_site_eq hf hs
        exact functionEnd_ne_of_mem_ownLocations (hp.functions g hg).accepted hsite hname rfl
      · exact hdisjoint hnamef hnameg

/-- The loops of a program are numbered. -/
theorem exists_eq_siteOf_of_mem_loops (hp : p.Formed) {location : String}
    (hlocation : location ∈ p.loops) : ∃ n, location = (siteOf n).location := by
  obtain ⟨f, hf, hlocation⟩ := List.mem_flatMap.mp hlocation
  obtain ⟨s, hs, hlocation⟩ := List.mem_flatMap.mp hlocation
  obtain ⟨n, hsite⟩ := hp.exists_site_eq hf hs
  cases s with
  | loop site enclosing c body =>
    have hsite : site = siteOf n := hsite
    exact ⟨n, hsite ▸ List.mem_singleton.mp hlocation⟩
  | assign site target value => cases hlocation
  | branch site c thens elses => cases hlocation
  | skip site => cases hlocation

/-- The last iteration of a loop is no location of the program. -/
theorem lastName_ne (hp : p.Formed) {location name : String} (hlocation : location ∈ p.loops)
    (hname : name ∈ p.locations) : lastName location ≠ name := by
  obtain ⟨n, rfl⟩ := hp.exists_eq_siteOf_of_mem_loops hlocation
  obtain ⟨f, hf, hname⟩ := List.mem_flatMap.mp hname
  rcases List.mem_cons.mp hname with rfl | hname
  · exact (functionEnd_ne_lastName f.name n).symm
  · obtain ⟨s, hs, hname⟩ := List.mem_flatMap.mp hname
    obtain ⟨m, hsite⟩ := hp.exists_site_eq hf hs
    exact lastName_ne_of_mem_ownLocations _ hsite hname

end Program.Formed

namespace Program

/-- Two functions, of which one has a branch inside a loop and a loop inside the branch. Two blocks
are left empty. -/
def nestedSource : String :=
  "[[[\"f\",[[\"x\"],[\"a\",true]],[\x7b\"while\":[\x7b\"bool\":true\x7d,[" ++
    "\x7b\"if\":[\x7b\"bool\":true\x7d,[],[\x7b\"while\":[\x7b\"bool\":false\x7d]\x7d]]\x7d," ++
    "\x7b\"assign\":[\x7b\"array\":\"a\",\"index\":\x7b\"var\":\"x\"\x7d\x7d,\x7b\"const\":1\x7d]\x7d]]\x7d]]," ++
  "[\"g\",[],[\"skip\"]]]]"

/-- The program that is loaded from it. -/
def nestedProgram : Program :=
  let x : Variable := ⟨"x", false, false⟩
  let a : Variable := ⟨"a", true, false⟩
  let inner : Statement := .loop ⟨4, "l4"⟩ ["l1"] (.constant false) [.skip ⟨5, "l5"⟩]
  let choice : Statement := .branch ⟨2, "l2"⟩ (.constant true) [.skip ⟨3, "l3"⟩] [inner]
  let write : Statement := .assign ⟨6, "l6"⟩ (.element a (.variable x)) (.literal 1)
  ⟨[⟨"f", [x, a], [.loop ⟨1, "l1"⟩ [] (.constant true) [choice, write]], none⟩,
    ⟨"g", [], [.skip ⟨7, "l7"⟩], none⟩]⟩

/-- The sample loads as the program that is given for it. -/
theorem load_nestedSource : load nestedSource = .ok nestedProgram := by
  apply toOption_eq_some.mp
  decide +kernel

end Program

end TraceLogic
