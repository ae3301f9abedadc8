import TraceLogic.Proofs.Capture
import TraceLogic.Proofs.LoopHeads

/-!
# The parts of a formula

The occurrences of a formula are its parts, each with the variables of the quantifiers around it.
`Formula.capturesName` says whether some name can be read in two ways at one of them:
`Formula.capturesName_iff_ambiguous`. Where it is false, all quantifiers around a part bind
different names, and the innermost variable of a name is the last one of the quantifier that binds
the name.
-/

namespace TraceLogic

namespace Formula

/-- The variables that the formula itself binds. -/
def binders : Formula → List Symbol
  | .quantified _ binders _ => binders
  | _ => []

/-- The symbols that are applied in the terms of the formula itself, and its predicate. -/
def applied : Formula → List Symbol
  | .equal s t => s.heads ++ t.heads
  | .distinct s t => s.heads ++ t.heads
  | .predicate p ts => p :: Term.headsOf ts
  | _ => []

/-- The variables in the terms of the formula itself. -/
def mentioned : Formula → List Symbol
  | .equal s t => s.vars ++ t.vars
  | .distinct s t => s.vars ++ t.vars
  | .predicate _ ts => Term.varsOf ts
  | _ => []

/-- A part of a formula, with the variables of the quantifiers around it. -/
structure Occurrence where
  /-- The variables of each quantifier, the outermost first. -/
  enclosing : List (List Symbol)
  /-- The part itself. -/
  formula : Formula

namespace Occurrence

/-- The occurrence inside of one more quantifier. -/
def under (binders : List Symbol) (o : Occurrence) : Occurrence :=
  ⟨binders :: o.enclosing, o.formula⟩

/-- The variables that are bound around, the innermost first. -/
def scope (o : Occurrence) : List Symbol := o.enclosing.flatten.reverse

/-- Whether a quantifier around binds a name. -/
def Binds (o : Occurrence) (name : String) : Prop :=
  ∃ binders ∈ o.enclosing, ∃ b ∈ binders, b.name = name

/-- Whether a name can be read in two ways, inside of quantifiers that bind the given names. -/
def clashes (outer : List String) (o : Occurrence) : Bool :=
  let names := outer ++ o.enclosing.flatten.map (·.name)
  o.formula.binders.any (fun b => names.contains b.name) ||
    o.formula.applied.any (fun g => names.contains g.printedName)

/-- The names of a quantifier around count with those that are given. -/
theorem clashes_under (outer : List String) (binders : List Symbol) (o : Occurrence) :
    (o.under binders).clashes outer = o.clashes (outer ++ binders.map (·.name)) := by
  simp [clashes, under]

/-- Nothing is bound around the whole formula but the names that are given. -/
theorem clashes_top (outer : List String) (f : Formula) :
    clashes outer ⟨[], f⟩ =
      (f.binders.any (fun b => outer.contains b.name) ||
        f.applied.any (fun g => outer.contains g.printedName)) := by
  simp [clashes]

/-- A quantifier further out is searched last. -/
theorem scope_under (binders : List Symbol) (o : Occurrence) :
    (o.under binders).scope = o.scope ++ binders.reverse := by
  simp [scope, under]

/-- A name is bound around if and only if a variable in scope has it. -/
theorem binds_iff {o : Occurrence} {name : String} :
    o.Binds name ↔ ∃ b ∈ o.scope, b.name = name := by
  simp only [Binds, scope, List.mem_reverse, List.mem_flatten]
  constructor
  · rintro ⟨binders, hbinders, b, hb, hname⟩
    exact ⟨b, ⟨binders, hbinders, hb⟩, hname⟩
  · rintro ⟨b, ⟨binders, hbinders, hb⟩, hname⟩
    exact ⟨binders, hbinders, b, hb, hname⟩

end Occurrence

mutual

/-- All parts of a formula, each before its own parts. -/
def occurrences : Formula → List Occurrence
  | .equal s t => [⟨[], .equal s t⟩]
  | .distinct s t => [⟨[], .distinct s t⟩]
  | .predicate p ts => [⟨[], .predicate p ts⟩]
  | .negation f => ⟨[], .negation f⟩ :: occurrences f
  | .implication f g => ⟨[], .implication f g⟩ :: (occurrences f ++ occurrences g)
  | .junction op fs => ⟨[], .junction op fs⟩ :: occurrencesOf fs
  | .quantified q binders f =>
    ⟨[], .quantified q binders f⟩ :: (occurrences f).map (.under binders)
  | .labelled text f => ⟨[], .labelled text f⟩ :: occurrences f

/-- All parts of several formulas. -/
def occurrencesOf : List Formula → List Occurrence
  | [] => []
  | f :: fs => occurrences f ++ occurrencesOf fs

end

/-- Whether a quantifier binds a name that a quantifier around it binds, or a symbol is printed like
a variable of a quantifier around it. -/
def Ambiguous (f : Formula) : Prop :=
  ∃ o ∈ f.occurrences,
    (∃ b ∈ o.formula.binders, o.Binds b.name) ∨ ∃ g ∈ o.formula.applied, o.Binds g.printedName

mutual

/-- The recursion over a formula finds a capture if and only if some part of the formula has one.
Each part is judged by the names that are bound around it. -/
theorem capturesUnder_eq_any (outer : List String) :
    (f : Formula) → capturesUnder outer f = f.occurrences.any (·.clashes outer)
  | .equal s t => by
    rw [capturesUnder, occurrences, List.any_cons, Occurrence.clashes_top, printsAny_eq_any,
      printsAny_eq_any]
    simp [binders, applied]
  | .distinct s t => by
    rw [capturesUnder, occurrences, List.any_cons, Occurrence.clashes_top, printsAny_eq_any,
      printsAny_eq_any]
    simp [binders, applied]
  | .predicate p ts => by
    rw [capturesUnder, occurrences, List.any_cons, Occurrence.clashes_top, ← printsAnyOf_eq_any,
      printsAnyOf_eq_any_heads]
    simp [binders, applied]
  | .negation f => by
    rw [capturesUnder, occurrences, List.any_cons, Occurrence.clashes_top,
      capturesUnder_eq_any outer f]
    rfl
  | .implication f g => by
    rw [capturesUnder, occurrences, List.any_cons, Occurrence.clashes_top, List.any_append,
      capturesUnder_eq_any outer f, capturesUnder_eq_any outer g]
    rfl
  | .junction op fs => by
    rw [capturesUnder, occurrences, List.any_cons, Occurrence.clashes_top,
      capturesInParts_eq_any outer fs]
    rfl
  | .quantified q bs f => by
    -- the names of the quantifier are bound around every part of its body
    rw [capturesUnder, occurrences, List.any_cons, Occurrence.clashes_top,
      capturesUnder_eq_any (outer ++ bs.map (·.name)) f, List.any_map]
    simp [Function.comp_def, Occurrence.clashes_under, binders, applied]
  | .labelled text f => by
    rw [capturesUnder, occurrences, List.any_cons, Occurrence.clashes_top,
      capturesUnder_eq_any outer f]
    rfl

/-- The recursion over formulas finds a capture if and only if some part of one of them has one. -/
theorem capturesInParts_eq_any (outer : List String) :
    (fs : List Formula) → capturesInParts outer fs = (occurrencesOf fs).any (·.clashes outer)
  | [] => rfl
  | f :: fs => by
    rw [capturesInParts, capturesUnder_eq_any outer f, capturesInParts_eq_any outer fs,
      occurrencesOf, List.any_append]

end

/-- A formula captures a name if and only if a name can be read in two ways in it. -/
theorem capturesName_iff_ambiguous (f : Formula) : f.capturesName = true ↔ f.Ambiguous := by
  rw [capturesName, capturesUnder_eq_any, List.any_eq_true]
  refine exists_congr fun o => and_congr_right fun _ => ?_
  simp [Occurrence.clashes, Occurrence.Binds]

/-! ## Quantifiers that bind different names -/

/-- Whether the quantifiers around bind none of the given names, and none that another one binds. -/
def Occurrence.Apart (outer : List String) (o : Occurrence) : Prop :=
  (∀ bs ∈ o.enclosing, ∀ b ∈ bs, b.name ∉ outer) ∧
    o.enclosing.Pairwise fun bs cs => ∀ b ∈ bs, ∀ c ∈ cs, c.name ≠ b.name

/-- There are no quantifiers around the whole formula. -/
theorem Occurrence.apart_top (outer : List String) (f : Formula) : Apart outer ⟨[], f⟩ :=
  ⟨List.forall_mem_nil _, .nil⟩

/-- A quantifier may be put around if it binds new names that nothing further in binds again. -/
theorem Occurrence.Apart.under {outer : List String} {bs : List Symbol} {o : Occurrence}
    (h : o.Apart (outer ++ bs.map (·.name))) (hbs : ∀ b ∈ bs, b.name ∉ outer) :
    (o.under bs).Apart outer := by
  obtain ⟨hnames, hpairs⟩ := h
  refine ⟨List.forall_mem_cons.mpr ⟨hbs, fun cs hcs c hc hmem => ?_⟩,
    List.pairwise_cons.mpr ⟨fun cs hcs b hb c hc heq => ?_, hpairs⟩⟩
  · exact hnames cs hcs c hc (List.mem_append_left _ hmem)
  · exact hnames cs hcs c hc (List.mem_append_right _ (heq ▸ List.mem_map_of_mem hb))

mutual

/-- Where no name is captured, the quantifiers around a part bind different names. -/
theorem apart_of_mem {outer : List String} : (f : Formula) → capturesUnder outer f = false →
    ∀ o ∈ f.occurrences, o.Apart outer
  | .equal _ _, _ => List.forall_mem_singleton.mpr (Occurrence.apart_top _ _)
  | .distinct _ _, _ => List.forall_mem_singleton.mpr (Occurrence.apart_top _ _)
  | .predicate _ _, _ => List.forall_mem_singleton.mpr (Occurrence.apart_top _ _)
  | .negation f, h => List.forall_mem_cons.mpr ⟨Occurrence.apart_top _ _, apart_of_mem f h⟩
  | .implication f g, h => by
    rw [capturesUnder, Bool.or_eq_false_iff] at h
    exact List.forall_mem_cons.mpr ⟨Occurrence.apart_top _ _,
      List.forall_mem_append.mpr ⟨apart_of_mem f h.1, apart_of_mem g h.2⟩⟩
  | .junction _ fs, h =>
    List.forall_mem_cons.mpr ⟨Occurrence.apart_top _ _, apart_of_mem_parts fs h⟩
  | .quantified _ bs f, h => by
    rw [capturesUnder, Bool.or_eq_false_iff] at h
    have hbs : ∀ b ∈ bs, b.name ∉ outer := by simpa using h.1
    refine List.forall_mem_cons.mpr ⟨Occurrence.apart_top _ _, List.forall_mem_map.mpr ?_⟩
    exact fun o ho => (apart_of_mem f h.2 o ho).under hbs
  | .labelled _ f, h => List.forall_mem_cons.mpr ⟨Occurrence.apart_top _ _, apart_of_mem f h⟩

/-- Where no name is captured, the quantifiers around a part of one of several formulas bind
different names. -/
theorem apart_of_mem_parts {outer : List String} : (fs : List Formula) →
    capturesInParts outer fs = false → ∀ o ∈ occurrencesOf fs, o.Apart outer
  | [], _ => List.forall_mem_nil _
  | f :: fs, h => by
    rw [capturesInParts, Bool.or_eq_false_iff] at h
    exact List.forall_mem_append.mpr ⟨apart_of_mem f h.1, apart_of_mem_parts fs h.2⟩

end

/-- The innermost variable of a name is the last one of the quantifier that binds the name. -/
theorem Occurrence.Apart.find?_scope {outer : List String} {o : Occurrence} (h : o.Apart outer)
    {bs : List Symbol} (hbs : bs ∈ o.enclosing) {name : String} {b : Symbol}
    (hb : (bs.reverse.find? fun c => c.name = name) = some b) :
    (o.scope.find? fun c => c.name = name) = some b := by
  obtain ⟨pre, post, hsplit⟩ := List.append_of_mem hbs
  have hpairs := h.2
  rw [hsplit, List.pairwise_append, List.pairwise_cons] at hpairs
  obtain ⟨_, ⟨hpost, _⟩, _⟩ := hpairs
  have hname : b.name = name := by simpa using List.find?_some hb
  have hmem : b ∈ bs := List.mem_reverse.mp (List.mem_of_find?_eq_some hb)
  have hinner : (post.flatten.reverse.find? fun c => c.name = name) = none := by
    rw [List.find?_eq_none]
    intro c hc
    obtain ⟨cs, hcs, hc⟩ := List.mem_flatten.mp (List.mem_reverse.mp hc)
    have hne := hpost cs hcs b hmem c hc
    simpa [hname] using hne
  rw [scope, hsplit, List.flatten_append, List.flatten_cons, List.reverse_append,
    List.reverse_append, List.append_assoc, List.find?_append, hinner, Option.none_or,
    List.find?_append, hb, Option.some_or]

/-! ## Variables that are bound -/

namespace Occurrence

/-- Whether a quantifier around binds the name of a variable with its sort. -/
def BindsSorted (o : Occurrence) (x : Symbol) : Prop :=
  ∃ bs ∈ o.enclosing, ∃ b ∈ bs, b.name = x.name ∧ b.range = x.range

/-- Whether the name of a variable is bound with its sort by a quantifier around. If the quantifier
binds the name twice, the last one counts. -/
def BindsLast (o : Occurrence) (x : Symbol) : Prop :=
  ∃ bs ∈ o.enclosing, (bs.reverse.find? fun c => c.name = x.name).map (·.range) = some x.range

instance (o : Occurrence) (x : Symbol) : Decidable (o.BindsSorted x) :=
  inferInstanceAs (Decidable (∃ bs ∈ o.enclosing, ∃ b ∈ bs, _))

instance (o : Occurrence) (x : Symbol) : Decidable (o.BindsLast x) :=
  inferInstanceAs (Decidable (∃ bs ∈ o.enclosing, _))

/-- A variable that is bound with its sort is bound under its name. The innermost variable of the
name may be another one. -/
theorem BindsSorted.find?_scope {o : Occurrence} {x : Symbol} (h : o.BindsSorted x) :
    ∃ b, (o.scope.find? fun c => c.name = x.name) = some b ∧ b.name = x.name := by
  obtain ⟨bs, hbs, b, hb, hname, _⟩ := h
  obtain ⟨c, hc, hcname⟩ := binds_iff.mp ⟨bs, hbs, b, hb, hname⟩
  have hsome : (o.scope.find? fun c => c.name = x.name).isSome = true :=
    List.find?_isSome.mpr ⟨c, hc, by simpa using hcname⟩
  obtain ⟨d, hd⟩ := Option.isSome_iff_exists.mp hsome
  exact ⟨d, hd, by simpa using List.find?_some hd⟩

end Occurrence

end Formula

namespace Term

variable {scope : List Symbol}

mutual

/-- The variables of a closed term are in scope. -/
theorem Closed.mem_scope : {t : Term} → t.Closed scope → ∀ x ∈ t.vars, x ∈ scope
  | .var _, h => List.forall_mem_singleton.mpr (List.mem_of_find?_eq_some h)
  | .app _ _, h => AllClosed.mem_scope h

/-- The variables of closed terms are in scope. -/
theorem AllClosed.mem_scope : {ts : List Term} → AllClosed scope ts → ∀ x ∈ varsOf ts, x ∈ scope
  | [], _ => List.forall_mem_nil _
  | _ :: _, h => List.forall_mem_append.mpr ⟨Closed.mem_scope h.1, AllClosed.mem_scope h.2⟩

end

end Term

namespace Formula

variable {v : Vocabulary}

/-- Whether every variable at an occurrence is bound there or around. -/
def Occurrence.Closed (scope : List Symbol) (o : Occurrence) : Prop :=
  ∀ x ∈ o.formula.mentioned, (∃ bs ∈ o.enclosing, x ∈ bs) ∨ x ∈ scope

/-- What is in scope inside a quantifier is bound by it or in scope around it. -/
theorem Occurrence.Closed.under {scope bs : List Symbol} {o : Occurrence}
    (h : o.Closed (bs ++ scope)) : (o.under bs).Closed scope := by
  intro x hx
  rcases h x hx with ⟨cs, hcs, hmem⟩ | hmem
  · exact .inl ⟨cs, List.mem_cons_of_mem _ hcs, hmem⟩
  · rcases List.mem_append.mp hmem with hmem | hmem
    · exact .inl ⟨bs, List.mem_cons_self, hmem⟩
    · exact .inr hmem

mutual

/-- Every variable in a well-sorted formula is bound there or around. -/
theorem closed_of_wellSorted : {scope : List Symbol} → (f : Formula) → f.WellSorted v scope →
    ∀ o ∈ f.occurrences, o.Closed scope
  | _, .equal _ _, h => by
    refine List.forall_mem_singleton.mpr fun x hx => .inr ?_
    exact (List.mem_append.mp hx).elim (h.1.closed.mem_scope x) (h.2.1.closed.mem_scope x)
  | _, .distinct _ _, h => by
    refine List.forall_mem_singleton.mpr fun x hx => .inr ?_
    exact (List.mem_append.mp hx).elim (h.1.closed.mem_scope x) (h.2.1.closed.mem_scope x)
  | _, .predicate _ _, h =>
    List.forall_mem_singleton.mpr fun x hx => .inr (h.2.closed.mem_scope x hx)
  | _, .negation f, h =>
    List.forall_mem_cons.mpr ⟨List.forall_mem_nil _, closed_of_wellSorted f h⟩
  | _, .implication f g, h =>
    List.forall_mem_cons.mpr ⟨List.forall_mem_nil _, List.forall_mem_append.mpr
      ⟨closed_of_wellSorted f h.1, closed_of_wellSorted g h.2⟩⟩
  | _, .junction _ fs, h =>
    List.forall_mem_cons.mpr ⟨List.forall_mem_nil _, closed_of_allWellSorted fs h⟩
  | _, .quantified _ _ f, h =>
    List.forall_mem_cons.mpr ⟨List.forall_mem_nil _, List.forall_mem_map.mpr
      fun o ho => (closed_of_wellSorted f h.2 o ho).under⟩
  | _, .labelled _ f, h =>
    List.forall_mem_cons.mpr ⟨List.forall_mem_nil _, closed_of_wellSorted f h⟩

/-- Every variable in well-sorted formulas is bound there or around. -/
theorem closed_of_allWellSorted : {scope : List Symbol} → (fs : List Formula) →
    AllWellSorted v scope fs → ∀ o ∈ occurrencesOf fs, o.Closed scope
  | _, [], _ => List.forall_mem_nil _
  | _, f :: fs, h =>
    List.forall_mem_append.mpr ⟨closed_of_wellSorted f h.1, closed_of_allWellSorted fs h.2⟩

end

end Formula

end TraceLogic
