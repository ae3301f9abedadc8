import TraceLogic.Proofs.Occurrence

/-!
# How names are resolved

A solver resolves a name by its place in the text: it is the innermost variable that is bound around
under this name, or else a declared symbol. A formula tells variables and symbols apart by itself.
`Reading` is what names are resolved to, and `Reading.Holds` the truth of a formula under a reading;
two readings that agree at every part of a formula give the same truth (`Reading.holds_congr`).

The main statement, `Formula.capturesName_spec`, is that the solver's reading of a formula is its
own one, as long as no name is captured and every variable is bound. The theory takes formulas by
their own reading (`Reading.holds_ofInterpretation`), so that the solver reads a generated problem
as the theory does (`Program.holds_lexical_of_generate`).
-/

namespace TraceLogic

/-- The variables that are bound, with their values, the innermost first. -/
abbrev Bindings (τ : SortSymbol → Type) := List (Symbol × Value τ)

/-- What names are resolved to inside of quantifiers. -/
structure Reading (τ : SortSymbol → Type) where
  /-- The value of a variable. -/
  var : Bindings τ → Symbol → Value τ
  /-- The value of a symbol at arguments. -/
  head : Bindings τ → Symbol → List (Value τ) → Value τ

namespace Reading

variable {τ : SortSymbol → Type}

/-- The value of the innermost variable that passes a test. -/
def value? (Γ : Bindings τ) (test : Symbol → Bool) : Option (Value τ) :=
  (Γ.find? fun b => test b.1).map (·.2)

/-- The solver's reading. A name stands for the innermost variable that is bound under it, and else
for a declared symbol. A variable is printed by its name, and a symbol by its printed name. -/
def lexical (D : Symbol → List (Value τ) → Value τ) : Reading τ where
  var Γ x := (value? Γ fun b => b.name = x.name).getD (D x [])
  head Γ f args := (value? Γ fun b => b.name = f.printedName).getD (D f args)

/-- The formula's own reading. Only a variable stands for what is bound, and every symbol that is
applied is a declared one. -/
def direct (same : Symbol → Symbol → Bool) (D : Symbol → List (Value τ) → Value τ)
    (ρ : Symbol → Value τ) : Reading τ where
  var Γ x := (value? Γ fun b => same b x).getD (ρ x)
  head _ f args := D f args

variable (R : Reading τ)

mutual

/-- The value of a term. -/
def eval (Γ : Bindings τ) : Term → Value τ
  | .var x => R.var Γ x
  | .app f ts => R.head Γ f (evalAll Γ ts)

/-- The values of terms. -/
def evalAll (Γ : Bindings τ) : List Term → List (Value τ)
  | [] => []
  | t :: ts => eval Γ t :: evalAll Γ ts

end

/-- Binds variables one after the other to all values of their sorts. -/
def ForAll (P : Bindings τ → Prop) : List Symbol → Bindings τ → Prop
  | [], Γ => P Γ
  | b :: bs, Γ => ∀ v : Value τ, v.HasSort b.range → ForAll P bs ((b, v) :: Γ)

/-- Binds variables one after the other to some value of their sorts. -/
def ForSome (P : Bindings τ → Prop) : List Symbol → Bindings τ → Prop
  | [], Γ => P Γ
  | b :: bs, Γ => ∃ v : Value τ, v.HasSort b.range ∧ ForSome P bs ((b, v) :: Γ)

mutual

/-- Whether a formula is true. -/
def Holds (Γ : Bindings τ) : Formula → Prop
  | .equal s t => R.eval Γ s = R.eval Γ t
  | .distinct s t => R.eval Γ s ≠ R.eval Γ t
  | .predicate p ts => R.head Γ p (R.evalAll Γ ts) = .truth true
  | .negation f => ¬ Holds Γ f
  | .implication f g => Holds Γ f → Holds Γ g
  | .junction .all fs => AllHold Γ fs
  | .junction .any fs => SomeHolds Γ fs
  | .quantified .all binders f => ForAll (fun Γ => Holds Γ f) binders Γ
  | .quantified .some binders f => ForSome (fun Γ => Holds Γ f) binders Γ
  | .labelled _ f => Holds Γ f

/-- Whether all formulas of a list are true. -/
def AllHold (Γ : Bindings τ) : List Formula → Prop
  | [] => True
  | f :: fs => Holds Γ f ∧ AllHold Γ fs

/-- Whether some formula of a list is true. -/
def SomeHolds (Γ : Bindings τ) : List Formula → Prop
  | [] => False
  | f :: fs => Holds Γ f ∨ SomeHolds Γ fs

end

/-! ## Readings that agree -/

/-- Whether two readings resolve the names of a formula itself to the same values. -/
structure AgreeAt (R R' : Reading τ) (Γ : Bindings τ) (f : Formula) : Prop where
  var : ∀ x ∈ f.mentioned, R.var Γ x = R'.var Γ x
  head : ∀ g ∈ f.applied, R.head Γ g = R'.head Γ g

variable {R} {R' : Reading τ} {Γ : Bindings τ}

mutual

/-- Readings that agree at the names of a term give it the same value. -/
theorem eval_congr : (t : Term) → (∀ x ∈ t.vars, R.var Γ x = R'.var Γ x) →
    (∀ g ∈ t.heads, R.head Γ g = R'.head Γ g) → R.eval Γ t = R'.eval Γ t
  | .var x, hvar, _ => hvar x List.mem_cons_self
  | .app f ts, hvar, hhead => by
    obtain ⟨hf, hts⟩ := List.forall_mem_cons.mp hhead
    rw [eval, eval, hf, evalAll_congr ts hvar hts]

/-- Readings that agree at the names of terms give them the same values. -/
theorem evalAll_congr : (ts : List Term) → (∀ x ∈ Term.varsOf ts, R.var Γ x = R'.var Γ x) →
    (∀ g ∈ Term.headsOf ts, R.head Γ g = R'.head Γ g) → R.evalAll Γ ts = R'.evalAll Γ ts
  | [], _, _ => rfl
  | t :: ts, hvar, hhead => by
    obtain ⟨hvar, hvars⟩ := List.forall_mem_append.mp hvar
    obtain ⟨hhead, hheads⟩ := List.forall_mem_append.mp hhead
    rw [evalAll, evalAll, eval_congr t hvar hhead, evalAll_congr ts hvars hheads]

end

/-- Readings that agree at an equation give its sides the same values. -/
theorem AgreeAt.eval_eq {s t : Term} (hvar : ∀ x ∈ s.vars ++ t.vars, R.var Γ x = R'.var Γ x)
    (hhead : ∀ g ∈ s.heads ++ t.heads, R.head Γ g = R'.head Γ g) :
    R.eval Γ s = R'.eval Γ s ∧ R.eval Γ t = R'.eval Γ t := by
  obtain ⟨hs, ht⟩ := List.forall_mem_append.mp hvar
  obtain ⟨hs', ht'⟩ := List.forall_mem_append.mp hhead
  exact ⟨eval_congr s hs hs', eval_congr t ht ht'⟩

/-- Two conditions that agree wherever the variables are bound agree for all values. -/
theorem forAll_congr {P P' : Bindings τ → Prop} {bs : List Symbol}
    (h : ∀ Δ : Bindings τ, Δ.map Prod.fst = bs.reverse ++ Γ.map Prod.fst → (P Δ ↔ P' Δ)) :
    ForAll P bs Γ ↔ ForAll P' bs Γ := by
  induction bs generalizing Γ with
  | nil => exact h Γ rfl
  | cons b bs ih =>
    refine forall_congr' fun v => imp_congr_right fun _ => ih fun Δ hΔ => h Δ ?_
    simpa using hΔ

/-- Two conditions that agree wherever the variables are bound agree for some values. -/
theorem forSome_congr {P P' : Bindings τ → Prop} {bs : List Symbol}
    (h : ∀ Δ : Bindings τ, Δ.map Prod.fst = bs.reverse ++ Γ.map Prod.fst → (P Δ ↔ P' Δ)) :
    ForSome P bs Γ ↔ ForSome P' bs Γ := by
  induction bs generalizing Γ with
  | nil => exact h Γ rfl
  | cons b bs ih =>
    refine exists_congr fun v => and_congr_right fun _ => ih fun Δ hΔ => h Δ ?_
    simpa using hΔ

/-- Whether two readings agree at occurrences, whatever the values of the variables around them. -/
def AgreeOn (R R' : Reading τ) (Γ : Bindings τ) (os : List Formula.Occurrence) : Prop :=
  ∀ o ∈ os, ∀ Δ : Bindings τ, Δ.map Prod.fst = o.scope ++ Γ.map Prod.fst →
    AgreeAt R R' Δ o.formula

namespace AgreeOn

variable {os : List Formula.Occurrence}

/-- Readings that agree at all parts of a formula agree at the formula itself. -/
theorem top {f : Formula} (h : AgreeOn R R' Γ (⟨[], f⟩ :: os)) : AgreeAt R R' Γ f :=
  h ⟨[], f⟩ List.mem_cons_self Γ rfl

/-- Readings that agree at parts agree at all but the first one. -/
theorem rest {o : Formula.Occurrence} (h : AgreeOn R R' Γ (o :: os)) : AgreeOn R R' Γ os :=
  fun o' ho' => h o' (List.mem_cons_of_mem o ho')

/-- Readings that agree at two lists of parts agree at each of them. -/
theorem append {os' : List Formula.Occurrence} (h : AgreeOn R R' Γ (os ++ os')) :
    AgreeOn R R' Γ os ∧ AgreeOn R R' Γ os' :=
  List.forall_mem_append.mp h

/-- Readings that agree at the parts under a quantifier agree at the parts of its body, once the
variables are bound. -/
theorem body {bs : List Symbol} (h : AgreeOn R R' Γ (os.map (.under bs))) {Δ : Bindings τ}
    (hΔ : Δ.map Prod.fst = bs.reverse ++ Γ.map Prod.fst) : AgreeOn R R' Δ os := by
  intro o ho Δ' hΔ'
  refine h (o.under bs) (List.mem_map_of_mem ho) Δ' ?_
  rw [hΔ', hΔ, Formula.Occurrence.scope_under, List.append_assoc]

end AgreeOn

mutual

/-- Readings that agree at all parts of a formula agree on its truth. -/
theorem holds_congr : {Γ : Bindings τ} → (f : Formula) → AgreeOn R R' Γ f.occurrences →
    (R.Holds Γ f ↔ R'.Holds Γ f)
  | _, .equal s t, h => by
    obtain ⟨hs, ht⟩ := AgreeAt.eval_eq h.top.var h.top.head
    rw [Holds, Holds, hs, ht]
  | _, .distinct s t, h => by
    obtain ⟨hs, ht⟩ := AgreeAt.eval_eq h.top.var h.top.head
    rw [Holds, Holds, hs, ht]
  | _, .predicate p ts, h => by
    obtain ⟨hp, hts⟩ := List.forall_mem_cons.mp h.top.head
    rw [Holds, Holds, hp, evalAll_congr ts h.top.var hts]
  | _, .negation f, h => by
    rw [Holds, Holds, holds_congr f h.rest]
  | _, .implication f g, h => by
    obtain ⟨hf, hg⟩ := h.rest.append
    rw [Holds, Holds, holds_congr f hf, holds_congr g hg]
  | _, .junction .all fs, h => by
    rw [Holds, Holds]
    exact (parts_congr fs h.rest).1
  | _, .junction .any fs, h => by
    rw [Holds, Holds]
    exact (parts_congr fs h.rest).2
  | _, .quantified .all bs f, h => by
    rw [Holds, Holds]
    exact forAll_congr fun Δ hΔ => holds_congr f (h.rest.body hΔ)
  | _, .quantified .some bs f, h => by
    rw [Holds, Holds]
    exact forSome_congr fun Δ hΔ => holds_congr f (h.rest.body hΔ)
  | _, .labelled _ f, h => by
    rw [Holds, Holds, holds_congr f h.rest]

/-- Readings that agree at every part of formulas give these the same truth, for all of them and for
some of them. -/
theorem parts_congr : {Γ : Bindings τ} → (fs : List Formula) →
    AgreeOn R R' Γ (Formula.occurrencesOf fs) →
    (R.AllHold Γ fs ↔ R'.AllHold Γ fs) ∧ (R.SomeHolds Γ fs ↔ R'.SomeHolds Γ fs)
  | _, [], _ => ⟨Iff.rfl, Iff.rfl⟩
  | _, f :: fs, h => by
    obtain ⟨hf, hfs⟩ := h.append
    have hfirst := holds_congr f hf
    obtain ⟨hall, hsome⟩ := parts_congr fs hfs
    exact ⟨and_congr hfirst hall, or_congr hfirst hsome⟩

end

/-! ## Resolving names -/

/-- Nothing is found if no variable that is bound passes the test. -/
theorem value?_eq_none {test : Symbol → Bool} (h : ∀ b ∈ Γ.map Prod.fst, test b = false) :
    value? Γ test = none := by
  simpa [value?] using h

/-- The innermost variable that passes a test is also the innermost one that passes a stronger
test, if it does so itself. -/
theorem value?_eq_some {test strict : Symbol → Bool} (himp : ∀ c, strict c = true → test c = true)
    {b : Symbol} (hb : (Γ.map Prod.fst).find? test = some b) (hstrict : strict b = true) :
    ∃ v, value? Γ test = some v ∧ value? Γ strict = some v := by
  rw [List.find?_map, Option.map_eq_some_iff] at hb
  obtain ⟨e, he, rfl⟩ := hb
  obtain ⟨_, pre, post, rfl, hpre⟩ := List.find?_eq_some_iff_append.mp he
  have hfind : (pre ++ e :: post).find? (fun c => strict c.1) = some e := by
    refine List.find?_eq_some_iff_append.mpr ⟨hstrict, pre, post, rfl, fun c hc => ?_⟩
    have hfail : ¬ test c.1 = true := by simpa using hpre c hc
    simpa using mt (himp c.1) hfail
  exact ⟨e.2, congrArg (Option.map Prod.snd) he, congrArg (Option.map Prod.snd) hfind⟩

/-- The solver's reading of a formula is its own one, if no name is captured and the innermost
variable of a name is the one that is meant. -/
theorem holds_lexical_iff {f : Formula} (hcapture : f.capturesName = false)
    {same : Symbol → Symbol → Bool} (hsame : ∀ b x, same b x = true → b.name = x.name)
    (hvars : ∀ o ∈ f.occurrences, ∀ x ∈ o.formula.mentioned,
      ∃ b, (o.scope.find? fun c => c.name = x.name) = some b ∧ same b x = true)
    (D : Symbol → List (Value τ) → Value τ) (ρ : Symbol → Value τ) :
    (lexical D).Holds [] f ↔ (direct same D ρ).Holds [] f := by
  have hclear : ¬ f.Ambiguous := by
    rw [← Formula.capturesName_iff_ambiguous, hcapture]
    decide
  refine holds_congr f fun o ho Δ hΔ => ?_
  rw [List.map_nil, List.append_nil] at hΔ
  refine ⟨fun x hx => ?_, fun g hg => funext fun args => ?_⟩
  · obtain ⟨b, hb, hbx⟩ := hvars o ho x hx
    rw [← hΔ] at hb
    obtain ⟨v, hlexical, hdirect⟩ :=
      value?_eq_some (fun c hc => decide_eq_true (hsame c x hc)) hb hbx
    simp only [lexical, direct, hlexical, hdirect, Option.getD_some]
  · have hfree : value? Δ (fun b => b.name = g.printedName) = none := by
      refine value?_eq_none fun b hb => decide_eq_false fun hname => hclear ?_
      exact ⟨o, ho, .inr ⟨g, hg, Formula.Occurrence.binds_iff.mpr ⟨b, hΔ ▸ hb, hname⟩⟩⟩
    simp only [lexical, direct, hfree, Option.getD_none]

/-! ## Interpretations as readings -/

/-- The values of all names, where some are bound. -/
def assignment (ρ : Assignment τ) (Γ : Bindings τ) : Assignment τ :=
  fun name => (value? Γ fun b => b.name = name).getD (ρ name)

/-- Binding a variable changes the value of its name and of no other one. -/
theorem assignment_cons (ρ : Assignment τ) (b : Symbol) (v : Value τ) (Γ : Bindings τ) :
    assignment ρ ((b, v) :: Γ) = Function.update (assignment ρ Γ) b.name v := by
  funext name
  by_cases hname : b.name = name
  · subst hname
    simp [assignment, value?]
  · rw [Function.update_of_ne (Ne.symm hname)]
    simp [assignment, value?, hname]

section

variable (M : Interpretation τ) (ρ : Assignment τ)

/-- An interpretation takes variables by their names. -/
def ofInterpretation : Reading τ :=
  direct (fun b x => b.name = x.name) M.apply fun x => ρ x.name

variable {M ρ}

mutual

/-- The value of a term in an interpretation is that of its own reading. -/
theorem eval_ofInterpretation : (t : Term) →
    (ofInterpretation M ρ).eval Γ t = M.eval (assignment ρ Γ) t
  | .var _ => rfl
  | .app f ts => by
    rw [eval, Interpretation.eval, evalAll_ofInterpretation ts]
    rfl

/-- The values of terms in an interpretation are those of their own reading. -/
theorem evalAll_ofInterpretation : (ts : List Term) →
    (ofInterpretation M ρ).evalAll Γ ts = M.evalAll (assignment ρ Γ) ts
  | [] => rfl
  | t :: ts => by
    rw [evalAll, Interpretation.evalAll, eval_ofInterpretation t, evalAll_ofInterpretation ts]

end

/-- Binding variables to all values is updating the assignment with all values. -/
theorem forAll_assignment {P : Bindings τ → Prop} {P' : Assignment τ → Prop}
    (h : ∀ Δ, P Δ ↔ P' (assignment ρ Δ)) (bs : List Symbol) (Γ : Bindings τ) :
    ForAll P bs Γ ↔ Interpretation.ForAll P' bs (assignment ρ Γ) := by
  induction bs generalizing Γ with
  | nil => exact h Γ
  | cons b bs ih =>
    refine forall_congr' fun v => imp_congr_right fun _ => ?_
    rw [ih, assignment_cons]

/-- Binding variables to some values is updating the assignment with some values. -/
theorem forSome_assignment {P : Bindings τ → Prop} {P' : Assignment τ → Prop}
    (h : ∀ Δ, P Δ ↔ P' (assignment ρ Δ)) (bs : List Symbol) (Γ : Bindings τ) :
    ForSome P bs Γ ↔ Interpretation.ForSome P' bs (assignment ρ Γ) := by
  induction bs generalizing Γ with
  | nil => exact h Γ
  | cons b bs ih =>
    refine exists_congr fun v => and_congr_right fun _ => ?_
    rw [ih, assignment_cons]

mutual

/-- The truth of a formula in an interpretation is that of its own reading. -/
theorem holds_ofInterpretation (Γ : Bindings τ) : (f : Formula) →
    ((ofInterpretation M ρ).Holds Γ f ↔ M.Holds (assignment ρ Γ) f)
  | .equal s t => by
    rw [Holds, Interpretation.Holds, eval_ofInterpretation, eval_ofInterpretation]
  | .distinct s t => by
    rw [Holds, Interpretation.Holds, eval_ofInterpretation, eval_ofInterpretation]
  | .predicate p ts => by
    rw [Holds, Interpretation.Holds, evalAll_ofInterpretation]
    rfl
  | .negation f => by
    rw [Holds, Interpretation.Holds, holds_ofInterpretation Γ f]
  | .implication f g => by
    rw [Holds, Interpretation.Holds, holds_ofInterpretation Γ f, holds_ofInterpretation Γ g]
  | .junction .all fs => by
    rw [Holds, Interpretation.Holds]
    exact (parts_ofInterpretation Γ fs).1
  | .junction .any fs => by
    rw [Holds, Interpretation.Holds]
    exact (parts_ofInterpretation Γ fs).2
  | .quantified .all bs f => by
    rw [Holds, Interpretation.Holds]
    exact forAll_assignment (fun Δ => holds_ofInterpretation Δ f) bs Γ
  | .quantified .some bs f => by
    rw [Holds, Interpretation.Holds]
    exact forSome_assignment (fun Δ => holds_ofInterpretation Δ f) bs Γ
  | .labelled _ f => by
    rw [Holds, Interpretation.Holds, holds_ofInterpretation Γ f]

/-- The truth of formulas in an interpretation is that of their own reading, for all of them and for
some of them. -/
theorem parts_ofInterpretation (Γ : Bindings τ) : (fs : List Formula) →
    ((ofInterpretation M ρ).AllHold Γ fs ↔ M.AllHold (assignment ρ Γ) fs) ∧
      ((ofInterpretation M ρ).SomeHolds Γ fs ↔ M.SomeHolds (assignment ρ Γ) fs)
  | [] => ⟨Iff.rfl, Iff.rfl⟩
  | f :: fs => by
    have hfirst := holds_ofInterpretation Γ f
    obtain ⟨hall, hsome⟩ := parts_ofInterpretation Γ fs
    exact ⟨and_congr hfirst hall, or_congr hfirst hsome⟩

end

end

end Reading

/-! ## What `capturesName` decides -/

namespace Formula

/-- A formula captures a name if and only if it is ambiguous. If it captures none and every variable
is bound with its sort, then the solver's reading of it is its own one: a variable is what is bound
under its name. If no quantifier binds the name of a variable with another sort after its own, then
this is also the variable that is bound under its name and sort. -/
theorem capturesName_spec (f : Formula) :
    (f.capturesName = true ↔ f.Ambiguous) ∧
      (f.capturesName = false → ∀ (τ : SortSymbol → Type) (D : Symbol → List (Value τ) → Value τ)
        (ρ : Symbol → Value τ),
        ((∀ o ∈ f.occurrences, ∀ x ∈ o.formula.mentioned, o.BindsSorted x) →
          ((Reading.lexical D).Holds [] f ↔
            (Reading.direct (fun b x => b.name = x.name) D ρ).Holds [] f)) ∧
        ((∀ o ∈ f.occurrences, ∀ x ∈ o.formula.mentioned, o.BindsLast x) →
          ((Reading.lexical D).Holds [] f ↔
            (Reading.direct (fun b x => b.name = x.name ∧ b.range = x.range) D ρ).Holds []
              f))) := by
  refine ⟨f.capturesName_iff_ambiguous, fun hcapture τ D ρ => ⟨fun hbound => ?_, fun hbound => ?_⟩⟩
  · refine Reading.holds_lexical_iff hcapture (by simp) (fun o ho x hx => ?_) D ρ
    obtain ⟨b, hb, hname⟩ := (hbound o ho x hx).find?_scope
    exact ⟨b, hb, decide_eq_true hname⟩
  · refine Reading.holds_lexical_iff hcapture (by simp +contextual) (fun o ho x hx => ?_) D ρ
    obtain ⟨bs, hbs, hlast⟩ := hbound o ho x hx
    obtain ⟨b, hb, hrange⟩ := Option.map_eq_some_iff.mp hlast
    have hfind := (apart_of_mem f hcapture o ho).find?_scope hbs hb
    exact ⟨b, hfind, decide_eq_true ⟨by simpa using List.find?_some hb, hrange⟩⟩

/-- One quantifier binds a name twice, as an integer and then as a truth value, and the integer is
mentioned. -/
def boundTwice : Formula :=
  .quantified .all [.position, .bound "pos" .bool]
    (.distinct .position (.app ⟨"k", [], .int, false⟩ []))

/-- The reading by name and sort needs `BindsLast`: in `boundTwice` no name is captured and the
variable is bound with its sort, but the solver takes it for the truth value. -/
theorem lexical_ne_direct_boundTwice : boundTwice.capturesName = false ∧
    (∀ o ∈ boundTwice.occurrences, ∀ x ∈ o.formula.mentioned, o.BindsSorted x) ∧
    ∃ (D : Symbol → List (Value fun _ => Unit) → Value fun _ => Unit)
      (ρ : Symbol → Value fun _ => Unit), (Reading.lexical D).Holds [] boundTwice ∧
        ¬ (Reading.direct (fun b x => b.name = x.name ∧ b.range = x.range) D ρ).Holds []
          boundTwice := by
  refine ⟨by decide +kernel, by decide +kernel, fun _ _ => .int 0, fun _ => .int 0, ?_, ?_⟩
  · rintro i _ v hv heq
    have hint : v = .int 0 := heq
    subst hint
    have hsort : SortSymbol.bool = .int := hv
    exact absurd hsort (by decide)
  · intro h
    exact h (.int 0) rfl (.truth true) rfl rfl

/-- A position is bound twice, side by side, and once around a trace. -/
def siblings : Formula :=
  .conjunction [
    .quantified .all [.position] (.distinct .position (.app ⟨"k", [], .int, false⟩ [])),
    .quantified .some [.position] (.quantified .all [.trace]
      (.equal (.app ⟨"a", [.int, .trace], .int, false⟩ [.position, .var .trace]) .position))]

/-- A position is compared to a declared symbol of the same name. -/
def shadowed : Formula :=
  .quantified .all [.position] (.equal .position (.app ⟨"pos", [], .int, false⟩ []))

/-- The quantifiers of `siblings` do not meet, and in `boundTwice` the variable is what is bound
under its name. In `shadowed`, the solver would take the symbol for the position. -/
theorem capturesName_spec_siblings :
    (∀ (D : Symbol → List (Value fun _ => Unit) → Value fun _ => Unit)
      (ρ : Symbol → Value fun _ => Unit), (Reading.lexical D).Holds [] boundTwice ↔
        (Reading.direct (fun b x => b.name = x.name) D ρ).Holds [] boundTwice) ∧
    (∀ (D : Symbol → List (Value fun _ => Unit) → Value fun _ => Unit)
      (ρ : Symbol → Value fun _ => Unit), (Reading.lexical D).Holds [] siblings ↔
        (Reading.direct (fun b x => b.name = x.name ∧ b.range = x.range) D ρ).Holds [] siblings) ∧
      shadowed.Ambiguous ∧
      ∃ (D : Symbol → List (Value fun _ => Unit) → Value fun _ => Unit)
        (ρ : Symbol → Value fun _ => Unit), (Reading.lexical D).Holds [] shadowed ∧
          ¬ (Reading.direct (fun b x => b.name = x.name ∧ b.range = x.range) D ρ).Holds []
            shadowed := by
  refine ⟨fun D ρ => ?_, fun D ρ => ?_, (capturesName_spec shadowed).1.mp (by decide +kernel),
    fun _ _ => .int 0, fun _ => .int 0, ?_, ?_⟩
  · exact ((capturesName_spec boundTwice).2 (by decide +kernel) _ D ρ).1 (by decide +kernel)
  · exact ((capturesName_spec siblings).2 (by decide +kernel) _ D ρ).2 (by decide +kernel)
  · intro v _
    rfl
  · intro h
    have hone : Value.int 1 = Value.int 0 := h (.int 1) rfl
    cases hone

end Formula

/-- The solver reads every formula of a generated problem as the theory does. -/
theorem Program.holds_lexical_of_generate {source : String} {p : Program}
    (hload : load source = .ok p) {mode : TraceMode} {schedule : Option Schedule} {g : Generated}
    (hg : p.generate mode schedule = .ok g) {φ : Formula} (hφ : φ ∈ g.problem.formulas)
    {τ : SortSymbol → Type} (M : Interpretation τ) (ρ : Assignment τ) :
    (Reading.lexical M.apply).Holds [] φ ↔ M.Holds ρ φ := by
  have hp := formed_of_load hload
  have hclosed := φ.closed_of_wellSorted (hp.wellSorted_formulas hg φ hφ)
  have hreadings : (Reading.lexical M.apply).Holds [] φ ↔
      (Reading.ofInterpretation M ρ).Holds [] φ := by
    refine Reading.holds_lexical_iff (hp.capturesName_eq_false hg φ hφ) (by simp)
      (fun o ho x hx => ?_) _ _
    obtain ⟨bs, hbs, hmem⟩ := (hclosed o ho x hx).resolve_right List.not_mem_nil
    have hbound : o.BindsSorted x := ⟨bs, hbs, x, hmem, rfl, rfl⟩
    obtain ⟨b, hb, hname⟩ := hbound.find?_scope
    exact ⟨b, hb, decide_eq_true hname⟩
  exact hreadings.trans (Reading.holds_ofInterpretation [] φ)

end TraceLogic
