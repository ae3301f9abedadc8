import TraceLogic.Proofs.Nesting

/-!
# Fewer variables give weaker axioms

A timeline says which variables matter at a point of time, and only these are related across
statements. If fewer variables matter, then everything that is asked for has been asked for before,
and each formula follows from the one that it had. `Construction.Below` says this of two
constructions at once; it goes along the statements of a program. So the timeline of the location
pass, where all variables matter, gives the strongest axioms.
-/

namespace TraceLogic

open Construction Statement

/-! ## Formulas that follow from others -/

namespace Formula

/-- Whether a formula is true wherever another one is. -/
def FollowsFrom (g f : Formula) : Prop :=
  ∀ ⦃τ : SortSymbol → Type⦄ (M : Interpretation τ) (ρ : Assignment τ), M.Holds ρ f → M.Holds ρ g

/-- Whether each formula follows from one of the others. -/
def AllFollow (gs fs : List Formula) : Prop := ∀ g ∈ gs, ∃ f ∈ fs, g.FollowsFrom f

variable {f g : Formula} {fs gs fs' gs' : List Formula}

namespace FollowsFrom

/-- Every formula follows from itself. -/
theorem refl (f : Formula) : f.FollowsFrom f := fun _ _ _ h => h

/-- A label changes nothing about what follows. -/
theorem withLabel (h : g.FollowsFrom f) (text : String) :
    (g.withLabel text).FollowsFrom (f.withLabel text) := by
  intro τ M ρ
  simpa using h M ρ

/-- What follows may be drawn under a premise. -/
theorem implication (h : g.FollowsFrom f) (premise : Formula) :
    (Formula.implication premise g).FollowsFrom (.implication premise f) := by
  intro τ M ρ
  simp only [Interpretation.holds_implication]
  exact fun hf hpremise => h M ρ (hf hpremise)

/-- A conjunction follows if each of its members follows from a member. -/
theorem conjunction (h : AllFollow gs fs) :
    (Formula.conjunction gs).FollowsFrom (.conjunction fs) := by
  intro τ M ρ
  simp only [Interpretation.holds_conjunction]
  intro hfs g hg
  obtain ⟨f, hf, hfollows⟩ := h g hg
  exact hfollows M ρ (hfs f hf)

/-- What follows may be drawn for all values of variables. -/
theorem forAll (h : g.FollowsFrom f) (binders : List Symbol) :
    (Formula.quantified .all binders g).FollowsFrom (.quantified .all binders f) := by
  intro τ M ρ
  rw [Interpretation.Holds, Interpretation.Holds]
  induction binders generalizing ρ with
  | nil => exact h M ρ
  | cons b binders ih => exact fun hf v hv => ih _ (hf v hv)

end FollowsFrom

namespace AllFollow

/-- Formulas follow from formulas among which they are. -/
theorem of_subset (h : gs ⊆ fs) : AllFollow gs fs := fun g hg => ⟨g, h hg, .refl g⟩

/-- One more formula that follows. -/
theorem cons (h : g.FollowsFrom f) (hs : AllFollow gs fs) : AllFollow (g :: gs) (f :: fs) := by
  refine List.forall_mem_cons.mpr ⟨⟨f, List.mem_cons_self, h⟩, fun g' hg' => ?_⟩
  obtain ⟨f', hf', hfollows⟩ := hs g' hg'
  exact ⟨f', List.mem_cons_of_mem _ hf', hfollows⟩

/-- More formulas that follow. -/
theorem append (h : AllFollow gs fs) (h' : AllFollow gs' fs') :
    AllFollow (gs ++ gs') (fs ++ fs') := by
  refine List.forall_mem_append.mpr ⟨fun g hg => ?_, fun g hg => ?_⟩
  · obtain ⟨f, hf, hfollows⟩ := h g hg
    exact ⟨f, List.mem_append_left _ hf, hfollows⟩
  · obtain ⟨f, hf, hfollows⟩ := h' g hg
    exact ⟨f, List.mem_append_right _ hf, hfollows⟩

/-- An operation that keeps what follows keeps it for lists. -/
theorem map (h : AllFollow gs fs) {op : Formula → Formula}
    (hop : ∀ {g f : Formula}, g.FollowsFrom f → (op g).FollowsFrom (op f)) :
    AllFollow (gs.map op) (fs.map op) := by
  refine List.forall_mem_map.mpr fun g hg => ?_
  obtain ⟨f, hf, hfollows⟩ := h g hg
  exact ⟨op f, List.mem_map_of_mem hf, hop hfollows⟩

end AllFollow

end Formula

/-! ## Constructions that need no more than others -/

/-- Requests are granted if a larger vocabulary grants them. -/
theorem Vocabulary.serveAll_of_grants {v w : Vocabulary} {rs : List Request}
    (hlookup : ∀ name f, v.lookup? name = some f → w.lookup? name = some f)
    (hgrants : ∀ r ∈ rs, w.Grants r) : ∃ u, v.serveAll rs = (none, u) := by
  induction rs generalizing v with
  | nil => exact ⟨v, rfl⟩
  | cons r rs ih =>
    obtain ⟨hr, hrs⟩ := List.forall_mem_cons.mp hgrants
    have hserve : ∃ u, v.serve r = .ok u ∧
        ∀ name f, u.lookup? name = some f → w.lookup? name = some f := by
      cases r with
      | sort s =>
        refine ⟨_, rfl, fun name f hf => hlookup name f ?_⟩
        rwa [Vocabulary.lookup?, symbols_addSort] at hf
      | symbol f =>
        have hf : w.lookup? f.name = some f := hr
        -- it is new, or it is there; it cannot clash, as the larger vocabulary has both symbols
        rcases addSymbol_cases v f with ⟨_, hadd⟩ | ⟨_, hadd⟩ | ⟨t, ht, hne, _⟩
        · refine ⟨_, hadd, fun name g hg => ?_⟩
          rw [Vocabulary.lookup?, List.find?_append, Option.or_eq_some_iff] at hg
          rcases hg with hg | ⟨_, hg⟩
          · exact hlookup name g hg
          · obtain rfl := List.mem_singleton.mp (List.mem_of_find?_eq_some hg)
            have hname : g.name = name := by simpa using List.find?_some hg
            exact hname ▸ hf
        · exact ⟨v, hadd, hlookup⟩
        · exact absurd (Option.some.inj ((hlookup _ _ ht).symm.trans hf)) hne
    obtain ⟨u, hu, hagree⟩ := hserve
    obtain ⟨u', hu'⟩ := ih hagree hrs
    refine ⟨u', ?_⟩
    rw [serveAll, hu]
    exact hu'

namespace Construction

variable {α β α' β' : Type} {R : α → β → Prop} {Q : α' → β' → Prop}

/-- Whether a construction succeeds if another one does, with a related value, and asks for nothing
that the other one does not ask for. -/
def Below (c : Construction α) (d : Construction β) (R : α → β → Prop) : Prop :=
  ∀ b, d.outcome = .ok b → (∃ a, c.outcome = .ok a ∧ R a b) ∧ c.requests ⊆ d.requests

namespace Below

/-- Values that are related. -/
theorem pure {a : α} {b : β} (h : R a b) : Below (Pure.pure a) (Pure.pure b) R := by
  rintro _ ⟨⟩
  exact ⟨⟨a, rfl, h⟩, List.Subset.refl _⟩

/-- A construction needs no more than itself. -/
theorem refl (c : Construction α) : Below c c (· = ·) :=
  fun a ha => ⟨⟨a, ha, rfl⟩, List.Subset.refl _⟩

/-- One construction after another. -/
theorem bind {c : Construction α} {d : Construction β} {next : α → Construction α'}
    {next' : β → Construction β'} (h : Below c d R)
    (hnext : ∀ a b, R a b → Below (next a) (next' b) Q) : Below (c >>= next) (d >>= next') Q := by
  intro b' hb'
  obtain ⟨b, hb, hb'⟩ := outcome_bind_eq_ok.mp hb'
  obtain ⟨⟨a, ha, hR⟩, hrequests⟩ := h b hb
  obtain ⟨⟨a', ha', hQ⟩, hlater⟩ := hnext a b hR b' hb'
  refine ⟨⟨a', outcome_bind_eq_ok.mpr ⟨a, ha, ha'⟩, hQ⟩, ?_⟩
  simp only [requests_bind, ha, hb]
  exact List.append_subset.mpr ⟨List.Subset.trans hrequests (List.subset_append_left _ _),
    List.Subset.trans hlater (List.subset_append_right _ _)⟩

/-- Both start with the same construction. -/
theorem after {c : Construction α} {next : α → Construction α'} {next' : α → Construction β'}
    (h : ∀ a, Below (next a) (next' a) Q) : Below (c >>= next) (c >>= next') Q :=
  bind (refl c) fun a _ heq => heq ▸ h a

/-- The same number of constructions, compared one by one. -/
theorem each {γ : Type} {make : γ → Construction α} {make' : γ → Construction β} {cs : List γ}
    (h : ∀ c ∈ cs, Below (make c) (make' c) R) :
    Below (Construction.each make cs) (Construction.each make' cs) (List.Forall₂ R) := by
  induction cs with
  | nil => exact pure .nil
  | cons c cs ih =>
    obtain ⟨hc, hcs⟩ := List.forall_mem_cons.mp h
    exact bind hc fun a b hR => bind (ih hcs) fun as bs hRs => pure (.cons hR hRs)

/-- Carries out a construction for fewer members. -/
theorem each_subset {make : α → Construction β} {as as' : List α} (h : as ⊆ as') :
    Below (Construction.each make as) (Construction.each make as') (· ⊆ ·) := by
  intro bs' hbs'
  induction as with
  | nil => exact ⟨⟨[], rfl, List.nil_subset _⟩, List.nil_subset _⟩
  | cons a as ih =>
    obtain ⟨ha, has⟩ := List.cons_subset.mp h
    obtain ⟨b, hmem, hb⟩ := exists_of_mem_each hbs' ha
    obtain ⟨⟨bs, hbs, hsub⟩, hrequests⟩ := ih has
    refine ⟨⟨b :: bs, ?_, List.cons_subset.mpr ⟨hmem, hsub⟩⟩, ?_⟩
    · exact outcome_bind_eq_ok.mpr ⟨b, hb, outcome_bind_eq_ok.mpr ⟨bs, hbs, rfl⟩⟩
    · simp only [Construction.each, requests_bind, hb, hbs, requests_pure, List.append_nil]
      exact List.append_subset.mpr ⟨fun r hr => mem_requests_each hbs' ha hr, hrequests⟩

/-- From any vocabulary a construction succeeds if one above it does. -/
theorem run {c : Construction α} {d : Construction β} (h : Below c d R) {v w : Vocabulary} {b : β}
    (hrun : d.run v = (.ok b, w)) : ∃ a u, c.run v = (.ok a, u) ∧ R a b := by
  obtain ⟨houtcome, hserved⟩ := run_eq_ok.mp hrun
  obtain ⟨⟨a, ha, hR⟩, hrequests⟩ := h b houtcome
  obtain ⟨hextends, hgrants⟩ := Vocabulary.serveAll_eq_none hserved
  obtain ⟨u, hu⟩ := Vocabulary.serveAll_of_grants (fun _ _ hf => hextends.lookup? hf)
    fun r hr => hgrants r (hrequests hr)
  exact ⟨a, u, run_eq_ok.mpr ⟨ha, hu⟩, hR⟩

end Below

end Construction

/-! ## Statements -/

namespace Semantics

/-- The semantics with other variables that matter. -/
def withActive (σ : Semantics) (active : Table String VariableSet) : Semantics :=
  { σ with timeline := { σ.timeline with active } }

/-- The mode has nothing to do with the variables that matter. -/
@[simp]
theorem mode_withActive (σ : Semantics) (active : Table String VariableSet) :
    (σ.withActive active).mode = σ.mode := rfl

/-- What is asked for in advance has nothing to do with the variables that matter. -/
theorem declareProgram_withActive (σ : Semantics) (active : Table String VariableSet)
    (p : Program) : (σ.withActive active).declareProgram p = σ.declareProgram p := by
  have hloops (ss : List Statement) :
      (σ.withActive active).declareLoops ss = σ.declareLoops ss := by
    induction ss with
    | nil => rfl
    | cons s ss ih =>
      cases s with
      | loop site enclosing c body => rw [declareLoops, ih, mode_withActive, declareLoops]
      | assign site target value => exact ih
      | branch site c thens elses => exact ih
      | skip site => exact ih
  have hfunction : (σ.withActive active).declareFunction = σ.declareFunction := by
    funext f
    rw [declareFunction, hloops, declareFunction, mode_withActive]
  rw [declareProgram, hfunction, declareProgram]

/-- Among fewer variables fewer can change. -/
theorem changing_subset {s t : VariableSet} (h : ∀ x ∈ s, x ∈ t) : changing s ⊆ changing t := by
  intro x hx
  rw [mem_changing] at hx ⊢
  exact ⟨h x hx.1, hx.2⟩

variable {σ : Semantics} {A B : Table String VariableSet}

/-- All given variables have the same values, for fewer variables. -/
theorem below_sameValues (lhs rhs : Term) {xs ys : List Variable} (h : xs ⊆ ys) :
    Below ((σ.withActive A).sameValues lhs rhs xs) ((σ.withActive B).sameValues lhs rhs ys)
      Formula.AllFollow := by
  intro fs hfs
  obtain ⟨⟨gs, hgs, hsub⟩, hrequests⟩ := Below.each_subset h fs hfs
  exact ⟨⟨gs, hgs, .of_subset hsub⟩, hrequests⟩

/-- What follows may be drawn for all traces. -/
theorem followsFrom_overTraces {f g : Formula} (h : g.FollowsFrom f) :
    ((σ.withActive A).overTraces g).FollowsFrom ((σ.withActive B).overTraces f) := by
  obtain ⟨mode, tl⟩ := σ
  cases mode with
  | one => exact h
  | two => exact h.forAll _

/-- Whether fewer variables matter at each point, and points have variables where they had them. -/
def Fewer (A B : Table String VariableSet) : Prop :=
  ∀ name vars, B.get? name = some vars → ∃ fewer, A.get? name = some fewer ∧ ∀ x ∈ fewer, x ∈ vars

/-- No points have variables yet. -/
theorem fewer_empty : Fewer .empty .empty := by
  intro name vars hvars
  cases hvars

/-- One more point, at which fewer variables matter. -/
theorem Fewer.insert (h : Fewer A B) {fewer vars : VariableSet} (hsub : ∀ x ∈ fewer, x ∈ vars)
    (name : String) : Fewer (A.insert name fewer) (B.insert name vars) := by
  intro other others hothers
  by_cases hname : other = name
  · subst hname
    rw [Table.get?_insert_self] at hothers ⊢
    exact ⟨fewer, rfl, Option.some.inj hothers ▸ hsub⟩
  · rw [Table.get?_insert_of_ne _ _ hname] at hothers ⊢
    exact h other others hothers

section

variable (h : Fewer A B)

include h

/-- The variables that matter at a point, of which there are fewer. -/
theorem below_activeAt (t : Term) :
    Below ((σ.withActive A).activeAt t) ((σ.withActive B).activeAt t)
      (fun fewer vars => ∀ x ∈ fewer, x ∈ vars) := by
  intro vars hok
  cases hvars : B.get? t.head.name with
  | none =>
    simp only [activeAt, withActive, hvars] at hok
    cases hok
  | some vars' =>
    simp only [activeAt, withActive, hvars] at hok
    cases hok
    obtain ⟨fewer, hfewer, hsub⟩ := h _ _ hvars
    simp only [activeAt, withActive, hfewer, hvars]
    exact ⟨⟨fewer, rfl, hsub⟩, List.Subset.refl _⟩

/-- An assignment keeps fewer variables. -/
theorem below_assignment (site : Site) (target : Target Variable) (value : IntExpr Variable) :
    Below ((σ.withActive A).assignment site target value)
      ((σ.withActive B).assignment site target value) Formula.FollowsFrom := by
  refine .after fun l1 => .after fun l2 => ?_
  refine .bind (below_activeAt h l1) fun before before' hbefore => ?_
  refine .bind (below_activeAt h l2) fun after after' hafter => .after fun updates => ?_
  have hframed : framed target before after ⊆ framed target before' after' := by
    refine List.filter_subset _ (changing_subset fun x hx => ?_)
    simp only [VariableSet.mem_inter] at hx ⊢
    exact ⟨hbefore x hx.1, hafter x hx.2⟩
  refine .bind (below_sameValues l2 l1 hframed) fun frame frame' hframe => .pure ?_
  refine Formula.FollowsFrom.withLabel (.conjunction ?_) _
  exact .append (.of_subset (List.Subset.refl _)) hframe

/-- A branch statement keeps fewer variables. -/
theorem below_branching (site : Site) (c : BoolExpr Variable) (thens elses : List Statement) :
    Below ((σ.withActive A).branching site c thens elses)
      ((σ.withActive B).branching site c thens elses) Formula.AllFollow := by
  have hinter {s s' t t' : VariableSet} (hs : ∀ x ∈ s, x ∈ s') (ht : ∀ x ∈ t, x ∈ t') :
      changing (s.inter t) ⊆ changing (s'.inter t') := by
    refine changing_subset fun x hx => ?_
    simp only [VariableSet.mem_inter] at hx ⊢
    exact ⟨hs x hx.1, ht x hx.2⟩
  -- the ends of the statement and of its blocks
  refine .after fun start => .after fun stop => .after fun _ => .after fun _ => ?_
  refine .after fun _ => .after fun _ => .after fun leftStart => .after fun rightStart => ?_
  refine .after fun leftStop => .after fun rightStop => ?_
  refine .bind (below_activeAt h start) fun entering entering' hentering => ?_
  have hchanging := changing_subset hentering
  refine .bind (below_sameValues leftStart start hchanging) fun intoLeft intoLeft' hintoLeft => ?_
  refine .bind (below_sameValues rightStart start hchanging)
    fun intoRight intoRight' hintoRight => .after fun chosen => ?_
  refine .bind (below_activeAt h stop) fun leaving leaving' hleaving => ?_
  refine .bind (below_activeAt h leftStop) fun left left' hleft => ?_
  refine .bind (below_sameValues stop leftStop (hinter hleft hleaving))
    fun fromLeft fromLeft' hfromLeft => ?_
  refine .bind (below_activeAt h rightStop) fun right right' hright => ?_
  refine .bind (below_sameValues stop rightStop (hinter hright hleaving))
    fun fromRight fromRight' hfromRight => .pure ?_
  have hinto := (Formula.FollowsFrom.conjunction (hintoLeft.append hintoRight)).withLabel
    "Entering either branch leaves all values unchanged"
  have hfrom := (Formula.FollowsFrom.conjunction
    ((hfromLeft.map (.implication · chosen)).append
      (hfromRight.map (.implication · (.negation chosen))))).withLabel
    "The branch condition selects the values after the if-statement"
  exact .cons hinto (.cons hfrom (.of_subset (List.nil_subset _)))

/-- A loop keeps fewer variables if its body does. -/
theorem below_loop (site : Site) (enclosing : List String) (c : BoolExpr Variable)
    {body : List Statement} (hbody : Below ((σ.withActive A).block body)
      ((σ.withActive B).block body) Formula.AllFollow) :
    Below ((σ.withActive A).statement (.loop site enclosing c body))
      ((σ.withActive B).statement (.loop site enclosing c body)) Formula.FollowsFrom := by
  have hall {fs gs : List Formula} (hfs : Formula.AllFollow gs fs) (text : String) :
      ((Formula.quantified .all [Symbol.iteration site.location] (.conjunction gs)).withLabel
        text).FollowsFrom
        ((Formula.quantified .all [Symbol.iteration site.location] (.conjunction fs)).withLabel
          text) :=
    ((Formula.FollowsFrom.conjunction hfs).forAll _).withLabel text
  simp only [statement, forAllIterations_eq, pure_bind]
  refine .after fun points => ?_
  refine .bind (below_activeAt h points.start) fun vars vars' hvars => ?_
  have hchanging := changing_subset hvars
  refine .bind (below_sameValues points.bodyStart points.headNow hchanging)
    fun entry entry' hentry => ?_
  refine .bind hbody fun inside inside' hinside => .after fun bounds => ?_
  refine .bind (below_sameValues points.stop points.headLast hchanging)
    fun exit exit' hexit => .pure ?_
  refine Formula.FollowsFrom.withLabel (.conjunction (.append (.append ?_ ?_) ?_)) _
  · exact .cons (hall hentry _) (.cons (hall hinside _) (.of_subset (List.nil_subset _)))
  · exact .of_subset (List.Subset.refl _)
  · exact .cons ((Formula.FollowsFrom.conjunction hexit).withLabel _)
      (.of_subset (List.nil_subset _))

omit h in
/-- A block needs no more if its first statement and the others do not. -/
theorem below_block_cons {s : Statement} {rest : List Statement}
    (hs : Below ((σ.withActive A).statement s) ((σ.withActive B).statement s) Formula.FollowsFrom)
    (hrest : Below ((σ.withActive A).block rest) ((σ.withActive B).block rest)
      Formula.AllFollow) :
    Below ((σ.withActive A).block (s :: rest)) ((σ.withActive B).block (s :: rest))
      Formula.AllFollow :=
  .bind hs fun _ _ hf => .bind hrest fun _ _ hfs => .pure (.cons hf hfs)

/-- The meanings of the statements of a block. -/
theorem below_block (b : List Statement) :
    Below ((σ.withActive A).block b) ((σ.withActive B).block b) Formula.AllFollow := by
  induction b using blockInduction with
  | nil => exact .pure (.of_subset (List.nil_subset _))
  | assign site target value rest ih =>
    exact below_block_cons (below_assignment h site target value) ih
  | skip site rest ih =>
    have hidle : Below ((σ.withActive A).idle site) ((σ.withActive B).idle site)
        Formula.FollowsFrom :=
      .after fun l1 => .after fun l2 => .after fun f => .pure (.refl _)
    exact below_block_cons hidle ih
  | branch site c thens elses rest ihthens ihelses ih =>
    refine below_block_cons ?_ ih
    refine .bind (below_branching h site c thens elses) fun joints joints' hjoints => ?_
    refine .bind ihthens fun fs fs' hfs => .bind ihelses fun gs gs' hgs => .pure ?_
    exact Formula.FollowsFrom.withLabel (.conjunction (hjoints.append (hfs.append hgs))) _
  | loop site enclosing c body rest ihbody ih =>
    exact below_block_cons (below_loop h site enclosing c ihbody) ih

/-- The meanings of the functions of a program. -/
theorem below_program (p : Program) :
    Below ((σ.withActive A).program p) ((σ.withActive B).program p)
      (List.Forall₂ Formula.FollowsFrom) := by
  rw [program, program, declareProgram_withActive, declareProgram_withActive]
  refine .after fun _ => .each fun f _ => ?_
  rw [function_eq, function_eq]
  refine .bind (below_block h f.statements) fun fs fs' hfs => .pure ?_
  refine Formula.FollowsFrom.withLabel (.conjunction ?_) _
  exact hfs.map fun hfollows => followsFrom_overTraces hfollows

end

/-- From any vocabulary, the meanings of a program can be built if fewer variables matter, and each
of them follows from the one that it had. -/
theorem run_program_of_fewer (h : Fewer A B) (p : Program) {v w : Vocabulary} {fs : List Formula}
    (hrun : (do σ.mode.prepare; (σ.withActive B).program p : Construction (List Formula)).run v =
      (.ok fs, w)) :
    ∃ gs u, (do σ.mode.prepare; (σ.withActive A).program p : Construction (List Formula)).run v =
      (.ok gs, u) ∧ List.Forall₂ Formula.FollowsFrom gs fs := by
  have hbelow : Below (do σ.mode.prepare; (σ.withActive A).program p)
      (do σ.mode.prepare; (σ.withActive B).program p) (List.Forall₂ Formula.FollowsFrom) :=
    .after fun _ => below_program h p
  exact hbelow.run hrun

end Semantics

/-- A function that assigns to one of its two variables. -/
def Program.assigning : Program :=
  ⟨[⟨"f", [⟨"x", false, false⟩, ⟨"y", false, false⟩],
    [.assign ⟨1, "l1"⟩ (.scalar ⟨"x", false, false⟩) (.literal 1)], none⟩]⟩

/-- The points of the assignment, with the variables that matter before and after it. -/
def Semantics.assigning (before after : List Variable) : Semantics where
  mode := .two
  timeline :=
    { starts := .insert .empty 1 (.point "l1" [])
      stops := .insert .empty 1 (.point "f_end" [])
      active := (Table.empty.insert "l1" (.ofList before)).insert "f_end" (.ofList after) }

/-- Without the second variable nothing is said about it. -/
theorem Semantics.run_program_assigning :
    let both := [⟨"x", false, false⟩, ⟨"y", false, false⟩]
    let small := assigning both [⟨"x", false, false⟩]
    let large := assigning both both
    Fewer small.timeline.active large.timeline.active ∧ ∃ fs w gs u,
      (do TraceMode.two.prepare; large.program .assigning : Construction (List Formula)).run
        .initial = (.ok fs, w) ∧
      (do TraceMode.two.prepare; small.program .assigning : Construction (List Formula)).run
        .initial = (.ok gs, u) ∧
      List.Forall₂ Formula.FollowsFrom gs fs := by
  intro both small large
  have hfewer : Fewer small.timeline.active large.timeline.active :=
    (fewer_empty.insert (fun _ hx => hx) _).insert (by simp [both]) _
  have hok : ((do TraceMode.two.prepare; large.program .assigning :
      Construction (List Formula)).run .initial).1.isOk = true := by decide +kernel
  obtain ⟨fs, w, hrun⟩ := exists_run_eq_ok hok
  obtain ⟨gs, u, hfollows⟩ := run_program_of_fewer (σ := large) hfewer .assigning hrun
  exact ⟨hfewer, fs, w, gs, u, hrun, hfollows⟩

namespace Program

/-- The location pass gives the strongest axioms. If only some variables of a function matter at its
points, the meanings follow from those of the pass. -/
theorem exists_program_of_locate {source : String} {p : Program} (hload : load source = .ok p)
    {mode : TraceMode} {tl : Timeline} {v w : Vocabulary} (hlocate : p.locate mode = .ok (tl, v))
    {A : Table String VariableSet}
    (hA : ∀ f ∈ p.functions, ∀ t, tl.PointOf f t →
      ∃ vars, A.get? t.head.name = some vars ∧ ∀ x ∈ vars, x ∈ f.declared)
    {fs : List Formula} (hrun : (Semantics.program ⟨mode, tl⟩ p).run v = (.ok fs, w)) :
    ∃ gs u, (Semantics.program ⟨mode, { tl with active := A }⟩ p).run v = (.ok gs, u) ∧
      List.Forall₂ Formula.FollowsFrom gs fs := by
  have hchains := (formed_of_load hload).chains hlocate
  have hfewer : Semantics.Fewer A tl.active := by
    intro name vars hvars
    obtain ⟨f, hf, rfl, t, ht, rfl⟩ := (hchains.active_iff name vars).mp hvars
    obtain ⟨fewer, hfewer, hsub⟩ := hA f hf t ht
    exact ⟨fewer, hfewer, fun x hx => VariableSet.mem_ofList.mpr (hsub x hx)⟩
  exact (Semantics.below_program (σ := ⟨mode, tl⟩) hfewer p).run hrun

end Program

end TraceLogic
