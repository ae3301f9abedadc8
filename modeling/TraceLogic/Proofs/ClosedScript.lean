import TraceLogic.Proofs.Adequacy
import TraceLogic.Proofs.Binding

/-!
# Closed scripts

The text of a generated problem is read as a list of commands. Each command uses only what the
commands before it declare: a sort that it names belongs to the solver or has been declared, and so
has a symbol that it applies. Nothing is declared twice, and all formulas are well-sorted over the
vocabulary of the problem. That their names can be read is a fact of its own: the vocabulary and
`Program.binders` have only names that are words. `Program.closed_of_generate` puts this together.
-/

namespace TraceLogic

open Construction Sexp

/-! ## Names are words -/

/-- A name that passes the check of identifiers is a word: none of its characters ends a word. -/
theorem Sexp.isWord_of_isSymbol {name : String} (h : Identifier.isSymbol name.toList = true) :
    IsWord name := by
  constructor
  · rintro rfl
    cases h
  · intro c hc
    have hall : name.toList.all Identifier.isSymbolChar = true := by
      unfold Identifier.isSymbol at h
      split at h
      · cases h
      · exact (Bool.and_eq_true_iff.mp h).2
    have hchar := List.all_eq_true.mp hall c hc
    rw [Identifier.isSymbolChar, Bool.or_eq_true, decide_eq_true_iff] at hchar
    rcases hchar with hchar | rfl
    · exact isDelimiter_of_isAlphanum hchar
    · decide

/-- Operations have words for names, numerals included. -/
theorem Operation.isWord_name (o : Operation) : IsWord o.symbol.name := by
  rcases mem_theory_or_literal o with ho | ⟨n, rfl⟩
  · have hwords : ∀ name ∈ Interpreted.theoryNames, IsWord name := by decide
    exact hwords _ (name_mem_theoryNames ho)
  · cases n with
    | ofNat k => exact isWord_repr k
    | negSucc k => exact IsWord.append (by decide) (isWord_repr (k + 1))

namespace Program.Formed

variable {p : Program} (hp : p.Formed)

include hp

/-- A loop has a word for its name, since its location has. -/
theorem isWord_of_mem_loops {loop : String} (h : loop ∈ p.loops) : IsWord loop := by
  obtain ⟨f, hf, hloop⟩ := List.mem_flatMap.mp h
  have hlocation : loop ∈ f.locations :=
    List.mem_cons_of_mem _ (Statement.blockLoops_subset f.statements hloop)
  exact isWord_of_isSymbol
    (hp.isPointName_of_mem_locations (List.mem_flatMap.mpr ⟨f, hf, hlocation⟩)).2

/-- The variables that a problem binds have words for names. -/
theorem isWord_of_mem_binders {b : Symbol} (h : b ∈ p.binders) : IsWord b.name := by
  rcases List.mem_append.mp h with h | h
  · have hwords : ∀ b ∈ [Symbol.position, Symbol.trace], IsWord b.name := by decide
    exact hwords b h
  · obtain ⟨loop, hloop, rfl⟩ := List.mem_map.mp h
    exact IsWord.append (by decide) (hp.isWord_of_mem_loops hloop)

/-- Every symbol of a program has a word for its name, whatever notion it stands for. -/
theorem isWord_name_symbol {n : Notion} (h : n.OfProgram p) (mode : TraceMode) :
    IsWord (n.symbol mode).name := by
  cases n with
  | operation o => exact o.isWord_name
  | location name depth =>
    exact isWord_of_isSymbol (hp.isPointName_of_mem_locations (mem_locations h)).2
  | lastIteration loop enclosing =>
    exact isWord_of_isSymbol (hp.isPointName_of_mem_loops (mem_loops h)).2
  | value x => exact isWord_of_isSymbol (hp.not_isPointName_of_mem_declared h).2

end Program.Formed

/-! ## The vocabulary of a problem -/

/-- Whether a vocabulary can be declared: nothing is listed twice, names are words, and the sorts of
its symbols are there. -/
structure Vocabulary.Declarable (v : Vocabulary) : Prop where
  distinct : v.Distinct
  readable : v.Readable
  grounded : ∀ f ∈ v.symbols, ∀ s ∈ f.range :: f.domain, s ∈ v.sorts

/-- The sorts of a problem have words for names. -/
theorem TraceMode.isWord_of_mem_sorts {mode : TraceMode} {s : SortSymbol} (h : s ∈ mode.sorts) :
    IsWord s.name := by
  have hwords : ∀ mode : TraceMode, ∀ s ∈ mode.sorts, IsWord s.name := by
    intro mode
    cases mode <;> decide
  exact hwords mode s h

/-- The symbols of a generated problem have been asked for. -/
theorem Program.request_of_mem_symbols {p : Program} {mode : TraceMode}
    {schedule : Option Schedule} {g : Generated} (hg : p.generate mode schedule = .ok g)
    {f : Symbol} (hf : f ∈ g.vocabulary.symbols) : .symbol f ∈ (p.build mode).requests :=
  ((build_of_generate hg).2.asked.2 f hf).resolve_left List.not_mem_nil

namespace Program.Formed

variable {p : Program} {mode : TraceMode} {schedule : Option Schedule} {g : Generated}
  (hp : p.Formed) (hg : p.generate mode schedule = .ok g)

include hp hg

/-- The vocabulary of a generated problem can be declared. -/
theorem declarable : g.vocabulary.Declarable := by
  have hreaches := (build_of_generate hg).2
  obtain ⟨_, hgrants⟩ := hreaches.grants
  obtain ⟨notions, hnotions, hbuild⟩ := hp.uniform_build
  obtain ⟨⟨hasked, hgrounded⟩, _⟩ := hbuild mode
  have hmode : ∀ s ∈ g.vocabulary.sorts, s ∈ mode.sorts := by
    intro s hs
    rcases hreaches.asked.1 s hs with hs | hs
    · exact List.mem_append_left _ (List.mem_append_left [SortSymbol.time] hs)
    · exact hgrounded.sorts s hs
  have hrequest : ∀ f ∈ g.vocabulary.symbols, .symbol f ∈ (p.build mode).requests :=
    fun f hf => request_of_mem_symbols hg hf
  have hground : ∀ f ∈ g.vocabulary.symbols, ∀ s ∈ f.range :: f.domain,
      s ∈ g.vocabulary.sorts :=
    fun f hf s hs => hgrants (.sort s) (hgrounded.symbols f (hrequest f hf) s hs)
  refine ⟨hreaches.distinct Vocabulary.distinct_initial,
    ⟨fun s hs => TraceMode.isWord_of_mem_sorts (hmode s hs), fun f hf => ?_⟩, hground⟩
  refine ⟨?_, fun s hs => TraceMode.isWord_of_mem_sorts (hmode s (hground f hf s hs))⟩
  have hf := mem_symbolsOf.mpr (hrequest f hf)
  rw [hasked] at hf
  obtain ⟨n, hn, rfl⟩ := List.mem_map.mp hf
  exact hp.isWord_name_symbol (hnotions n hn) mode

/-- The formulas of a generated problem are well-sorted over its vocabulary. -/
theorem wellSorted_formulas : ∀ φ ∈ g.problem.formulas, φ.WellSorted g.vocabulary [] := by
  obtain ⟨houtcome, hreaches⟩ := build_of_generate hg
  obtain ⟨hextends, hgrants⟩ := hreaches.grants
  rw [build_eq] at houtcome hgrants
  have hlocated : ∀ r ∈ (do mode.prepare; Timeline.ofProgram p : Construction Timeline).requests,
      g.vocabulary.Grants r := fun r hr => hgrants r (mem_requests_bind_left hr)
  have htimeline : Yields g.vocabulary
      (do mode.prepare; Timeline.ofProgram p : Construction Timeline)
      (Timeline.Sorted g.vocabulary) :=
    .after fun _ _ => Timeline.yields_locateFunctions (Timeline.sorted_empty _) p.functions
  refine Yields.bind (Q := fun problem : Problem => ∀ φ ∈ problem.formulas,
    φ.WellSorted g.vocabulary []) htimeline (fun tl htl hsorted => ?_) hgrants _ houtcome
  obtain ⟨_, _, htl⟩ := outcome_bind_eq_ok.mp htl
  exact hp.yields_posed (sorts_of_grants hextends hlocated) hsorted
    (Timeline.covers_of_locateFunctions hp.apart.1 hp.apart.2 htl).1

/-- The formulas of a generated problem bind only variables of the program, under new names. -/
theorem bindsApart_formulas : ∀ φ ∈ g.problem.formulas, φ.BindsApart p.binders [] := by
  obtain ⟨_, _, hrun⟩ := generate_eq_ok.mp hg
  obtain ⟨houtcome, hreaches⟩ := Semantics.problem_eq_ok hrun
  exact hp.apart_posed _ hreaches.grants.2 _ houtcome

end Program.Formed

/-! ## What formulas use -/

namespace Term

mutual

/-- The symbols that are applied in a term. -/
def heads : Term → List Symbol
  | .var _ => []
  | .app f ts => f :: headsOf ts

/-- The symbols that are applied in terms. -/
def headsOf : List Term → List Symbol
  | [] => []
  | t :: ts => heads t ++ headsOf ts

end

variable {v : Vocabulary} {scope : List Symbol}

mutual

/-- The symbols of a sorted term are those of the vocabulary. -/
theorem Sorted.lookup? : {t : Term} → t.Sorted v → ∀ f ∈ t.heads, v.lookup? f.name = some f
  | .var _, _ => List.forall_mem_nil _
  | .app _ _, h => List.forall_mem_cons.mpr ⟨h.1, AllSorted.lookup? h.2.2⟩

/-- The symbols of sorted terms are those of the vocabulary. -/
theorem AllSorted.lookup? : {ts : List Term} → AllSorted v ts →
    ∀ f ∈ headsOf ts, v.lookup? f.name = some f
  | [], _ => List.forall_mem_nil _
  | _ :: _, h => List.forall_mem_append.mpr ⟨Sorted.lookup? h.1, AllSorted.lookup? h.2⟩

end

mutual

/-- The names in a well-sorted term are words if those of the vocabulary and the scope are. -/
theorem readable (hv : v.Readable) (hscope : ∀ b ∈ scope, IsWord b.name) :
    (t : Term) → t.Sorted v → t.Closed scope → t.Readable
  | .var x, _, h => by
    have hx : scope.find? (fun b => b.name = x.name) = some x := h
    exact hscope x (List.mem_of_find?_eq_some hx)
  | .app f ts, h, h' => by
    have hf := (Vocabulary.lookup?_eq_some h.1).1
    exact ⟨(hv.symbols f hf).1, allReadable hv hscope ts h.2.2 h'⟩

/-- The names in well-sorted terms are words if those of the vocabulary and the scope are. -/
theorem allReadable (hv : v.Readable) (hscope : ∀ b ∈ scope, IsWord b.name) :
    (ts : List Term) → AllSorted v ts → AllClosed scope ts → AllReadable ts
  | [], _, _ => trivial
  | t :: ts, h, h' => ⟨readable hv hscope t h.1 h'.1, allReadable hv hscope ts h.2 h'.2⟩

end

end Term

namespace Formula

mutual

/-- The symbols that are applied in a formula. -/
def heads : Formula → List Symbol
  | .equal s t => s.heads ++ t.heads
  | .distinct s t => s.heads ++ t.heads
  | .predicate p ts => p :: Term.headsOf ts
  | .negation f => heads f
  | .implication f g => heads f ++ heads g
  | .junction _ fs => headsOf fs
  | .quantified _ _ f => heads f
  | .labelled _ f => heads f

/-- The symbols that are applied in formulas. -/
def headsOf : List Formula → List Symbol
  | [] => []
  | f :: fs => heads f ++ headsOf fs

end

mutual

/-- The variables that are bound in a formula. -/
def bound : Formula → List Symbol
  | .equal _ _ => []
  | .distinct _ _ => []
  | .predicate _ _ => []
  | .negation f => bound f
  | .implication f g => bound f ++ bound g
  | .junction _ fs => boundIn fs
  | .quantified _ binders f => binders ++ bound f
  | .labelled _ f => bound f

/-- The variables that are bound in formulas. -/
def boundIn : List Formula → List Symbol
  | [] => []
  | f :: fs => bound f ++ boundIn fs

end

variable {v : Vocabulary} {scope : List Symbol}

mutual

/-- The symbols of a well-sorted formula are those of the vocabulary. -/
theorem lookup?_of_mem_heads : {scope : List Symbol} → (f : Formula) → f.WellSorted v scope →
    ∀ g ∈ f.heads, v.lookup? g.name = some g
  | _, .equal _ _, h => List.forall_mem_append.mpr ⟨h.1.sorted.lookup?, h.2.1.sorted.lookup?⟩
  | _, .distinct _ _, h => List.forall_mem_append.mpr ⟨h.1.sorted.lookup?, h.2.1.sorted.lookup?⟩
  | _, .predicate _ _, h => h.2.sorted.lookup?
  | _, .negation f, h => lookup?_of_mem_heads f h
  | _, .implication f g, h =>
    List.forall_mem_append.mpr ⟨lookup?_of_mem_heads f h.1, lookup?_of_mem_heads g h.2⟩
  | _, .junction _ fs, h => lookup?_of_mem_headsOf fs h
  | _, .quantified _ _ f, h => lookup?_of_mem_heads f h.2
  | _, .labelled _ f, h => lookup?_of_mem_heads f h

/-- The symbols of well-sorted formulas are those of the vocabulary. -/
theorem lookup?_of_mem_headsOf : {scope : List Symbol} → (fs : List Formula) →
    AllWellSorted v scope fs → ∀ g ∈ headsOf fs, v.lookup? g.name = some g
  | _, [], _ => List.forall_mem_nil _
  | _, f :: fs, h =>
    List.forall_mem_append.mpr ⟨lookup?_of_mem_heads f h.1, lookup?_of_mem_headsOf fs h.2⟩

end

mutual

/-- The sorts of the variables that a well-sorted formula binds are there. -/
theorem sort_of_mem_bound : {scope : List Symbol} → (f : Formula) → f.WellSorted v scope →
    ∀ b ∈ f.bound, b.domain = [] ∧ b.range ∈ v.sorts
  | _, .equal _ _, _ => List.forall_mem_nil _
  | _, .distinct _ _, _ => List.forall_mem_nil _
  | _, .predicate _ _, _ => List.forall_mem_nil _
  | _, .negation f, h => sort_of_mem_bound f h
  | _, .implication f g, h =>
    List.forall_mem_append.mpr ⟨sort_of_mem_bound f h.1, sort_of_mem_bound g h.2⟩
  | _, .junction _ fs, h => sort_of_mem_boundIn fs h
  | _, .quantified _ _ f, h => List.forall_mem_append.mpr
      ⟨h.1, sort_of_mem_bound f h.2⟩
  | _, .labelled _ f, h => sort_of_mem_bound f h

/-- The sorts of the variables that well-sorted formulas bind are there. -/
theorem sort_of_mem_boundIn : {scope : List Symbol} → (fs : List Formula) →
    AllWellSorted v scope fs → ∀ b ∈ boundIn fs, b.domain = [] ∧ b.range ∈ v.sorts
  | _, [], _ => List.forall_mem_nil _
  | _, f :: fs, h =>
    List.forall_mem_append.mpr ⟨sort_of_mem_bound f h.1, sort_of_mem_boundIn fs h.2⟩

end

mutual

/-- The names in a well-sorted formula are words if those of the vocabulary are, and those of the
variables that it may bind. -/
theorem readable (hv : v.Readable) {allowed : List Symbol} (hwords : ∀ b ∈ allowed, IsWord b.name) :
    {scope : List Symbol} → scope ⊆ allowed → (f : Formula) → f.WellSorted v scope →
    f.BindsApart allowed scope → f.Readable
  | _, hscope, .equal s t, h, _ =>
    have hscope b hb := hwords b (hscope hb)
    ⟨s.readable hv hscope h.1.sorted h.1.closed, t.readable hv hscope h.2.1.sorted h.2.1.closed⟩
  | _, hscope, .distinct s t, h, _ =>
    have hscope b hb := hwords b (hscope hb)
    ⟨s.readable hv hscope h.1.sorted h.1.closed, t.readable hv hscope h.2.1.sorted h.2.1.closed⟩
  | _, hscope, .predicate p ts, h, _ =>
    Term.readable hv (fun b hb => hwords b (hscope hb)) (.app p ts) h.2.sorted h.2.closed
  | _, hscope, .negation f, h, hbinds => readable hv hwords hscope f h hbinds
  | _, hscope, .implication f g, h, hbinds =>
    ⟨readable hv hwords hscope f h.1 hbinds.1, readable hv hwords hscope g h.2 hbinds.2⟩
  | _, hscope, .junction _ fs, h, hbinds => allReadable hv hwords hscope fs h hbinds
  | _, hscope, .quantified _ _ f, h, hbinds => by
    have hallowed b hb := (hbinds.1 b hb).1
    refine ⟨fun b hb => ⟨hwords b (hallowed b hb), hv.sorts _ (h.1 b hb).2⟩, ?_⟩
    exact readable hv hwords (List.append_subset.mpr ⟨hallowed, hscope⟩) f h.2 hbinds.2
  | _, hscope, .labelled _ f, h, hbinds => readable hv hwords hscope f h hbinds

/-- The names in well-sorted formulas are words if those of the vocabulary are, and those of the
variables that they may bind. -/
theorem allReadable (hv : v.Readable) {allowed : List Symbol}
    (hwords : ∀ b ∈ allowed, IsWord b.name) : {scope : List Symbol} → scope ⊆ allowed →
    (fs : List Formula) → AllWellSorted v scope fs → AllBindApart allowed scope fs →
    AllReadable fs
  | _, _, [], _, _ => trivial
  | _, hscope, f :: fs, h, hbinds =>
    ⟨readable hv hwords hscope f h.1 hbinds.1, allReadable hv hwords hscope fs h.2 hbinds.2⟩

end

end Formula

/-! ## Commands in order -/

namespace Command

/-- The sort that a command declares. -/
def declaredSort? : Command → Option SortSymbol
  | declareSort s => some s
  | _ => none

/-- The symbol that a command declares. -/
def declaredFun? : Command → Option Symbol
  | declareFun f => some f
  | _ => none

/-- The symbols that a command applies. -/
def heads : Command → List Symbol
  | assertion _ f => f.heads
  | assertNot f => f.heads
  | _ => []

/-- The symbols that a command declares, defines, binds or applies. -/
def symbols : Command → List Symbol
  | declareFun f => [f]
  | defineOrder => [Interpreted.beforeSymbol]
  | assertion _ f => f.bound ++ f.heads
  | assertNot f => f.bound ++ f.heads
  | _ => []

/-- Whether a command uses only sorts and symbols that belong to the solver or have been declared
before. -/
structure Placed (before : List Command) (c : Command) : Prop where
  sorts : ∀ f ∈ c.symbols, ∀ s ∈ f.range :: f.domain,
    s.isBuiltin = true ∨ .declareSort s ∈ before
  heads : ∀ f ∈ c.heads, f.interpreted = true ∨ .declareFun f ∈ before

/-- Whether each of several commands is placed after those before it. -/
def AllPlaced (before : List Command) : List Command → Prop
  | [] => True
  | c :: cs => c.Placed before ∧ AllPlaced (before ++ [c]) cs

/-- Whether commands form a script that uses what it declares, and declares nothing twice. -/
structure Closed (script : List Command) : Prop where
  placed : AllPlaced [] script
  sorts_nodup : (script.filterMap declaredSort?).Nodup
  symbols_nodup : ((script.filterMap declaredFun?).map (·.name)).Nodup

variable {before cs ds : List Command}

/-- A command that has been placed after others may come later. -/
theorem Placed.append {c : Command} (h : c.Placed before) (later : List Command) :
    c.Placed (before ++ later) :=
  ⟨fun f hf s hs => (h.sorts f hf s hs).imp_right (List.mem_append_left later),
    fun f hf => (h.heads f hf).imp_right (List.mem_append_left later)⟩

/-- Scripts that are placed one after the other are placed together. -/
theorem AllPlaced.append (hcs : AllPlaced before cs) (hds : AllPlaced (before ++ cs) ds) :
    AllPlaced before (cs ++ ds) := by
  induction cs generalizing before with
  | nil => simpa using hds
  | cons c cs ih =>
    refine ⟨hcs.1, ih hcs.2 ?_⟩
    rwa [List.append_assoc]

/-- Commands that do not use each other may stand in any order. -/
theorem allPlaced_of_forall (h : ∀ c ∈ cs, c.Placed before) : AllPlaced before cs := by
  induction cs generalizing before with
  | nil => trivial
  | cons c cs ih =>
    obtain ⟨hc, hcs⟩ := List.forall_mem_cons.mp h
    exact ⟨hc, ih fun d hd => (hcs d hd).append [c]⟩

end Command

/-- The commands of a sort use nothing that comes before them. The order of time is defined after
its sort is declared. -/
theorem SortSymbol.allPlaced_commands (before : List Command) (s : SortSymbol) :
    Command.AllPlaced before s.commands := by
  have hdeclare : (Command.declareSort s).Placed before :=
    ⟨by simp [Command.symbols], by simp [Command.heads]⟩
  unfold commands
  split
  · trivial
  split
  · rename_i htime
    subst htime
    refine ⟨hdeclare, ⟨?_, by simp [Command.heads]⟩, trivial⟩
    simp [Command.symbols, Interpreted.beforeSymbol, Interpreted.interpreted, isBuiltin]
  · exact ⟨hdeclare, trivial⟩

/-- A sort that does not belong to the solver is declared once, and no symbol is declared with
it. -/
theorem SortSymbol.filterMap_commands (s : SortSymbol) :
    s.commands.filterMap Command.declaredSort? = [s].filter (fun s => !s.isBuiltin) ∧
      s.commands.filterMap Command.declaredFun? = [] := by
  unfold commands
  split
  · rename_i hs
    simp [hs]
  split
  · rename_i htime
    subst htime
    exact ⟨rfl, rfl⟩
  · rename_i hs _
    simp [hs, Command.declaredSort?, Command.declaredFun?]

namespace Vocabulary

variable {v : Vocabulary} {before : List Command}

/-- The commands that declare a vocabulary. -/
def declarations (v : Vocabulary) : List Command :=
  v.sorts.flatMap (·.commands) ++ (v.symbols.filter (fun f => !f.interpreted)).map .declareFun

/-- The commands of sorts declare those that do not belong to the solver, in order, and no
symbols. -/
theorem filterMap_sorts (sorts : List SortSymbol) :
    (sorts.flatMap (·.commands)).filterMap Command.declaredSort? =
        sorts.filter (fun s => !s.isBuiltin) ∧
      (sorts.flatMap (·.commands)).filterMap Command.declaredFun? = [] := by
  induction sorts with
  | nil => exact ⟨rfl, rfl⟩
  | cons s sorts ih =>
    obtain ⟨hsorts, hfuns⟩ := s.filterMap_commands
    rw [List.flatMap_cons, List.filterMap_append, List.filterMap_append, ih.1, ih.2, hsorts, hfuns,
      ← List.filter_append]
    exact ⟨rfl, rfl⟩

/-- The declarations declare the free sorts and symbols, in order. -/
theorem filterMap_declarations (v : Vocabulary) :
    v.declarations.filterMap Command.declaredSort? = v.sorts.filter (fun s => !s.isBuiltin) ∧
      v.declarations.filterMap Command.declaredFun? =
        v.symbols.filter (fun f => !f.interpreted) := by
  obtain ⟨hsorts, hfuns⟩ := filterMap_sorts v.sorts
  rw [declarations, List.filterMap_append, List.filterMap_append, hsorts, hfuns,
    List.filterMap_map, List.filterMap_map]
  constructor
  · simp [Function.comp_def, Command.declaredSort?]
  · simp [Function.comp_def, Command.declaredFun?]

/-- Whether commands declare a vocabulary, apart from what belongs to the solver. -/
structure DeclaredBy (v : Vocabulary) (before : List Command) : Prop where
  sorts : ∀ s ∈ v.sorts, s.isBuiltin = true ∨ .declareSort s ∈ before
  symbols : ∀ f ∈ v.symbols, f.interpreted = true ∨ .declareFun f ∈ before

/-- What has been declared stays declared. -/
theorem DeclaredBy.append (h : v.DeclaredBy before) (later : List Command) :
    v.DeclaredBy (before ++ later) :=
  ⟨fun s hs => (h.sorts s hs).imp_right (List.mem_append_left later),
    fun f hf => (h.symbols f hf).imp_right (List.mem_append_left later)⟩

/-- A sort of the vocabulary belongs to the solver or is declared. -/
theorem declareSort_mem {s : SortSymbol} (h : s ∈ v.sorts) :
    s.isBuiltin = true ∨ .declareSort s ∈ v.sorts.flatMap (·.commands) := by
  by_cases hs : s.isBuiltin = true
  · exact .inl hs
  · refine .inr (List.mem_flatMap.mpr ⟨s, h, ?_⟩)
    rw [SortSymbol.commands, if_neg hs]
    split <;> exact List.mem_cons_self

/-- The declarations declare the vocabulary, whatever comes before them. -/
theorem declaredBy_declarations (v : Vocabulary) (before : List Command) :
    v.DeclaredBy (before ++ v.declarations) := by
  constructor
  · intro s hs
    refine (declareSort_mem hs).imp_right fun h => ?_
    exact List.mem_append_right _ (List.mem_append_left _ h)
  · intro f hf
    cases hfree : f.interpreted with
    | true => exact .inl rfl
    | false =>
      have hfilter : f ∈ v.symbols.filter (fun f => !f.interpreted) := by simp [hf, hfree]
      exact .inr (List.mem_append_right _ (List.mem_append_right _ (List.mem_map_of_mem hfilter)))

/-- The commands of sorts use nothing that comes before them. -/
theorem allPlaced_sorts (before : List Command) (sorts : List SortSymbol) :
    Command.AllPlaced before (sorts.flatMap (·.commands)) := by
  induction sorts generalizing before with
  | nil => trivial
  | cons s sorts ih => exact (s.allPlaced_commands before).append (ih _)

/-- Symbols are declared after their sorts. -/
theorem Declarable.allPlaced_declarations (hv : v.Declarable) (before : List Command) :
    Command.AllPlaced before v.declarations := by
  refine (allPlaced_sorts before v.sorts).append (Command.allPlaced_of_forall fun c hc => ?_)
  obtain ⟨f, hf, rfl⟩ := List.mem_map.mp hc
  refine ⟨List.forall_mem_singleton.mpr fun s hs => ?_, List.forall_mem_nil _⟩
  have hsort := hv.grounded f (List.mem_of_mem_filter hf) s hs
  exact (declareSort_mem hsort).imp_right (List.mem_append_right _)

/-- A well-sorted formula may be asserted once the vocabulary has been declared. -/
theorem DeclaredBy.placed (h : v.DeclaredBy before) (hv : v.Declarable) {φ : Formula}
    (hφ : φ.WellSorted v []) (name : String) :
    (Command.assertion name φ).Placed before ∧ (Command.assertNot φ).Placed before := by
  have hheads : ∀ f ∈ φ.heads, f ∈ v.symbols := fun f hf =>
    (lookup?_eq_some (φ.lookup?_of_mem_heads hφ f hf)).1
  have hsorts : ∀ f ∈ φ.bound ++ φ.heads, ∀ s ∈ f.range :: f.domain, s ∈ v.sorts := by
    refine List.forall_mem_append.mpr ⟨fun b hb => ?_, fun f hf => hv.grounded f (hheads f hf)⟩
    obtain ⟨hdomain, hrange⟩ := φ.sort_of_mem_bound hφ b hb
    rw [hdomain]
    exact List.forall_mem_singleton.mpr hrange
  have hplaced (f : Symbol) (hf : f ∈ φ.bound ++ φ.heads) (s : SortSymbol)
      (hs : s ∈ f.range :: f.domain) := h.sorts s (hsorts f hf s hs)
  exact ⟨⟨hplaced, fun f hf => h.symbols f (hheads f hf)⟩,
    ⟨hplaced, fun f hf => h.symbols f (hheads f hf)⟩⟩

end Vocabulary

namespace Problem

variable {p : Problem} {v : Vocabulary} {goal : Formula}

/-- Assertions declare nothing. -/
theorem filterMap_namedAssertions {α : Type} {f : Command → Option α}
    (hf : ∀ name φ, f (.assertion name φ) = none) (stem : String) (i : Nat) (fs : List Formula) :
    (namedAssertions stem i fs).filterMap f = [] := by
  simp [namedAssertions, List.filterMap_map, hf]

/-- Assertions of well-sorted formulas may follow the declarations. -/
theorem allPlaced_namedAssertions {before : List Command} (hbefore : v.DeclaredBy before)
    (hv : v.Declarable) {fs : List Formula} (hfs : ∀ φ ∈ fs, φ.WellSorted v []) (stem : String)
    (i : Nat) : Command.AllPlaced before (namedAssertions stem i fs) := by
  refine Command.allPlaced_of_forall fun c hc => ?_
  obtain ⟨e, he, rfl⟩ := List.mem_map.mp hc
  exact (hbefore.placed hv (hfs e.1 (List.fst_mem_of_mem_zipIdx he)) _).1

/-- The commands of a problem, with the declarations in one piece. -/
theorem commands_eq (p : Problem) (v : Vocabulary) (goal : Formula) :
    p.commands v goal = .produceCores :: (v.declarations ++ (namedAssertions "axiom" 0 p.axioms ++
      (namedAssertions "lemma" 0 p.lemmas ++ [.assertNot goal, .checkSat, .getUnsatCore]))) := by
  simp [commands, Vocabulary.declarations]

/-- Everything that a problem declares belongs to the vocabulary. -/
theorem filterMap_commands {α : Type} {f : Command → Option α}
    (hf : ∀ c : Command, c.declaredSort? = none → c.declaredFun? = none → f c = none)
    (p : Problem) (v : Vocabulary) (goal : Formula) :
    (p.commands v goal).filterMap f = v.declarations.filterMap f := by
  have hassertions := filterMap_namedAssertions fun name φ => hf (.assertion name φ) rfl rfl
  have hquestion : [Command.assertNot goal, .checkSat, .getUnsatCore].filterMap f = [] := by
    simp only [List.filterMap_eq_nil_iff, List.forall_mem_cons]
    exact ⟨hf _ rfl rfl, hf _ rfl rfl, hf _ rfl rfl, List.forall_mem_nil _⟩
  rw [commands_eq, List.filterMap_cons_none (hf _ rfl rfl)]
  simp only [List.filterMap_append, hassertions, hquestion, List.append_nil]

/-- The commands of a problem form a closed script. -/
theorem closed_commands (hv : v.Declarable) (hgoal : p.conjecture = some goal)
    (hp : ∀ φ ∈ p.formulas, φ.WellSorted v []) : Command.Closed (p.commands v goal) := by
  obtain ⟨hsorts, hfuns⟩ := v.filterMap_declarations
  constructor
  · have haxioms : ∀ φ ∈ p.axioms, φ.WellSorted v [] := fun φ hφ => hp φ (by simp [formulas, hφ])
    have hlemmas : ∀ φ ∈ p.lemmas, φ.WellSorted v [] := fun φ hφ => hp φ (by simp [formulas, hφ])
    have hquestion : goal.WellSorted v [] := hp goal (by simp [formulas, hgoal])
    have hidle (c : Command) (before : List Command) (hsymbols : c.symbols = [])
        (hheads : c.heads = []) : c.Placed before :=
      ⟨by simp [hsymbols], by simp [hheads]⟩
    have hdeclared := v.declaredBy_declarations [.produceCores]
    have hdeclared' := hdeclared.append (namedAssertions "axiom" 0 p.axioms)
    have hdeclared'' := hdeclared'.append (namedAssertions "lemma" 0 p.lemmas)
    rw [commands_eq]
    refine ⟨hidle _ _ rfl rfl, (hv.allPlaced_declarations _).append ?_⟩
    refine (allPlaced_namedAssertions hdeclared hv haxioms _ _).append ?_
    refine (allPlaced_namedAssertions hdeclared' hv hlemmas _ _).append ?_
    exact ⟨(hdeclared''.placed hv hquestion "").2, hidle _ _ rfl rfl, hidle _ _ rfl rfl, trivial⟩
  · rw [filterMap_commands fun _ h _ => h, hsorts]
    exact hv.distinct.sorts.filter _
  · rw [filterMap_commands fun _ _ h => h, hfuns]
    exact hv.distinct.names.sublist (List.filter_sublist.map _)

end Problem

namespace Program

/-- The text of a generated problem is a script in which every formula is well-sorted, and which
uses what it declares and declares nothing twice. -/
theorem closed_of_generate {source : String} {p : Program} (hload : load source = .ok p)
    {mode : TraceMode} {schedule : Option Schedule} {g : Generated}
    (hg : p.generate mode schedule = .ok g) :
    ∃ goal text, g.problem.conjecture = some goal ∧ g.problem.print g.vocabulary = .ok text ∧
      readAll text = some ((g.problem.commands g.vocabulary goal).map Command.sexp) ∧
      (∀ φ ∈ g.problem.formulas, φ.WellSorted g.vocabulary [] ∧ φ.Readable) ∧
      Command.Closed (g.problem.commands g.vocabulary goal) := by
  have hp := formed_of_load hload
  obtain ⟨_, _, hproblem⟩ := generate_eq_ok.mp hg
  obtain ⟨goal, _, _, hgoal⟩ := Semantics.parts_of_problem hproblem
  obtain ⟨ls, hls, hprint⟩ := Problem.exists_lines g.vocabulary hgoal
  have hv := hp.declarable hg
  have hformulas := hp.wellSorted_formulas hg
  have hreadable : ∀ φ ∈ g.problem.formulas, φ.Readable := fun φ hφ =>
    φ.readable hv.readable (fun _ => hp.isWord_of_mem_binders) (List.nil_subset _)
      (hformulas φ hφ) (hp.bindsApart_formulas hg φ hφ)
  have hread := Problem.readAll_unlines
    (Problem.readsCommands_lines hgoal hv.readable hreadable hls)
  exact ⟨goal, Problem.unlines ls, hgoal, hprint, hread,
    fun φ hφ => ⟨hformulas φ hφ, hreadable φ hφ⟩, Problem.closed_commands hv hgoal hformulas⟩

/-- Two traces of a program with a loop and a postcondition. -/
theorem closed_countingProgram : load countingSource = .ok countingProgram ∧
    ∃ g, countingProgram.generate .two none = .ok g ∧
      ∃ goal text, g.problem.conjecture = some goal ∧ g.problem.print g.vocabulary = .ok text ∧
        readAll text = some ((g.problem.commands g.vocabulary goal).map Command.sexp) ∧
        (∀ φ ∈ g.problem.formulas, φ.WellSorted g.vocabulary [] ∧ φ.Readable) ∧
        Command.Closed (g.problem.commands g.vocabulary goal) := by
  have hok : (countingProgram.generate .two none).isOk = true := by decide +kernel
  obtain ⟨g, hg⟩ := exists_eq_ok_of_isOk hok
  exact ⟨load_countingSource, g, hg, closed_of_generate load_countingSource hg⟩

end Program

end TraceLogic
