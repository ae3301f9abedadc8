import TraceLogic.Trace.Conditions
import TraceLogic.Proofs.Loading

/-!
# What the location pass records

The terms of the points at which statements start and end are fixed by where a statement stands:
`Statement.blockSpans` lists them for a block, along the block. `Timeline.Records` compares two
timelines by the spans and the locations that have been added, and composes along the pass.

The main statement, `Program.Formed.covers`, says that the timeline of a program has every span of
every function, and counts all variables of a function at every location of it.
-/

namespace TraceLogic

open Timeline

namespace Term

/-- The first iteration. -/
def zero : Term := .app Interpreted.zeroSymbol []

/-- The iteration after a given one. -/
def succ (t : Term) : Term := .app Interpreted.succSymbol [t]

/-- The point at a location inside loops. -/
def point (location : String) (loops : List String) : Term :=
  .app (.location location loops.length) (loops.map .iteration)

/-- The head of a loop in a given iteration. -/
def loopHead (location : String) (enclosing loops : List String) (i : Term) : Term :=
  .app (.loopHead location enclosing) (loops.map .iteration ++ [i])

/-- Applying a symbol after a check gives the plain application. -/
theorem app?_eq_ok {f : Symbol} {ts : List Term} {t : Term} (h : app? f ts = .ok t) :
    t = .app f ts := by
  unfold app? at h
  split at h
  · cases h
    rfl
  · cases h

end Term

/-- When a statement runs: the terms of its start and its end. -/
structure Span where
  statement : Nat
  start : Term
  stop : Term

namespace Statement

/-- The term of the point at which a statement inside loops starts. -/
def startTerm (loops : List String) : Statement → Term
  | .loop site enclosing _ _ => .loopHead site.location enclosing loops .zero
  | s => .point s.location loops

/-- The term of the point at which a block starts that ends at a given point. -/
def blockStartTerm (loops : List String) (stop : Term) : List Statement → Term
  | [] => stop
  | s :: _ => s.startTerm loops

/-- A block starts where its first statement does, and where it ends if there is none. -/
@[simp]
theorem headD_map_startTerm (loops : List String) (stop : Term) (b : List Statement) :
    (b.map (startTerm loops)).headD stop = blockStartTerm loops stop b := by
  cases b <;> rfl

mutual

/-- The spans of the statements nested in a statement. -/
def nestedSpans (loops : List String) : Statement → List Span
  | .branch site _ thens elses =>
    blockSpans loops (.point (leftEnd site.location) loops) thens ++
      blockSpans loops (.point (rightEnd site.location) loops) elses
  | .loop site enclosing _ body =>
    blockSpans (loops ++ [site.location])
      (.loopHead site.location enclosing loops (.succ (.iteration site.location))) body
  | .assign _ _ _ => []
  | .skip _ => []

/-- The spans of the statements of a block and of those nested in them. Each statement ends where
the next one starts. -/
def blockSpans (loops : List String) (stop : Term) : List Statement → List Span
  | [] => []
  | s :: rest =>
    ⟨s.id, s.startTerm loops, blockStartTerm loops stop rest⟩ ::
      (s.nestedSpans loops ++ blockSpans loops stop rest)

end

/-- The spans of a block belong to its statements in order. -/
theorem map_statement_blockSpans (loops : List String) (stop : Term) (b : List Statement) :
    (blockSpans loops stop b).map (·.statement) = (blockInOrder b).map Statement.id := by
  induction b using blockInduction generalizing loops stop with
  | nil => rfl
  | assign site target value rest ih => simp [blockSpans, nestedSpans, blockInOrder, inOrder, ih]
  | skip site rest ih => simp [blockSpans, nestedSpans, blockInOrder, inOrder, ih]
  | branch site c thens elses rest ihthens ihelses ih =>
    simp [blockSpans, nestedSpans, blockInOrder, inOrder, ih, ihthens, ihelses]
  | loop site enclosing c body rest ihbody ih =>
    simp [blockSpans, nestedSpans, blockInOrder, inOrder, ih, ihbody]

/-- The last statement of a block ends where the block does. -/
theorem span_mem_blockSpans_of_getLast? {loops : List String} {stop : Term} {b : List Statement}
    {s : Statement} (h : b.getLast? = some s) :
    ⟨s.id, s.startTerm loops, stop⟩ ∈ blockSpans loops stop b := by
  induction b with
  | nil => cases h
  | cons t rest ih =>
    cases rest with
    | nil =>
      obtain rfl : t = s := by simpa using h
      exact List.mem_cons_self
    | cons u rest =>
      rw [List.getLast?_cons_cons] at h
      exact List.mem_cons_of_mem _ (List.mem_append_right _ (ih h))

/-- The locations inside a statement, without the one at which it starts. -/
def innerLocations : Statement → List String
  | .branch site _ thens elses =>
    leftEnd site.location :: rightEnd site.location ::
      (blockLocations thens ++ blockLocations elses)
  | .loop _ _ _ body => blockLocations body
  | _ => []

/-- The points of a block are the locations of its statements and what is inside these. -/
theorem mem_blockLocations_iff {name : String} {b : List Statement} :
    name ∈ blockLocations b ↔ name ∈ b.map location ∨ name ∈ b.flatMap innerLocations := by
  induction b with
  | nil => simp
  | cons s rest ih =>
    have hcons : name ∈ blockLocations (s :: rest) ↔
        (name = s.location ∨ name ∈ s.innerLocations) ∨ name ∈ blockLocations rest := by
      cases s <;> simp [innerLocations, location, Statement.site, or_assoc]
    rw [hcons, ih, List.map_cons, List.mem_cons, List.flatMap_cons, List.mem_append]
    tauto

end Statement

/-! ## The terms of the pass -/

/-- A construction for each member of a list succeeds if all of them do. -/
theorem Construction.forall₂_of_each {α β : Type} {make : α → Construction β} {as : List α}
    {bs : List β} (h : (Construction.each make as).outcome = .ok bs) :
    List.Forall₂ (fun a b => (make a).outcome = .ok b) as bs := by
  induction as generalizing bs with
  | nil =>
    cases h
    exact .nil
  | cons a as ih =>
    rw [Construction.each] at h
    simp only [outcome_bind_eq_ok, outcome_pure] at h
    obtain ⟨b, hb, bs, hbs, hcons⟩ := h
    cases hcons
    exact .cons hb (ih hbs)

/-- If every value that a step comes to is known, so are the values for a list. -/
theorem Construction.eq_map_of_each {α β : Type} {make : α → Construction β} {value : α → β}
    (hmake : ∀ {a b}, (make a).outcome = .ok b → b = value a) {as : List α} {bs : List β}
    (h : (Construction.each make as).outcome = .ok bs) : bs = as.map value := by
  have hall := forall₂_of_each h
  clear h
  induction hall with
  | nil => rfl
  | cons hb _ ih => rw [List.map_cons, hmake hb, ih]

namespace Timeline

open Construction Statement

/-- What is built for a location is the term of the location. -/
theorem pointAt_eq_ok {location : String} {loops : List String} {t : Term}
    (h : (pointAt location loops).outcome = .ok t) : t = .point location loops :=
  Term.app?_eq_ok h

/-- What is built for the head of a loop is its term in the iteration that was built. -/
theorem loopHead_eq_ok {location : String} {enclosing loops : List String}
    {iteration : Construction Term} {t : Term}
    (h : (loopHead location enclosing loops iteration).outcome = .ok t) :
    ∃ i, iteration.outcome = .ok i ∧ t = .loopHead location enclosing loops i := by
  simp only [loopHead, outcome_bind_eq_ok] at h
  obtain ⟨f, hf, its, hits, i, hi, ht⟩ := h
  cases hf
  cases hits
  exact ⟨i, hi, Term.app?_eq_ok ht⟩

/-- What is built for the start of a statement is the term of its start. -/
theorem startPoint_eq_ok {loops : List String} {s : Statement} {t : Term}
    (h : (startPoint loops s).outcome = .ok t) : t = s.startTerm loops := by
  cases s with
  | loop site enclosing c body =>
    obtain ⟨i, hi, rfl⟩ := loopHead_eq_ok h
    obtain rfl : i = .zero := Term.app?_eq_ok hi
    rfl
  | assign site target value => exact pointAt_eq_ok h
  | branch site c thens elses => exact pointAt_eq_ok h
  | skip site => exact pointAt_eq_ok h

/-- What is built for the starts of statements are the terms of their starts. -/
theorem startPoints_eq_ok {loops : List String} {b : List Statement} {starts : List Term}
    (h : (each (startPoint loops) b).outcome = .ok starts) :
    starts = b.map (startTerm loops) :=
  eq_map_of_each startPoint_eq_ok h

/-! ## Growing timelines -/

/-- How a timeline grows: spans and locations are added, and all else stays. -/
structure Records (vars : VariableSet) (tl tl' : Timeline) (spans : List Span)
    (names : List String) : Prop where
  starts : ∀ s ∈ spans, tl'.starts.get? s.statement = some s.start
  stops : ∀ s ∈ spans, tl'.stops.get? s.statement = some s.stop
  other_starts : ∀ n ∉ spans.map (·.statement), tl'.starts.get? n = tl.starts.get? n
  other_stops : ∀ n ∉ spans.map (·.statement), tl'.stops.get? n = tl.stops.get? n
  active : ∀ name ∈ names, tl'.active.get? name = some vars
  other_active : ∀ name ∉ names, tl'.active.get? name = tl.active.get? name
  functionEnds : tl'.functionEnds = tl.functionEnds

namespace Records

variable {vars : VariableSet} {tl₁ tl₂ tl₃ : Timeline} {spans spans' : List Span}
  {names names' : List String}

/-- A timeline that stays the same has grown by nothing. -/
theorem refl (vars : VariableSet) (tl : Timeline) : Records vars tl tl [] [] := by
  constructor <;> simp

/-- Later spans do not replace earlier ones if they belong to other statements. -/
theorem trans (h : Records vars tl₁ tl₂ spans names) (h' : Records vars tl₂ tl₃ spans' names')
    (hdisjoint : (spans.map (·.statement)).Disjoint (spans'.map (·.statement))) :
    Records vars tl₁ tl₃ (spans ++ spans') (names ++ names') where
  starts s hs := by
    rcases List.mem_append.mp hs with hs | hs
    · rw [h'.other_starts _ (hdisjoint (List.mem_map_of_mem hs)), h.starts s hs]
    · exact h'.starts s hs
  stops s hs := by
    rcases List.mem_append.mp hs with hs | hs
    · rw [h'.other_stops _ (hdisjoint (List.mem_map_of_mem hs)), h.stops s hs]
    · exact h'.stops s hs
  other_starts n hn := by
    rw [List.map_append, List.mem_append, not_or] at hn
    rw [h'.other_starts n hn.2, h.other_starts n hn.1]
  other_stops n hn := by
    rw [List.map_append, List.mem_append, not_or] at hn
    rw [h'.other_stops n hn.2, h.other_stops n hn.1]
  active name hname := by
    by_cases hlater : name ∈ names'
    · exact h'.active name hlater
    · rw [h'.other_active name hlater]
      exact h.active name ((List.mem_append.mp hname).resolve_right hlater)
  other_active name hname := by
    rw [List.mem_append, not_or] at hname
    rw [h'.other_active name hname.2, h.other_active name hname.1]
  functionEnds := h'.functionEnds.trans h.functionEnds

/-- The order in which locations are added does not matter. -/
theorem of_mem_iff (h : Records vars tl₁ tl₂ spans names)
    (hnames : ∀ name, name ∈ names ↔ name ∈ names') : Records vars tl₁ tl₂ spans names' :=
  { h with
    active := fun name hname => h.active name ((hnames name).mpr hname)
    other_active := fun name hname =>
      h.other_active name (fun hmem => hname ((hnames name).mp hmem)) }

/-- Recording a statement adds its span. -/
theorem locate (vars : VariableSet) (tl : Timeline) (statement : Nat) (start stop : Term) :
    Records vars tl (tl.locate statement start stop) [⟨statement, start, stop⟩] [] := by
  constructor
  · simp [Timeline.locate]
  · simp [Timeline.locate]
  · intro n hn
    exact Table.get?_insert_of_ne _ _ (by simpa using hn)
  · intro n hn
    exact Table.get?_insert_of_ne _ _ (by simpa using hn)
  · simp
  · simp [Timeline.locate]
  · rfl

/-- Recording what matters at a point adds the name of the point. -/
theorem activate (vars : VariableSet) (tl : Timeline) (t : Term) :
    Records vars tl (tl.activate vars t) [] [t.head.name] := by
  constructor
  · simp
  · simp
  · simp [Timeline.activate]
  · simp [Timeline.activate]
  · simp [Timeline.activate]
  · intro name hname
    exact Table.get?_insert_of_ne _ _ (by simpa using hname)
  · rfl

/-- Recording what matters at points adds their names. -/
theorem activateAll (vars : VariableSet) (tl : Timeline) (ts : List Term) :
    Records vars tl (ts.foldl (Timeline.activate · vars ·) tl) [] (ts.map (·.head.name)) := by
  induction ts generalizing tl with
  | nil => exact refl vars tl
  | cons t ts ih => exact (activate vars tl t).trans (ih _) (by simp)

end Records

/-- The term of a statement's start has the statement's location for its name. -/
theorem head_name_startTerm (loops : List String) (s : Statement) :
    (s.startTerm loops).head.name = s.location := by
  cases s <;> rfl

/-- What locating the statements of a block records, when their starts have been activated. -/
def RecordsBlock (vars : VariableSet) (b : List Statement) : Prop :=
  ∀ ⦃loops : List String⦄ ⦃stop : Term⦄ ⦃tl tl' : Timeline⦄,
    ((blockSpans loops stop b).map (·.statement)).Nodup →
    (locateAll vars loops stop tl (b.map (startTerm loops)) b).outcome = .ok tl' →
    Records vars tl tl' (blockSpans loops stop b) (b.flatMap innerLocations)

section

variable {vars : VariableSet} {loops : List String} {tl tl' : Timeline}

/-- The starts of a block's statements are activated before the statements are located. -/
theorem RecordsBlock.activated {b : List Statement} (h : RecordsBlock vars b) {stop : Term}
    {starts : List Term} (hids : ((blockSpans loops stop b).map (·.statement)).Nodup)
    (hstarts : (each (startPoint loops) b).outcome = .ok starts)
    (hlocate : (locateAll vars loops stop (starts.foldl (Timeline.activate · vars ·) tl) starts
      b).outcome = .ok tl') :
    Records vars tl tl' (blockSpans loops stop b) (blockLocations b) := by
  obtain rfl := startPoints_eq_ok hstarts
  have hactivated := Records.activateAll vars tl (b.map (startTerm loops))
  refine (hactivated.trans (h hids hlocate) (by simp)).of_mem_iff fun name => ?_
  rw [mem_blockLocations_iff, List.mem_append, List.map_map]
  simp only [Function.comp_def, head_name_startTerm]

/-- What is recorded for the blocks of a branch. -/
theorem records_branch {site : Site} {c : BoolExpr Variable} {thens elses : List Statement}
    (hthens : RecordsBlock vars thens) (helses : RecordsBlock vars elses)
    (hids : ((nestedSpans loops (.branch site c thens elses)).map (·.statement)).Nodup)
    (hlocate : (locateNested vars loops tl (.branch site c thens elses)).outcome = .ok tl') :
    Records vars tl tl' (nestedSpans loops (.branch site c thens elses))
      (innerLocations (.branch site c thens elses)) := by
  rw [nestedSpans, List.map_append] at hids
  obtain ⟨hleftIds, hrightIds, hdisjoint⟩ := List.nodup_append'.mp hids
  simp only [locateNested, outcome_bind_eq_ok] at hlocate
  obtain ⟨left, hleft, right, hright, thenStarts, hthenStarts, tl₁, htl₁, elseStarts, helseStarts,
    htl'⟩ := hlocate
  obtain rfl := pointAt_eq_ok hleft
  obtain rfl := pointAt_eq_ok hright
  have hends := (Records.activate vars tl (.point (leftEnd site.location) loops)).trans
    (Records.activate vars _ (.point (rightEnd site.location) loops)) (by simp)
  have hthens := hthens.activated hleftIds hthenStarts htl₁
  have helses := helses.activated hrightIds helseStarts htl'
  exact hends.trans (hthens.trans helses hdisjoint) (by simp)

/-- What is recorded for the body of a loop. -/
theorem records_loop {site : Site} {enclosing : List String} {c : BoolExpr Variable}
    {body : List Statement} (hbody : RecordsBlock vars body)
    (hids : ((nestedSpans loops (.loop site enclosing c body)).map (·.statement)).Nodup)
    (hlocate : (locateNested vars loops tl (.loop site enclosing c body)).outcome = .ok tl') :
    Records vars tl tl' (nestedSpans loops (.loop site enclosing c body))
      (innerLocations (.loop site enclosing c body)) := by
  simp only [locateNested, outcome_bind_eq_ok] at hlocate
  obtain ⟨next, hnext, starts, hstarts, htl'⟩ := hlocate
  obtain ⟨i, hi, rfl⟩ := loopHead_eq_ok hnext
  obtain rfl : i = .succ (.iteration site.location) := Term.app?_eq_ok hi
  exact hbody.activated hids hstarts htl'

/-- A statement is located before what is nested in it, and that before the rest of the block. -/
theorem RecordsBlock.cons {s : Statement} {rest : List Statement}
    (hnested : ∀ {loops : List String} {tl tl' : Timeline},
      ((s.nestedSpans loops).map (·.statement)).Nodup →
      (locateNested vars loops tl s).outcome = .ok tl' →
      Records vars tl tl' (s.nestedSpans loops) s.innerLocations)
    (hrest : RecordsBlock vars rest) : RecordsBlock vars (s :: rest) := by
  intro loops stop tl tl' hids hlocate
  rw [blockSpans, List.map_cons, List.map_append, List.nodup_cons] at hids
  obtain ⟨hfresh, hids⟩ := hids
  obtain ⟨hnestedIds, hrestIds, hdisjoint⟩ := List.nodup_append'.mp hids
  rw [List.map_cons, locateAll] at hlocate
  simp only [outcome_bind_eq_ok, headD_map_startTerm] at hlocate
  obtain ⟨tl₁, hinner, hlater⟩ := hlocate
  have hself := Records.locate vars tl s.id (s.startTerm loops) (blockStartTerm loops stop rest)
  have hothers := (hnested hnestedIds hinner).trans (hrest hrestIds hlater) hdisjoint
  exact hself.trans hothers (by simpa using hfresh)

end

/-- Locating a block records the spans of all its statements. -/
theorem recordsBlock (vars : VariableSet) (b : List Statement) : RecordsBlock vars b := by
  induction b using blockInduction with
  | nil =>
    intro loops stop tl tl' _ hlocate
    cases hlocate
    exact .refl vars tl
  | assign site target value rest ih =>
    refine RecordsBlock.cons (fun _ hlocate => ?_) ih
    cases hlocate
    exact .refl vars _
  | skip site rest ih =>
    refine RecordsBlock.cons (fun _ hlocate => ?_) ih
    cases hlocate
    exact .refl vars _
  | branch site c thens elses rest ihthens ihelses ih =>
    exact RecordsBlock.cons (records_branch ihthens ihelses) ih
  | loop site enclosing c body rest ihbody ih =>
    exact RecordsBlock.cons (records_loop ihbody) ih

end Timeline

/-! ## Functions and programs -/

/-- The term of the point at which a function ends. -/
def Function.endTerm (f : Function) : Term := .point (functionEnd f.name) []

/-- The spans of all statements of a function. -/
def Function.spans (f : Function) : List Span := Statement.blockSpans [] f.endTerm f.statements

/-- Whether two functions have no name, statement or location in common. -/
structure Function.Apart (f g : Function) : Prop where
  name : f.name ≠ g.name
  statements : (f.spans.map (·.statement)).Disjoint (g.spans.map (·.statement))
  locations : f.locations.Disjoint g.locations

namespace Timeline

open Construction Statement

/-- What a timeline says about a function. -/
structure Covers (tl : Timeline) (f : Function) : Prop where
  starts : ∀ s ∈ f.spans, tl.starts.get? s.statement = some s.start
  stops : ∀ s ∈ f.spans, tl.stops.get? s.statement = some s.stop
  active : ∀ name ∈ f.locations, tl.active.get? name = some (VariableSet.ofList f.declared)
  functionEnd : tl.functionEnds.get? f.name = some f.endTerm

variable {tl tl' : Timeline} {f g : Function}

/-- What locating a function records. -/
theorem locateFunction_records (hids : (f.spans.map (·.statement)).Nodup)
    (hlocate : (tl.locateFunction f).outcome = .ok tl') :
    ∃ tl₁, Records (.ofList f.declared) tl tl₁ f.spans f.locations ∧
      tl' = { tl₁ with functionEnds := tl₁.functionEnds.insert f.name f.endTerm } := by
  simp only [locateFunction, locateBlock, outcome_bind_eq_ok, outcome_pure] at hlocate
  obtain ⟨stop, hstop, tl₁, ⟨starts, hstarts, hblock⟩, htl'⟩ := hlocate
  obtain rfl := pointAt_eq_ok hstop
  cases htl'
  have hrecords := (recordsBlock (.ofList f.declared) f.statements).activated hids hstarts hblock
  exact ⟨tl₁, (Records.activate _ tl f.endTerm).trans hrecords (by simp), rfl⟩

/-- A function is covered once it has been located. -/
theorem covers_of_locateFunction (hids : (f.spans.map (·.statement)).Nodup)
    (hlocate : (tl.locateFunction f).outcome = .ok tl') : tl'.Covers f := by
  obtain ⟨tl₁, hrecords, rfl⟩ := locateFunction_records hids hlocate
  exact ⟨hrecords.starts, hrecords.stops, hrecords.active, by simp⟩

/-- Locating another function keeps a function covered. -/
theorem Covers.of_locateFunction (h : tl.Covers g) (hapart : g.Apart f)
    (hids : (f.spans.map (·.statement)).Nodup)
    (hlocate : (tl.locateFunction f).outcome = .ok tl') : tl'.Covers g := by
  obtain ⟨tl₁, hrecords, rfl⟩ := locateFunction_records hids hlocate
  constructor
  · intro s hs
    rw [← h.starts s hs]
    exact hrecords.other_starts _ (hapart.statements (List.mem_map_of_mem hs))
  · intro s hs
    rw [← h.stops s hs]
    exact hrecords.other_stops _ (hapart.statements (List.mem_map_of_mem hs))
  · intro name hname
    rw [← h.active name hname]
    exact hrecords.other_active name (hapart.locations hname)
  · rw [← h.functionEnd, ← hrecords.functionEnds]
    exact Table.get?_insert_of_ne _ _ hapart.name

/-- Locating functions one after the other covers all of them, and keeps covered what was. -/
theorem covers_of_locateFunctions {fs : List Function}
    (hids : ∀ f ∈ fs, (f.spans.map (·.statement)).Nodup) (hapart : fs.Pairwise Function.Apart)
    (hlocate : (tl.locateFunctions fs).outcome = .ok tl') :
    (∀ f ∈ fs, tl'.Covers f) ∧ ∀ g, tl.Covers g → (∀ f ∈ fs, g.Apart f) → tl'.Covers g := by
  induction fs generalizing tl with
  | nil =>
    cases hlocate
    exact ⟨by simp, fun g hg _ => hg⟩
  | cons f fs ih =>
    simp only [locateFunctions, outcome_bind_eq_ok] at hlocate
    obtain ⟨tl₁, hfirst, hothers⟩ := hlocate
    obtain ⟨hfirstIds, hids⟩ := List.forall_mem_cons.mp hids
    obtain ⟨hfirstApart, hapart⟩ := List.pairwise_cons.mp hapart
    obtain ⟨hcovers, hkeeps⟩ := ih hids hapart hothers
    have hf := covers_of_locateFunction hfirstIds hfirst
    refine ⟨List.forall_mem_cons.mpr ⟨hkeeps f hf hfirstApart, hcovers⟩, fun g hg hgs => ?_⟩
    obtain ⟨hgf, hgs⟩ := List.forall_mem_cons.mp hgs
    exact hkeeps g (hg.of_locateFunction hgf hfirstIds hfirst) hgs

/-! ## Blocks -/

/-- What a timeline knows about a block, and what holds of the block. -/
structure Knows (tl : Timeline) (vars : List Variable) (loops : List String) (stop : Term)
    (b : List Statement) : Prop where
  formed : BlockFormed vars loops b
  starts : ∀ s ∈ blockSpans loops stop b, tl.starts.get? s.statement = some s.start
  stops : ∀ s ∈ blockSpans loops stop b, tl.stops.get? s.statement = some s.stop
  active : ∀ name ∈ stop.head.name :: blockLocations b,
    tl.active.get? name = some (.ofList vars)
  fresh : (loops ++ blockLocations b).Nodup

/-- A timeline that covers a function knows its statements. -/
theorem Covers.knows (h : tl.Covers f) (hf : f.Formed) (hlocations : f.locations.Nodup) :
    tl.Knows f.declared [] f.endTerm f.statements where
  formed := hf.statements
  starts := h.starts
  stops := h.stops
  active := h.active
  fresh := (List.nodup_cons.mp hlocations).2

namespace Knows

variable {vars : List Variable} {loops : List String} {stop : Term} {s : Statement}
  {b rest : List Statement}

/-- A known block starts where its first statement is recorded to start. -/
theorem first_start (h : tl.Knows vars loops stop (s :: rest)) :
    tl.starts.get? s.id = some (s.startTerm loops) :=
  h.starts _ List.mem_cons_self

/-- The first statement of a known block is recorded to end where the rest starts. -/
theorem first_stop (h : tl.Knows vars loops stop (s :: rest)) :
    tl.stops.get? s.id = some (blockStartTerm loops stop rest) :=
  h.stops _ List.mem_cons_self

/-- The last statement of a block ends where the block does. -/
theorem stop_of_getLast? (h : tl.Knows vars loops stop b) (hs : b.getLast? = some s) :
    tl.stops.get? s.id = some stop :=
  h.stops _ (span_mem_blockSpans_of_getLast? hs)

/-- The variables at the point where a block starts. -/
theorem active_blockStartTerm (h : tl.Knows vars loops stop b) :
    tl.active.get? (blockStartTerm loops stop b).head.name = some (.ofList vars) := by
  cases b with
  | nil => exact h.active _ List.mem_cons_self
  | cons s rest =>
    refine h.active _ (List.mem_cons_of_mem _ (mem_blockLocations_iff.mpr (.inl ?_)))
    rw [blockStartTerm, head_name_startTerm]
    exact List.mem_cons_self

/-- A timeline knows the rest of a block that it knows. -/
theorem of_rest (h : tl.Knows vars loops stop (s :: rest)) : tl.Knows vars loops stop rest where
  formed := h.formed.2
  starts t ht := h.starts t (List.mem_cons_of_mem _ (List.mem_append_right _ ht))
  stops t ht := h.stops t (List.mem_cons_of_mem _ (List.mem_append_right _ ht))
  active name hname := by
    apply h.active
    rw [blockLocations_cons, List.mem_cons, List.mem_append]
    rcases List.mem_cons.mp hname with hname | hname
    · exact .inl hname
    · exact .inr (.inr hname)
  fresh := by
    have hfresh := h.fresh
    rw [blockLocations_cons] at hfresh
    exact hfresh.sublist (List.Sublist.append_left (List.sublist_append_right ..) _)

section

variable {site : Site} {c : BoolExpr Variable} {thens elses body : List Statement}
  {enclosing : List String}

/-- A timeline knows the first block of a branch, which ends at a point of its own. -/
theorem of_thens (h : tl.Knows vars loops stop (.branch site c thens elses :: rest)) :
    tl.Knows vars loops (.point (leftEnd site.location) loops) thens where
  formed := h.formed.1.2.1.2
  starts t ht := h.starts t (by simp [blockSpans, nestedSpans, ht])
  stops t ht := h.stops t (by simp [blockSpans, nestedSpans, ht])
  active name hname := by
    apply h.active
    rcases List.mem_cons.mp hname with rfl | hname
    · simp [Term.point, Term.head, Symbol.location]
    · simp [hname]
  fresh := by
    have hfresh := h.fresh
    rw [blockLocations_branch] at hfresh
    refine hfresh.sublist (List.Sublist.append_left ?_ _)
    exact (List.sublist_append_left ..).trans
      (((List.sublist_cons_self ..).trans (List.sublist_cons_self ..)).trans
        (List.sublist_cons_self ..))

/-- A timeline knows the second block of a branch, which ends at a point of its own. -/
theorem of_elses (h : tl.Knows vars loops stop (.branch site c thens elses :: rest)) :
    tl.Knows vars loops (.point (rightEnd site.location) loops) elses where
  formed := h.formed.1.2.2.2
  starts t ht := h.starts t (by simp [blockSpans, nestedSpans, ht])
  stops t ht := h.stops t (by simp [blockSpans, nestedSpans, ht])
  active name hname := by
    apply h.active
    rcases List.mem_cons.mp hname with rfl | hname
    · simp [Term.point, Term.head, Symbol.location]
    · simp [hname]
  fresh := by
    have hfresh := h.fresh
    rw [blockLocations_branch] at hfresh
    refine hfresh.sublist (List.Sublist.append_left ?_ _)
    exact ((List.sublist_append_left ..).trans (List.sublist_append_right ..)).trans
      (((List.sublist_cons_self ..).trans (List.sublist_cons_self ..)).trans
        (List.sublist_cons_self ..))

/-- A timeline knows the body of a loop, which ends at the head in the next iteration. -/
theorem of_body (h : tl.Knows vars loops stop (.loop site enclosing c body :: rest)) :
    tl.Knows vars (loops ++ [site.location])
      (.loopHead site.location enclosing loops (.succ (.iteration site.location))) body where
  formed := h.formed.1.2.2.2
  starts t ht := h.starts t (by simp [blockSpans, nestedSpans, ht])
  stops t ht := h.stops t (by simp [blockSpans, nestedSpans, ht])
  active name hname := by
    apply h.active
    rcases List.mem_cons.mp hname with rfl | hname
    · simp [Term.loopHead, Term.head, Symbol.loopHead, Symbol.location]
    · simp [hname]
  fresh := by
    have hfresh := h.fresh
    rw [blockLocations_loop, ← List.singleton_append, ← List.append_assoc, ← List.append_assoc]
      at hfresh
    exact hfresh.sublist (List.sublist_append_left ..)

/-- A loop does not stand inside itself. -/
theorem location_not_mem (h : tl.Knows vars loops stop (.loop site enclosing c body :: rest)) :
    site.location ∉ loops := by
  have hfresh := h.fresh
  rw [blockLocations_loop] at hfresh
  intro hmem
  exact (List.nodup_append'.mp hfresh).2.2 hmem List.mem_cons_self

end

end Knows

end Timeline

namespace Program

variable {p : Program}

/-- The functions of a formed program have nothing in common. -/
theorem Formed.apart (hp : p.Formed) :
    (∀ f ∈ p.functions, (f.spans.map (·.statement)).Nodup) ∧
      p.functions.Pairwise Function.Apart := by
  obtain ⟨last, _, hsites⟩ := hp.numbered
  have hids : (p.functions.flatMap (fun f => f.spans.map (·.statement))).Nodup := by
    have hflat : p.functions.flatMap (fun f => f.spans.map (·.statement)) =
        (p.functions.flatMap Function.statementsInOrder).map Statement.id := by
      rw [List.map_flatMap]
      exact List.flatMap_congr fun f _ => Statement.map_statement_blockSpans _ _ _
    have hsplit : Statement.id = Site.id ∘ Statement.site := rfl
    rw [hflat, hsplit, ← List.map_map, hsites, List.map_map]
    exact (List.nodup_range').map fun a b hab => hab
  obtain ⟨hids, hstatements⟩ := List.nodup_flatMap.mp hids
  obtain ⟨_, hlocations⟩ := List.nodup_flatMap.mp hp.locations_nodup
  have hnames := List.pairwise_map.mp hp.functions_nodup
  refine ⟨hids, ((hnames.and hstatements).and hlocations).imp ?_⟩
  rintro f g ⟨⟨hname, hstatements⟩, hlocations⟩
  exact ⟨hname, hstatements, hlocations⟩

/-- The location pass asks for the sorts of the mode and then builds the timeline of the program. -/
theorem locate_eq_ok {mode : TraceMode} {tl : Timeline} {v : Vocabulary} :
    p.locate mode = .ok (tl, v) ↔
      (do mode.prepare; Timeline.ofProgram p : Construction Timeline).run .initial =
        (.ok tl, v) := by
  unfold locate
  split <;> simp_all

/-- The timeline of the location pass is the one that is built for the program. -/
theorem outcome_of_locate {mode : TraceMode} {tl : Timeline} {v : Vocabulary}
    (hlocate : p.locate mode = .ok (tl, v)) : (Timeline.ofProgram p).outcome = .ok tl := by
  obtain ⟨hok, _⟩ := Construction.run_eq_ok.mp (locate_eq_ok.mp hlocate)
  obtain ⟨_, _, hok⟩ := Construction.outcome_bind_eq_ok.mp hok
  exact hok

/-- The timeline of a formed program covers all of its functions. -/
theorem Formed.covers (hp : p.Formed) {mode : TraceMode} {tl : Timeline} {v : Vocabulary}
    (hlocate : p.locate mode = .ok (tl, v)) : ∀ f ∈ p.functions, tl.Covers f :=
  (Timeline.covers_of_locateFunctions hp.apart.1 hp.apart.2 (outcome_of_locate hlocate)).1

end Program

end TraceLogic
