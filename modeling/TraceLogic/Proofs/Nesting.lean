import TraceLogic.Proofs.Clash
import TraceLogic.Proofs.Erasure

/-!
# Where the location pass puts statements

A block of a function stands inside loops and ends at a point of time. `Function.HasBlock` lists the
blocks of a function along its nesting, without the pass. The pass always succeeds on a loaded
program, and what it records is fixed by the blocks: a statement starts at its own location in the
iterations of the loops around it, and ends where the next one of its block starts, or where the
block ends. Nothing else is recorded.
-/

namespace TraceLogic

open Construction Statement Timeline

/-- The blocks of a function, each with the loops around it, the outermost first, and the point at
which it ends. -/
inductive Function.HasBlock (f : Function) : List String → Term → List Statement → Prop
  | top : HasBlock f [] (.point (functionEnd f.name) []) f.statements
  | thens {loops stop b site c thens elses} (hb : HasBlock f loops stop b)
      (hs : .branch site c thens elses ∈ b) :
      HasBlock f loops (.point (leftEnd site.location) loops) thens
  | elses {loops stop b site c thens elses} (hb : HasBlock f loops stop b)
      (hs : .branch site c thens elses ∈ b) :
      HasBlock f loops (.point (rightEnd site.location) loops) elses
  | body {loops stop b site enclosing c body} (hb : HasBlock f loops stop b)
      (hs : .loop site enclosing c body ∈ b) :
      HasBlock f (loops ++ [site.location])
        (.loopHead site.location loops loops (.succ (.iteration site.location))) body

/-- What a statement of a block consists of belongs to the block. -/
theorem Statement.inOrder_subset {b : List Statement} {s : Statement} (hs : s ∈ b) :
    s.inOrder ⊆ blockInOrder b := by
  induction b with
  | nil => cases hs
  | cons t rest ih =>
    rcases List.mem_cons.mp hs with rfl | hs
    · exact List.subset_append_left _ _
    · exact List.Subset.trans (ih hs) (List.subset_append_right _ _)

/-- A statement belongs to itself. -/
theorem Statement.self_mem_inOrder (s : Statement) : s ∈ s.inOrder := by
  cases s <;> exact List.mem_cons_self

/-- What is known about a block is known about what follows some of its statements. -/
theorem Timeline.Knows.of_append {tl : Timeline} {vars : List Variable} {loops : List String}
    {stop : Term} {before b : List Statement} (h : tl.Knows vars loops stop (before ++ b)) :
    tl.Knows vars loops stop b := by
  induction before with
  | nil => exact h
  | cons s before ih => exact ih h.of_rest

namespace Function.HasBlock

variable {f : Function} {tl : Timeline} {loops : List String} {stop : Term} {b : List Statement}
  {s : Statement}

/-- A timeline that knows the statements of a function knows all blocks of the function. -/
theorem knows (hb : f.HasBlock loops stop b)
    (hk : tl.Knows f.declared [] f.endTerm f.statements) : tl.Knows f.declared loops stop b := by
  induction hb with
  | top => exact hk
  | thens _ hs ih =>
    obtain ⟨before, after, rfl⟩ := List.append_of_mem hs
    exact ih.of_append.of_thens
  | elses _ hs ih =>
    obtain ⟨before, after, rfl⟩ := List.append_of_mem hs
    exact ih.of_append.of_elses
  | body _ hs ih =>
    obtain ⟨before, after, rfl⟩ := List.append_of_mem hs
    obtain ⟨hnamed, _⟩ := ih.of_append.formed.1
    have hbody := ih.of_append.of_body
    rwa [hnamed] at hbody

/-- The statements of a block of a function are statements of the function. -/
theorem inOrder_subset (hb : f.HasBlock loops stop b) :
    blockInOrder b ⊆ f.statementsInOrder := by
  induction hb with
  | top => exact List.Subset.refl _
  | thens _ hs ih =>
    refine List.Subset.trans ?_ (List.Subset.trans (Statement.inOrder_subset hs) ih)
    exact List.subset_cons_of_subset _ (List.subset_append_left _ _)
  | elses _ hs ih =>
    refine List.Subset.trans ?_ (List.Subset.trans (Statement.inOrder_subset hs) ih)
    exact List.subset_cons_of_subset _ (List.subset_append_right _ _)
  | body _ hs ih =>
    refine List.Subset.trans ?_ (List.Subset.trans (Statement.inOrder_subset hs) ih)
    exact List.subset_cons_self _ _

/-- A statement within a block stands in a block inside the loops that are passed on the way. -/
theorem exists_of_within (hb : f.HasBlock loops stop b) {inner : List String}
    (hs : Within b inner s) : ∃ stop' b', f.HasBlock (loops ++ inner) stop' b' ∧ s ∈ b' := by
  induction hs generalizing loops stop with
  | here hs => exact ⟨stop, _, by rwa [List.append_nil], hs⟩
  | branch hbranch harm _ ih =>
    rcases harm with rfl | rfl
    · exact ih (hb.thens hbranch)
    · exact ih (hb.elses hbranch)
  | loop hloop _ ih =>
    rw [List.append_cons]
    exact ih (hb.body hloop)

end Function.HasBlock

/-- The statements of a function are those of its blocks. -/
theorem Function.mem_statementsInOrder_iff {f : Function} {s : Statement} :
    s ∈ f.statementsInOrder ↔ ∃ loops stop b, f.HasBlock loops stop b ∧ s ∈ b := by
  constructor
  · intro hs
    obtain ⟨loops, hwithin⟩ := exists_within hs
    obtain ⟨stop, b, hb, hs⟩ := HasBlock.top.exists_of_within hwithin
    exact ⟨_, stop, b, hb, hs⟩
  · rintro ⟨loops, stop, b, hb, hs⟩
    exact hb.inOrder_subset (Statement.inOrder_subset hs s.self_mem_inOrder)

/-- The spans of a function belong to its statements. -/
theorem Function.mem_spans_iff (f : Function) {id : Nat} :
    id ∈ f.spans.map (·.statement) ↔ ∃ s ∈ f.statementsInOrder, s.id = id := by
  rw [Function.spans, map_statement_blockSpans]
  exact List.mem_map

/-- A table has an entry for each statement of a program, if it has one for each span of the
functions and none for other numbers. -/
theorem Program.isSome_get?_iff {p : Program} {table : Table Nat Term}
    (hspans : ∀ f ∈ p.functions, ∀ span ∈ f.spans, (table.get? span.statement).isSome = true)
    (hothers : ∀ id, (∀ f ∈ p.functions, id ∉ f.spans.map (·.statement)) → table.get? id = none)
    (id : Nat) : (table.get? id).isSome = true ↔
      ∃ f ∈ p.functions, ∃ s ∈ f.statementsInOrder, s.id = id := by
  constructor
  · intro hid
    by_contra hnone
    rw [hothers id fun f hf hspan => hnone ⟨f, hf, f.mem_spans_iff.mp hspan⟩] at hid
    cases hid
  · rintro ⟨f, hf, hid⟩
    obtain ⟨span, hspan, rfl⟩ := List.mem_map.mp (f.mem_spans_iff.mpr hid)
    exact hspans f hf span hspan

namespace Timeline

variable {tl tl' : Timeline} {p : Program} {f : Function}

/-- Whether a statement of a function starts or ends at a point, or the function ends there. -/
def PointOf (tl : Timeline) (f : Function) (t : Term) : Prop :=
  (∃ s ∈ f.statementsInOrder, tl.starts.get? s.id = some t ∨ tl.stops.get? s.id = some t) ∨
    tl.functionEnds.get? f.name = some t

/-- Whether a timeline tells when the statements of the functions of a program start and end, and
nothing else. -/
structure Chains (tl : Timeline) (p : Program) : Prop where
  starts_iff : ∀ id, (tl.starts.get? id).isSome = true ↔
    ∃ f ∈ p.functions, ∃ s ∈ f.statementsInOrder, s.id = id
  stops_iff : ∀ id, (tl.stops.get? id).isSome = true ↔
    ∃ f ∈ p.functions, ∃ s ∈ f.statementsInOrder, s.id = id
  /-- A statement that is no loop starts at its location. -/
  start : ∀ f ∈ p.functions, ∀ loops stop b, f.HasBlock loops stop b → ∀ s ∈ b, s.ownLoops = [] →
    tl.starts.get? s.id = some (.point s.location loops)
  /-- A loop starts at its head in the first iteration. -/
  loopStart : ∀ f ∈ p.functions, ∀ loops stop b, f.HasBlock loops stop b →
    ∀ site enclosing c body, .loop site enclosing c body ∈ b →
      tl.starts.get? site.id = some (.loopHead site.location loops loops .zero)
  /-- A statement ends where the next one of its block starts. -/
  next : ∀ f ∈ p.functions, ∀ loops stop before s t after,
    f.HasBlock loops stop (before ++ s :: t :: after) →
      tl.stops.get? s.id = tl.starts.get? t.id
  /-- The last statement of a block ends where the block does. -/
  last : ∀ f ∈ p.functions, ∀ loops stop before s, f.HasBlock loops stop (before ++ [s]) →
    tl.stops.get? s.id = some stop
  /-- All variables of a function matter at all of its points. -/
  active_iff : ∀ name vars, tl.active.get? name = some vars ↔
    ∃ f ∈ p.functions, vars = .ofList f.declared ∧ ∃ t, tl.PointOf f t ∧ t.head.name = name
  functionEnds_iff : ∀ name t, tl.functionEnds.get? name = some t ↔
    ∃ f ∈ p.functions, f.name = name ∧ t = .point (functionEnd f.name) []

/-- Locating functions leaves everything else as it was. -/
theorem locateFunctions_others {fs : List Function}
    (hids : ∀ f ∈ fs, (f.spans.map (·.statement)).Nodup)
    (hlocate : (tl.locateFunctions fs).outcome = .ok tl') :
    (∀ id, (∀ f ∈ fs, id ∉ f.spans.map (·.statement)) →
      tl'.starts.get? id = tl.starts.get? id ∧ tl'.stops.get? id = tl.stops.get? id) ∧
    (∀ name, (∀ f ∈ fs, name ∉ f.locations) → tl'.active.get? name = tl.active.get? name) ∧
    ∀ name, (∀ f ∈ fs, f.name ≠ name) → tl'.functionEnds.get? name = tl.functionEnds.get? name := by
  induction fs generalizing tl with
  | nil =>
    cases hlocate
    simp
  | cons f fs ih =>
    simp only [locateFunctions, outcome_bind_eq_ok] at hlocate
    obtain ⟨tl₁, hfirst, hothers⟩ := hlocate
    simp only [List.forall_mem_cons] at hids ⊢
    obtain ⟨hspans, hactive, hends⟩ := ih hids.2 hothers
    obtain ⟨tl₀, hrecords, rfl⟩ := locateFunction_records hids.1 hfirst
    refine ⟨?_, ?_, ?_⟩
    · rintro id ⟨hid, hlater⟩
      rw [(hspans id hlater).1, (hspans id hlater).2]
      exact ⟨hrecords.other_starts id hid, hrecords.other_stops id hid⟩
    · rintro name ⟨hname, hlater⟩
      rw [hactive name hlater]
      exact hrecords.other_active name hname
    · rintro name ⟨hname, hlater⟩
      rw [hends name hlater, ← hrecords.functionEnds]
      exact Table.get?_insert_of_ne _ _ hname.symm

end Timeline

namespace Program.Formed

variable {p : Program} (hp : p.Formed) {mode : TraceMode} {tl : Timeline} {v : Vocabulary}

include hp

/-- The statements of a formed program can be located. Only points and operations are asked for, and
their names do not clash. -/
theorem exists_locate (mode : TraceMode) : ∃ tl v, p.locate mode = .ok (tl, v) := by
  have huniform : Uniform (fun n => n.Of p.places [] [])
      (fun mode => (do mode.prepare; ofProgram p : Construction Timeline)) (fun _ => True) := by
    refine .bind uniform_prepare fun _ _ => ?_
    refine uniform_locateFunctions hp.functions (fun f hf n hn => ?_) {}
    exact hn.mono (fun _ hplace => List.mem_flatMap.mpr ⟨f, hf, hplace⟩) (List.Subset.refl _)
      (List.Subset.refl _)
  obtain ⟨notions, hnotions, hlocate⟩ := huniform
  obtain ⟨⟨hsymbols, _⟩, tl, htl, _⟩ := hlocate mode
  have hprogram {n : Notion} (hn : n.Of p.places [] []) : n.OfProgram p :=
    hn.mono (List.Subset.refl _) (List.nil_subset _) (List.nil_subset _)
  have hcoherent : Coherent (notions.map (Notion.symbol mode)) := by
    simp only [Coherent, List.forall_mem_map]
    intro n hn m hm hname
    have hn := hnotions n hn
    have hm := hnotions m hm
    rcases Notion.symbol_eq_or_variable hp (hprogram hn) (hprogram hm) hname with
      heq | ⟨x, _, rfl, _⟩ | ⟨x, _, rfl, _⟩ | ⟨x, _, _, rfl⟩
    · exact heq
    · cases hn
    · cases hn
    · cases hm
  obtain ⟨tl, v, hrun⟩ := (run_initial_eq_ok_iff htl).mpr (hsymbols ▸ hcoherent)
  exact ⟨tl, v, locate_eq_ok.mpr hrun⟩

/-- The timeline of a formed program knows all blocks of its functions. -/
theorem knows_block (hlocate : p.locate mode = .ok (tl, v)) {f : Function} (hf : f ∈ p.functions)
    {loops : List String} {stop : Term} {b : List Statement} (hb : f.HasBlock loops stop b) :
    tl.Knows f.declared loops stop b :=
  hb.knows ((hp.covers hlocate f hf).knows (hp.functions f hf) (hp.function_locations_nodup hf))

/-- The variables that matter at the points of a function. -/
theorem active_of_pointOf (hlocate : p.locate mode = .ok (tl, v)) {f : Function}
    (hf : f ∈ p.functions) {t : Term} (ht : tl.PointOf f t) :
    tl.active.get? t.head.name = some (.ofList f.declared) := by
  have hcovers := hp.covers hlocate f hf
  rcases ht with ⟨s, hs, ht⟩ | ht
  · obtain ⟨loops, stop, b, hb, hs⟩ := Function.mem_statementsInOrder_iff.mp hs
    obtain ⟨before, after, rfl⟩ := List.append_of_mem hs
    have hk := (hp.knows_block hlocate hf hb).of_append
    rcases ht with ht | ht
    · obtain rfl := Option.some.inj (hk.first_start.symm.trans ht)
      exact hk.active_blockStartTerm
    · obtain rfl := Option.some.inj (hk.first_stop.symm.trans ht)
      exact hk.of_rest.active_blockStartTerm
  · obtain rfl := Option.some.inj (hcovers.functionEnd.symm.trans ht)
    exact hcovers.active _ List.mem_cons_self

/-- Every location of a function belongs to one of its points. -/
theorem exists_pointOf (hlocate : p.locate mode = .ok (tl, v)) {f : Function}
    (hf : f ∈ p.functions) {name : String} (hname : name ∈ f.locations) :
    ∃ t, tl.PointOf f t ∧ t.head.name = name := by
  rcases List.mem_cons.mp hname with rfl | hname
  · exact ⟨f.endTerm, .inr (hp.covers hlocate f hf).functionEnd, rfl⟩
  obtain ⟨s, hs, hname⟩ := List.mem_flatMap.mp hname
  obtain ⟨loops, stop, b, hb, hmem⟩ := Function.mem_statementsInOrder_iff.mp hs
  have hstart : ∃ t, tl.PointOf f t ∧ t.head.name = s.location := by
    obtain ⟨before, after, rfl⟩ := List.append_of_mem hmem
    have hk := (hp.knows_block hlocate hf hb).of_append
    exact ⟨_, .inl ⟨s, hs, .inl hk.first_start⟩, head_name_startTerm loops s⟩
  -- the end of a nested block is where its last statement ends
  have hend {loops : List String} {stop : Term} {arm : List Statement}
      (harm : f.HasBlock loops stop arm) (hne : arm ≠ []) : tl.PointOf f stop := by
    have hlast := List.getLast?_eq_some_getLast hne
    refine .inl ⟨arm.getLast hne, Function.mem_statementsInOrder_iff.mpr
      ⟨_, _, arm, harm, List.getLast_mem hne⟩, .inr ?_⟩
    exact (hp.knows_block hlocate hf harm).stop_of_getLast? hlast
  cases s with
  | branch site c thens elses =>
    obtain ⟨_, ⟨hthens, _⟩, helses, _⟩ := (hp.knows_block hlocate hf hb).formed.mem hmem
    rcases mem_ownLocations hname with rfl | rfl | rfl
    · exact hstart
    · exact ⟨_, hend (hb.thens hmem) hthens, rfl⟩
    · exact ⟨_, hend (hb.elses hmem) helses, rfl⟩
  | assign site target value => exact List.mem_singleton.mp hname ▸ hstart
  | loop site enclosing c body => exact List.mem_singleton.mp hname ▸ hstart
  | skip site => exact List.mem_singleton.mp hname ▸ hstart

/-- What matters at a name are the variables of the function that has a point of this name, and
nothing is recorded at other names. -/
theorem active_iff (hlocate : p.locate mode = .ok (tl, v)) (name : String) (vars : VariableSet) :
    tl.active.get? name = some vars ↔
      ∃ f ∈ p.functions, vars = .ofList f.declared ∧ ∃ t, tl.PointOf f t ∧ t.head.name = name := by
  constructor
  · intro hvars
    by_cases hname : ∃ f ∈ p.functions, name ∈ f.locations
    · obtain ⟨f, hf, hname⟩ := hname
      rw [(hp.covers hlocate f hf).active name hname] at hvars
      exact ⟨f, hf, (Option.some.inj hvars).symm, hp.exists_pointOf hlocate hf hname⟩
    · obtain ⟨_, hothers, _⟩ := locateFunctions_others hp.apart.1 (outcome_of_locate hlocate)
      rw [hothers name fun f hf hmem => hname ⟨f, hf, hmem⟩] at hvars
      cases hvars
  · rintro ⟨f, hf, rfl, t, ht, rfl⟩
    exact hp.active_of_pointOf hlocate hf ht

/-- The ends that are recorded are those of the functions. -/
theorem functionEnds_iff (hlocate : p.locate mode = .ok (tl, v)) (name : String) (t : Term) :
    tl.functionEnds.get? name = some t ↔
      ∃ f ∈ p.functions, f.name = name ∧ t = .point (functionEnd f.name) [] := by
  constructor
  · intro ht
    by_cases hname : ∃ f ∈ p.functions, f.name = name
    · obtain ⟨f, hf, rfl⟩ := hname
      have hend := (hp.covers hlocate f hf).functionEnd
      exact ⟨f, hf, rfl, (Option.some.inj (hend.symm.trans ht)).symm⟩
    · obtain ⟨_, _, hothers⟩ := locateFunctions_others hp.apart.1 (outcome_of_locate hlocate)
      rw [hothers name fun f hf heq => hname ⟨f, hf, heq⟩] at ht
      cases ht
  · rintro ⟨f, hf, rfl, rfl⟩
    exact (hp.covers hlocate f hf).functionEnd

/-- The location pass records the points of all statements and nothing else. -/
theorem chains (hlocate : p.locate mode = .ok (tl, v)) : tl.Chains p := by
  obtain ⟨hothers, _⟩ := locateFunctions_others hp.apart.1 (outcome_of_locate hlocate)
  have hcovers := hp.covers hlocate
  -- what is known of a block is known of its statements from any one of them on
  have hrest {f : Function} (hf : f ∈ p.functions) {loops : List String} {stop : Term}
      {before b : List Statement} (hb : f.HasBlock loops stop (before ++ b)) :=
    (hp.knows_block hlocate hf hb).of_append
  refine ⟨?_, ?_, ?_, ?_, ?_, ?_, hp.active_iff hlocate, hp.functionEnds_iff hlocate⟩
  · refine isSome_get?_iff (fun f hf span hspan => ?_) fun id hid => (hothers id hid).1
    rw [(hcovers f hf).starts span hspan, Option.isSome_some]
  · refine isSome_get?_iff (fun f hf span hspan => ?_) fun id hid => (hothers id hid).2
    rw [(hcovers f hf).stops span hspan, Option.isSome_some]
  · intro f hf loops stop b hb s hs hloop
    obtain ⟨before, after, rfl⟩ := List.append_of_mem hs
    rw [(hrest hf hb).first_start]
    cases s with
    | loop site enclosing c body => cases hloop
    | assign site target value => rfl
    | branch site c thens elses => rfl
    | skip site => rfl
  · intro f hf loops stop b hb site enclosing c body hs
    obtain ⟨before, after, rfl⟩ := List.append_of_mem hs
    have hstart : tl.starts.get? site.id = _ := (hrest hf hb).first_start
    obtain ⟨rfl, _⟩ := (hrest hf hb).formed.1
    exact hstart
  · intro f hf loops stop before s t after hb
    rw [(hrest hf hb).first_stop, (hrest hf hb).of_rest.first_start]
    rfl
  · intro f hf loops stop before s hb
    exact (hrest hf hb).first_stop

end Program.Formed

namespace Program

/-- The statements of a loaded program can be located from the initial vocabulary, and the timeline
has the points that their blocks give them. Every statement stands in a block. -/
theorem chains_of_load {source : String} {p : Program} (hload : load source = .ok p)
    (mode : TraceMode) :
    (∃ tl v, p.locate mode = .ok (tl, v) ∧ tl.Chains p) ∧
      ∀ f ∈ p.functions, ∀ s,
        s ∈ f.statementsInOrder ↔ ∃ loops stop b, f.HasBlock loops stop b ∧ s ∈ b := by
  have hp := formed_of_load hload
  obtain ⟨tl, v, hlocate⟩ := hp.exists_locate mode
  exact ⟨⟨tl, v, hlocate, hp.chains hlocate⟩, fun f _ s => f.mem_statementsInOrder_iff⟩

/-- The inner loop stands in the second block of a branch inside the outer loop. -/
theorem chains_nestedProgram : load nestedSource = .ok nestedProgram ∧
    ∃ tl v, nestedProgram.locate .two = .ok (tl, v) ∧ tl.Chains nestedProgram ∧
      tl.starts.get? 4 = some (.loopHead "l4" ["l1"] ["l1"] .zero) ∧
      tl.stops.get? 4 = some (.point "l2_right_end" ["l1"]) ∧
      tl.stops.get? 5 = some (.loopHead "l4" ["l1"] ["l1"] (.succ (.iteration "l4"))) := by
  obtain ⟨⟨tl, v, hlocate, hchains⟩, _⟩ := chains_of_load load_nestedSource .two
  have helses := (Function.HasBlock.top (f := nestedProgram.functions[0])).body
    List.mem_cons_self |>.elses List.mem_cons_self
  have hstart := hchains.loopStart _ List.mem_cons_self _ _ _ helses _ _ _ _ List.mem_cons_self
  have hstop := hchains.last _ List.mem_cons_self _ _ [] _ helses
  have hinner := hchains.last _ List.mem_cons_self _ _ [] _ (helses.body List.mem_cons_self)
  exact ⟨load_nestedSource, tl, v, hlocate, hchains, hstart, hstop, hinner⟩

end Program

end TraceLogic
