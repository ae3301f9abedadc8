import TraceLogic.Proofs.Clash
import Mathlib.Data.List.Dedup
import Mathlib.Data.List.DropRight
import Mathlib.Data.List.Flatten

/-!
# Names of the solver text

The text of a problem declares variables, locations and last iterations, binds positions, traces and
iterations, uses the symbols of the datatype of iterations and names its assertions. No two of these
names are equal. A name without the number at its end is its stem, and the stems tell apart what is
made up; the ends of branches and functions are told by their ending, and variables by the check of
their names.
-/

namespace TraceLogic

open Identifier Description.Scope

/-- A name without the digits at its end. -/
def stemOf (name : String) : String := .ofList (name.toList.rdropWhile Char.isDigit)

/-- The name of an assertion. -/
def assertionName (stem : String) (i : Nat) : String := stem ++ i.repr

/-- Digits at the end do not count for the stem. -/
theorem stemOf_append_repr (text : String) (n : Nat) : stemOf (text ++ n.repr) = stemOf text := by
  have hdigits : ∀ c ∈ (Nat.toDigits 10 n).reverse, c.isDigit = true := by
    intro c hc
    exact Nat.isDigit_of_mem_toDigits (by decide) (by decide) (List.mem_reverse.mp hc)
  rw [stemOf, stemOf, String.toList_append, Nat.toList_repr, List.rdropWhile, List.rdropWhile,
    List.reverse_append, List.dropWhile_append_of_pos hdigits]

/-- What ends in a letter has no digits at its end. -/
theorem stemOf_append_end (text : String) : stemOf (text ++ "_end") = text ++ "_end" := by
  have hend : (text ++ "_end").toList = text.toList ++ ['_', 'e', 'n'] ++ ['d'] := by simp
  rw [stemOf, hend, List.rdropWhile_concat_neg _ _ _ (by decide), ← hend, String.ofList_toList]

/-- Different numbers have different numerals. -/
theorem repr_injective {m n : Nat} (h : m.repr = n.repr) : m = n := by
  have htext := congrArg String.toList h
  rw [Nat.toList_repr, Nat.toList_repr] at htext
  exact toDigits_injective htext

/-- Whether names are different, and have the given stems. -/
structure Apart (stems names : List String) : Prop where
  nodup : names.Nodup
  stemOf_mem : ∀ name ∈ names, stemOf name ∈ stems

namespace Apart

variable {stems stems' names names' : List String}

/-- Names with different stems are different. -/
theorem append (h : Apart stems names) (h' : Apart stems' names')
    (hstems : ∀ stem ∈ stems, stem ∉ stems') : Apart (stems ++ stems') (names ++ names') := by
  constructor
  · rw [List.nodup_append]
    refine ⟨h.nodup, h'.nodup, ?_⟩
    rintro name hname _ hname' rfl
    exact hstems _ (h.stemOf_mem name hname) (h'.stemOf_mem name hname')
  · intro name hname
    rcases List.mem_append.mp hname with hname | hname
    · exact List.mem_append_left _ (h.stemOf_mem name hname)
    · exact List.mem_append_right _ (h'.stemOf_mem name hname)

/-- Numbered names with one stem. -/
theorem numbered {stem : String} (hstem : stemOf stem = stem) {numbers : List Nat}
    (hnumbers : numbers.Nodup) : Apart [stem] (numbers.map fun n => stem ++ n.repr) := by
  constructor
  · refine hnumbers.map fun m n h => repr_injective ?_
    have htext := congrArg String.toList h
    simp only [String.toList_append, List.append_cancel_left_eq] at htext
    exact String.toList_injective htext
  · intro name hname
    obtain ⟨n, _, rfl⟩ := List.mem_map.mp hname
    rw [stemOf_append_repr, hstem]
    exact List.mem_cons_self

end Apart

namespace Program

/-- The variables that a problem binds. -/
def binders (p : Program) : List Symbol :=
  [Symbol.position, Symbol.trace] ++ p.loops.map Symbol.iteration

/-- The names that are made up for a program, those of its locations apart. The last ones are those
of the first assertions of each kind. -/
def madeUpNames (p : Program) (assertions : Nat) : List String :=
  p.loops.map lastName ++ (p.binders.map (·.name) ++
    ([Interpreted.zeroSymbol, Interpreted.succSymbol, Interpreted.predSymbol,
        Interpreted.beforeSymbol].map Symbol.printedName ++
      ((List.range assertions).map (assertionName "axiom") ++
        (List.range assertions).map (assertionName "lemma"))))

/-- The names in the solver text of a program: of its variables, of the points at which its
statements start and its branches and functions end, and those that are made up otherwise. -/
def solverNames (p : Program) (assertions : Nat) : List String :=
  (p.declared.map (·.name)).dedup ++ (p.locations ++ p.madeUpNames assertions)

/-- The stems of the names that are made up, those of locations apart. -/
def madeUpStems : List String :=
  ["n_l"] ++ (["pos", "tr"] ++ ["It_l"] ++ (["zero", "s", "p", "Sub"] ++ (["axiom"] ++ ["lemma"])))

namespace Formed

variable {p : Program} (hp : p.Formed)

include hp

/-- The loops of a program have different numbers. -/
theorem exists_loop_numbers :
    ∃ numbers : List Nat, numbers.Nodup ∧ p.loops = numbers.map fun n => (siteOf n).location := by
  obtain ⟨last, _, hsites⟩ := hp.numbered
  have hown (s : Statement) : s.ownLoops.Sublist [s.location] := by
    cases s with
    | loop site enclosing c body => exact List.Sublist.refl _
    | assign site target value => exact List.nil_sublist _
    | branch site c thens elses => exact List.nil_sublist _
    | skip site => exact List.nil_sublist _
  have hlocations : (p.functions.flatMap Function.statementsInOrder).map Statement.location =
      (List.range' (0 + 1) (last - 0)).map fun n => (siteOf n).location := by
    have hlocation : Statement.location = Site.location ∘ Statement.site := rfl
    rw [hlocation, ← List.map_map, hsites, List.map_map]
    rfl
  have hloops : p.loops.Sublist
      ((p.functions.flatMap Function.statementsInOrder).map Statement.location) := by
    have hflat : p.loops =
        (p.functions.flatMap Function.statementsInOrder).flatMap Statement.ownLoops := by
      rw [List.flatMap_assoc]
      rfl
    rw [hflat, ← List.flatMap_pure_eq_map]
    exact List.Sublist.flatMap_right _ fun s _ => hown s
  rw [hlocations] at hloops
  obtain ⟨numbers, hnumbers, heq⟩ := List.sublist_map_iff.mp hloops
  exact ⟨numbers, (List.nodup_range').sublist hnumbers, heq⟩

/-- The last iterations of loops have different names. -/
theorem apart_lastNames : Apart ["n_l"] (p.loops.map lastName) := by
  obtain ⟨numbers, hnumbers, hloops⟩ := hp.exists_loop_numbers
  have hnames : p.loops.map lastName = numbers.map fun n => "n_l" ++ n.repr := by
    rw [hloops, List.map_map]
    refine List.map_congr_left fun n _ => ?_
    simp [lastName, siteOf, ← String.append_assoc]
  rw [hnames]
  exact .numbered (by decide) hnumbers

/-- The variables that a problem binds have different names. -/
theorem apart_binders : Apart (["pos", "tr"] ++ ["It_l"]) (p.binders.map (·.name)) := by
  obtain ⟨numbers, hnumbers, hloops⟩ := hp.exists_loop_numbers
  have hiterations : Apart ["It_l"] ((p.loops.map Symbol.iteration).map (·.name)) := by
    have hnames : (p.loops.map Symbol.iteration).map (·.name) =
        numbers.map fun n => "It_l" ++ n.repr := by
      rw [hloops, List.map_map, List.map_map]
      refine List.map_congr_left fun n _ => ?_
      simp [Symbol.iteration, Symbol.bound, siteOf, ← String.append_assoc]
    rw [hnames]
    exact .numbered (by decide) hnumbers
  rw [binders, List.map_append]
  exact Apart.append ⟨by decide, by decide⟩ hiterations (by decide)

/-- The names that are made up for a program are different. -/
theorem apart_madeUpNames (assertions : Nat) : Apart madeUpStems (p.madeUpNames assertions) := by
  have htime : Apart ["zero", "s", "p", "Sub"] ([Interpreted.zeroSymbol, Interpreted.succSymbol,
      Interpreted.predSymbol, Interpreted.beforeSymbol].map Symbol.printedName) :=
    ⟨by decide, by decide⟩
  have haxioms : Apart ["axiom"] ((List.range assertions).map (assertionName "axiom")) :=
    .numbered (by decide) List.nodup_range
  have hlemmas : Apart ["lemma"] ((List.range assertions).map (assertionName "lemma")) :=
    .numbered (by decide) List.nodup_range
  have hassertions := haxioms.append hlemmas (by decide)
  have hrest := hp.apart_binders.append (htime.append hassertions (by decide)) (by decide)
  exact hp.apart_lastNames.append hrest (by decide)

/-- A location has none of the stems of other names that are made up. -/
theorem stemOf_not_mem_of_mem_locations {name : String} (h : name ∈ p.locations) :
    stemOf name ∉ madeUpStems := by
  have hends : ∀ stem ∈ madeUpStems, beforeEnding? "_end".toList stem.toList = none := by decide
  have hend (text : String) : stemOf (text ++ "_end") ∉ madeUpStems := by
    intro hmem
    have hnone := hends _ hmem
    rw [stemOf_append_end, String.toList_append, beforeEnding?_append] at hnone
    cases hnone
  obtain ⟨f, hf, hname⟩ := List.mem_flatMap.mp h
  rcases List.mem_cons.mp hname with rfl | hname
  · exact hend f.name
  · obtain ⟨s, hs, hname⟩ := List.mem_flatMap.mp hname
    obtain ⟨n, hsite⟩ := hp.exists_site_eq hf hs
    rcases mem_ownLocations hname with rfl | rfl | rfl
    · rw [Statement.location, hsite, siteOf, stemOf_append_repr]
      decide
    · have hsplit : Timeline.leftEnd s.location = (s.location ++ "_left") ++ "_end" := by
        rw [String.append_assoc]
        rfl
      exact hsplit ▸ hend _
    · have hsplit : Timeline.rightEnd s.location = (s.location ++ "_right") ++ "_end" := by
        rw [String.append_assoc]
        rfl
      exact hsplit ▸ hend _

/-- No variable is accepted under a name that is made up. -/
theorem not_mem_madeUpNames {x : Variable} (hx : x ∈ p.declared) (assertions : Nat) :
    x.name ∉ p.madeUpNames assertions := by
  obtain ⟨f, hf, hx⟩ := List.mem_flatMap.mp hx
  obtain ⟨_, _, htime, ⟨hposition, htrace, hiteration⟩, ⟨hlocation, _⟩, haxiom, hlemma⟩ :=
    checkVariable_eq_ok_iff.mp (hp.variable_accepted f hf x hx)
  -- each kind of made-up name is refused by a check of its own
  have hassertion (stem : String) (hfresh : isNumbered stem.toList x.name.toList = false) :
      x.name ∉ (List.range assertions).map (assertionName stem) := by
    intro hmem
    obtain ⟨i, _, heq⟩ := List.mem_map.mp hmem
    rw [← heq, assertionName, String.toList_append, Nat.toList_repr,
      isNumbered_append_toDigits] at hfresh
    cases hfresh
  have hloop : x.name ∉ p.loops.map lastName := by
    intro hmem
    obtain ⟨loop, hloop, heq⟩ := List.mem_map.mp hmem
    obtain ⟨n, rfl⟩ := hp.exists_eq_siteOf_of_mem_loops hloop
    rw [← heq, isLocationName_lastName] at hlocation
    cases hlocation
  have hbinder : x.name ∉ p.binders.map (·.name) := by
    intro hmem
    rw [binders, List.map_append, List.mem_append] at hmem
    rcases hmem with hmem | hmem
    · simp only [List.map_cons, List.map_nil, List.mem_cons, List.not_mem_nil, or_false] at hmem
      exact hmem.elim hposition htrace
    · obtain ⟨s, hs, heq⟩ := List.mem_map.mp hmem
      obtain ⟨loop, _, rfl⟩ := List.mem_map.mp hs
      rw [← heq, show (Symbol.iteration loop).name = "It_" ++ loop from rfl, String.toList_append,
        afterLead?_append] at hiteration
      cases hiteration
  simp only [madeUpNames, List.mem_append, not_or]
  exact ⟨hloop, hbinder, htime, hassertion "axiom" haxiom, hassertion "lemma" hlemma⟩

/-- No two names of the solver text are equal. -/
theorem solverNames_nodup (assertions : Nat) : (p.solverNames assertions).Nodup := by
  have hmadeUp := hp.apart_madeUpNames assertions
  rw [solverNames, List.nodup_append, List.nodup_append]
  refine ⟨List.nodup_dedup _, ⟨hp.locations_nodup, hmadeUp.nodup, ?_⟩, ?_⟩
  · rintro name hlocation _ hname rfl
    exact hp.stemOf_not_mem_of_mem_locations hlocation (hmadeUp.stemOf_mem name hname)
  · rintro name hvariable _ hname rfl
    obtain ⟨x, hx, rfl⟩ := List.mem_map.mp (List.mem_dedup.mp hvariable)
    rcases List.mem_append.mp hname with hname | hname
    · have hpoint := (hp.isPointName_of_mem_locations hname).1
      exact (hp.not_isPointName_of_mem_declared hx).1 hpoint
    · exact hp.not_mem_madeUpNames hx assertions hname

/-- Two points of a program have different symbols. -/
theorem places_symbols_nodup :
    (p.places.map fun place => Symbol.location place.1 place.2).Nodup := by
  have hnames : (p.places.map fun place => Symbol.location place.1 place.2).map (·.name) =
      p.locations := by
    rw [List.map_map, ← p.map_fst_places]
    rfl
  exact .of_map _ (hnames ▸ hp.locations_nodup)

/-- What is asked for under the name of a point is the symbol of that point. -/
theorem eq_location_of_name_eq {mode : TraceMode} {s : Symbol}
    (hs : .symbol s ∈ (p.build mode).requests) {place : String × Nat}
    (hplace : place ∈ p.places) (hname : s.name = place.1) : s = .location place.1 place.2 := by
  obtain ⟨n, hn, rfl⟩ := hp.exists_notion (mem_symbolsOf.mpr hs)
  rcases Notion.symbol_eq_or_variable (m := .location place.1 place.2) hp hn hplace hname with
    heq | ⟨_, _, _, hm, _⟩ | ⟨_, _, _, hm⟩ | ⟨_, _, _, hm⟩
  · exact heq
  · cases hm
  · cases hm
  · cases hm

end Formed

variable {p : Program}

/-- No two names of the solver text are equal, however many assertions it has. In particular two
points of a program have different symbols. What is asked for under the name of a point is the
symbol of that point, and the variables that matter there are those of the function it belongs
to. -/
theorem solverNames_nodup_of_load {source : String} (hload : load source = .ok p) :
    (∀ assertions, (p.solverNames assertions).Nodup) ∧
      (p.places.map fun place => Symbol.location place.1 place.2).Nodup ∧
      ∀ mode,
        (∀ s, .symbol s ∈ (p.build mode).requests →
          ∀ place ∈ p.places, s.name = place.1 → s = .location place.1 place.2) ∧
        ∀ tl v, p.locate mode = .ok (tl, v) → ∀ f ∈ p.functions, ∀ name ∈ f.locations,
          tl.active.get? name = some (.ofList f.declared) := by
  have hp := formed_of_load hload
  refine ⟨hp.solverNames_nodup, hp.places_symbols_nodup, fun mode => ⟨?_, ?_⟩⟩
  · intro s hs place hplace hname
    exact hp.eq_location_of_name_eq hs hplace hname
  · intro tl v hlocate f hf name hname
    exact (hp.covers hlocate f hf).active name hname

/-- A program with a branch in a loop whose names for the solver are different, so that the end of
the branch has the variables that matter there. -/
theorem solverNames_nestedProgram :
    load nestedSource = .ok nestedProgram ∧ (nestedProgram.solverNames 2).Nodup ∧
      ∃ tl v, nestedProgram.locate .two = .ok (tl, v) ∧
        tl.active.get? "l2_left_end" =
          some (.ofList [⟨"x", false, false⟩, ⟨"a", true, false⟩]) := by
  obtain ⟨hnames, _, hpoints⟩ := solverNames_nodup_of_load load_nestedSource
  have hok : (nestedProgram.locate .two).isOk = true := by decide +kernel
  obtain ⟨⟨tl, v⟩, hlocate⟩ := exists_eq_ok_of_isOk hok
  refine ⟨load_nestedSource, hnames 2, tl, v, hlocate, ?_⟩
  exact (hpoints .two).2 tl v hlocate _ List.mem_cons_self "l2_left_end" (by decide)

end Program

end TraceLogic
