import TraceLogic.Logic.Concurrent
import TraceLogic.Proofs.Vocabulary

/-!
# What schedules can do

A turn makes one request of one task, which is granted or refused, or it does nothing:
`Concurrent.step_cases`. Two things follow for every schedule, whatever the tasks are. If all tasks
succeed, then all of their requests have been granted in some order
(`Schedule.reaches_of_carryOut`). If a fault is reported, then some name has been asked to stand for
two symbols (`Schedule.clashes_of_carryOut`), unless a task would fail by itself.
-/

namespace TraceLogic

variable {α β : Type}

/-! ## Requests in some order -/

/-- Whether a fault says that a name stands for two symbols of a list. -/
def Clashes (symbols : List Symbol) (fault : Fault) : Prop :=
  ∃ existing ∈ symbols, ∃ requested ∈ symbols, fault = .signatureConflict existing requested ∧
    existing.name = requested.name ∧ existing ≠ requested

/-- In a coherent list no name stands for two symbols. -/
theorem Coherent.not_clashes {symbols : List Symbol} (h : Coherent symbols) {fault : Fault} :
    ¬Clashes symbols fault := by
  rintro ⟨existing, hexisting, requested, hrequested, -, hname, hne⟩
  exact hne (h existing hexisting requested hrequested hname)

namespace Vocabulary

variable {u v w : Vocabulary} {rs qs : List Request} {symbols : List Symbol}

/-- Whether a vocabulary grows into another one by granting requests in some order. -/
def Reaches (v : Vocabulary) (rs : List Request) (w : Vocabulary) : Prop :=
  ∃ order, (∀ r, r ∈ order ↔ r ∈ rs) ∧ v.serveAll order = (none, w)

/-- The order of the list is one. -/
theorem Reaches.of_serveAll (h : v.serveAll rs = (none, w)) : v.Reaches rs w := ⟨rs, by simp, h⟩

/-- Nothing has to be granted to stay. -/
theorem Reaches.nil : v.Reaches [] v := .of_serveAll rfl

/-- What has been granted one after the other has been granted together. -/
theorem Reaches.append (h : v.Reaches rs u) (h' : u.Reaches qs w) : v.Reaches (rs ++ qs) w := by
  obtain ⟨order, hmem, hserved⟩ := h
  obtain ⟨order', hmem', hserved'⟩ := h'
  refine ⟨order ++ order', fun r => ?_, ?_⟩
  · rw [List.mem_append, List.mem_append, hmem, hmem']
  · rw [serveAll_append, hserved]
    exact hserved'

/-- A request that is granted first. -/
theorem Reaches.cons {r : Request} (hr : v.serve r = .ok u) (h : u.Reaches rs w) :
    v.Reaches (r :: rs) w := by
  have hfirst : v.Reaches [r] u := .of_serveAll (by simp only [serveAll, hr])
  exact hfirst.append h

/-- Only which requests there are matters. -/
theorem Reaches.congr (h : v.Reaches rs w) (hmem : ∀ r, r ∈ rs ↔ r ∈ qs) : v.Reaches qs w := by
  obtain ⟨order, horder, hserved⟩ := h
  exact ⟨order, fun r => (horder r).trans (hmem r), hserved⟩

/-- What has been granted is there in the end. -/
theorem Reaches.grants (h : v.Reaches rs w) : v.Extends w ∧ ∀ r ∈ rs, w.Grants r := by
  obtain ⟨order, hmem, hserved⟩ := h
  obtain ⟨hextends, hgrants⟩ := serveAll_eq_none hserved
  exact ⟨hextends, fun r hr => hgrants r ((hmem r).mpr hr)⟩

/-- Nothing is there in the end that has not been asked for. -/
theorem Reaches.asked (h : v.Reaches rs w) :
    (∀ s ∈ w.sorts, s ∈ v.sorts ∨ .sort s ∈ rs) ∧
      ∀ f ∈ w.symbols, f ∈ v.symbols ∨ .symbol f ∈ rs := by
  obtain ⟨order, hmem, hserved⟩ := h
  have hasked := asked_of_serveAll v order
  simpa only [hserved, hmem] using hasked

/-- The symbols that are there in the end were there before or have been asked for. -/
theorem Reaches.symbols_subset (h : v.Reaches rs w) (hv : v.symbols ⊆ symbols)
    (hrs : symbolsOf rs ⊆ symbols) : w.symbols ⊆ symbols := by
  intro f hf
  rcases h.asked.2 f hf with hf | hf
  · exact hv hf
  · exact hrs (mem_symbolsOf.mpr hf)

/-- Granting keeps a vocabulary distinct. -/
theorem Reaches.distinct (h : v.Reaches rs w) (hv : v.Distinct) : w.Distinct := by
  obtain ⟨order, _, hserved⟩ := h
  have hdistinct := hv.of_serveAll order
  rwa [hserved] at hdistinct

/-- What has been granted was coherent. -/
theorem Reaches.coherent (h : v.Reaches rs w) (hv : v.Distinct) :
    Coherent (v.symbols ++ symbolsOf rs) := by
  obtain ⟨order, hmem, hserved⟩ := h
  have hcoherent := (serveAll_eq_none_iff hv order).mp (by rw [hserved])
  refine (Coherent.congr fun s => ?_).mp hcoherent
  simp only [List.mem_append, mem_symbolsOf, hmem]

end Vocabulary

namespace Construction

variable {c : Construction α} {v w : Vocabulary} {symbols : List Symbol}

/-- A run that succeeds has had its requests granted. -/
theorem reaches_of_run {a : α} (h : c.run v = (.ok a, w)) : v.Reaches c.requests w :=
  .of_serveAll (run_eq_ok.mp h).2

/-- A run that fails has met a clash, unless its construction fails for another reason. -/
theorem clashes_of_run (hc : ∀ fault, c.outcome = .error fault → Clashes symbols fault)
    (hv : v.symbols ⊆ symbols) (hrequests : symbolsOf c.requests ⊆ symbols) {fault : Fault}
    (h : (c.run v).1 = .error fault) : Clashes symbols fault := by
  unfold run at h
  rcases hserved : v.serveAll c.requests with ⟨_ | other, w⟩
  · rw [hserved] at h
    exact hc fault h
  · rw [hserved] at h
    cases h
    obtain ⟨existing, requested, hfault, hexisting, hrequested, hclash⟩ :=
      Vocabulary.serveAll_eq_some (congrArg Prod.fst hserved)
    refine ⟨existing, ?_, requested, hrequests hrequested, hfault, hclash⟩
    exact (List.mem_append.mp hexisting).elim (hv ·) (hrequests ·)

/-- A run adds no symbols but those it asks for, whether it succeeds or not. -/
theorem symbols_run_subset (hv : v.symbols ⊆ symbols) (hrequests : symbolsOf c.requests ⊆ symbols) :
    (c.run v).2.symbols ⊆ symbols := by
  have hrun : (c.run v).2 = (v.serveAll c.requests).2 := by
    unfold run
    rcases v.serveAll c.requests with ⟨_ | fault, w⟩ <;> rfl
  intro f hf
  rw [hrun] at hf
  rcases (Vocabulary.asked_of_serveAll v c.requests).2 f hf with hf | hf
  · exact hv hf
  · exact hrequests (mem_symbolsOf.mpr hf)

/-- If constructions for the members of a list succeed, each of them does. -/
theorem exists_of_mem_each {make : α → Construction β} {as : List α} {bs : List β}
    (h : (each make as).outcome = .ok bs) {a : α} (ha : a ∈ as) :
    ∃ b ∈ bs, (make a).outcome = .ok b := by
  induction as generalizing bs with
  | nil => cases ha
  | cons first rest ih =>
    obtain ⟨b, hb, h⟩ := outcome_bind_eq_ok.mp h
    obtain ⟨bs, hbs, ⟨⟩⟩ := outcome_bind_eq_ok.mp h
    rcases List.mem_cons.mp ha with rfl | ha
    · exact ⟨b, List.mem_cons_self, hb⟩
    · obtain ⟨c, hc, hmake⟩ := ih hbs ha
      exact ⟨c, List.mem_cons_of_mem _ hc, hmake⟩

/-- Constructions for the members of a list that all succeed. -/
theorem each_of_outcomes {make : α → Construction β} {as : List α} {bs : List β}
    (h : (as.map make).map (·.outcome) = bs.map .ok) :
    (each make as).outcome = .ok bs ∧
      (each make as).requests = (as.map make).flatMap (·.requests) := by
  induction as generalizing bs with
  | nil =>
    cases bs with
    | nil => exact ⟨rfl, rfl⟩
    | cons b bs => cases h
  | cons a as ih =>
    cases bs with
    | nil => cases h
    | cons b bs =>
      obtain ⟨ha, has⟩ := List.cons.inj h
      obtain ⟨houtcome, hrequests⟩ := ih has
      simp only [each, outcome_bind_eq_ok, requests_bind, ha, houtcome, hrequests, List.map_cons,
        List.flatMap_cons, requests_pure, List.append_nil, and_true]
      exact ⟨b, rfl, bs, rfl, rfl⟩

end Construction

open Construction Vocabulary

/-! ## Turns -/

namespace Concurrent

variable {s : Concurrent α} {symbols : List Symbol}

/-- What a turn can do: nothing, or one request of one task, which is granted or refused. -/
theorem step_cases (s : Concurrent α) (i : Nat) :
    s.step i = s ∨
    (∃ before r rs outcome after w, s.tasks = before ++ ⟨r :: rs, outcome⟩ :: after ∧
      s.vocabulary.serve r = .ok w ∧ s.step i = ⟨w, before ++ ⟨rs, outcome⟩ :: after⟩) ∨
    ∃ before r rs outcome after fault, s.tasks = before ++ ⟨r :: rs, outcome⟩ :: after ∧
      s.vocabulary.serve r = .error fault ∧
      s.step i = ⟨s.vocabulary, before ++ ⟨[], .error fault⟩ :: after⟩ := by
  unfold step
  cases htask : s.tasks[i]? with
  | none => exact .inl rfl
  | some c =>
    obtain ⟨hi, hc⟩ := List.getElem?_eq_some_iff.mp htask
    -- the task whose turn it is stands between those before and those after it
    have hsplit : s.tasks = s.tasks.take i ++ c :: s.tasks.drop (i + 1) := by
      rw [← hc, List.getElem_cons_drop, List.take_append_drop]
    have hset (d : Construction α) :
        s.tasks.set i d = s.tasks.take i ++ d :: s.tasks.drop (i + 1) := by
      rw [List.set_eq_take_append_cons_drop, if_pos hi]
    obtain ⟨requests, outcome⟩ := c
    cases requests with
    | nil =>
      refine .inl ?_
      simp only [advance, hset, ← hsplit]
    | cons r rs =>
      cases hserve : s.vocabulary.serve r with
      | ok w =>
        refine .inr (.inl ⟨_, r, rs, outcome, _, w, hsplit, hserve, ?_⟩)
        simp only [advance, hserve, hset]
      | error fault =>
        refine .inr (.inr ⟨_, r, rs, outcome, _, fault, hsplit, hserve, ?_⟩)
        simp only [advance, hserve, hset]

/-! ## Tasks that all succeed -/

/-- Tasks that have succeeded one after the other would have by themselves, and their requests have
been granted. -/
theorem reaches_of_inTurn {tasks : List (Construction α)} {as : List α} {v w : Vocabulary}
    (h : inTurn v tasks = (as.map .ok, w)) :
    tasks.map (·.outcome) = as.map .ok ∧ v.Reaches (tasks.flatMap (·.requests)) w := by
  induction tasks generalizing v as with
  | nil =>
    cases as with
    | nil =>
      cases h
      exact ⟨rfl, .nil⟩
    | cons a as => cases h
  | cons c tasks ih =>
    cases as with
    | nil => cases h
    | cons a as =>
      simp only [inTurn, List.map_cons, Prod.mk.injEq, List.cons.injEq] at h
      obtain ⟨⟨hfirst, hrest⟩, hlast⟩ := h
      have hrun : c.run v = (.ok a, (c.run v).2) := Prod.ext hfirst rfl
      obtain ⟨houtcomes, hreaches⟩ := ih (Prod.ext hrest hlast)
      rw [List.map_cons, List.map_cons, List.flatMap_cons, houtcomes, (run_eq_ok.mp hrun).1]
      exact ⟨rfl, (reaches_of_run hrun).append hreaches⟩

/-- Nor do turns before that make a difference: a request that is refused never turns into a
success. The induction is over the turns. -/
theorem reaches_of_run {turns : List Nat} {as : List α} {w : Vocabulary}
    (h : inTurn (s.run turns).vocabulary (s.run turns).tasks = (as.map .ok, w)) :
    s.tasks.map (·.outcome) = as.map .ok ∧
      s.vocabulary.Reaches (s.tasks.flatMap (·.requests)) w := by
  induction turns generalizing s with
  | nil => exact reaches_of_inTurn h
  | cons i turns ih =>
    obtain ⟨houtcomes, hreaches⟩ := ih (s := s.step i) h
    rcases s.step_cases i with hstep | ⟨before, r, rs, outcome, after, u, htasks, hserve, hstep⟩ |
      ⟨before, r, rs, outcome, after, fault, htasks, _, hstep⟩
    · rw [hstep] at houtcomes hreaches
      exact ⟨houtcomes, hreaches⟩
    · rw [hstep] at houtcomes hreaches
      rw [htasks]
      refine ⟨by simpa using houtcomes, (hreaches.cons hserve).congr fun q => ?_⟩
      simp only [List.flatMap_append, List.flatMap_cons, List.mem_append, List.mem_cons]
      tauto
    · -- the task that is refused has no value
      rw [hstep] at houtcomes
      have hmem : (.error fault : Except Fault α) ∈ as.map .ok := by
        rw [← houtcomes]
        simp
      obtain ⟨_, _, hne⟩ := List.mem_map.mp hmem
      cases hne

/-! ## Tasks that fail -/

/-- What every schedule keeps if the tasks do not fail by themselves: all symbols that are there or
asked for are from a list, and a task that has failed has met a clash in it. -/
structure Within (symbols : List Symbol) (s : Concurrent α) : Prop where
  vocabulary : s.vocabulary.symbols ⊆ symbols
  requests : ∀ c ∈ s.tasks, symbolsOf c.requests ⊆ symbols
  faults : ∀ c ∈ s.tasks, ∀ fault, c.outcome = .error fault → Clashes symbols fault

/-- One step asks for nothing new: the task goes on with the requests that it has left. -/
theorem Within.step (h : s.Within symbols) (i : Nat) : (s.step i).Within symbols := by
  obtain ⟨hvocabulary, hrequests, hfaults⟩ := h
  rcases s.step_cases i with hstep | ⟨before, r, rs, outcome, after, u, htasks, hserve, hstep⟩ |
    ⟨before, r, rs, outcome, after, fault, htasks, hserve, hstep⟩
  · rw [hstep]
    exact ⟨hvocabulary, hrequests, hfaults⟩
  -- granted or refused, the other tasks stay as they are
  all_goals
    rw [htasks, List.forall_mem_append, List.forall_mem_cons] at hrequests hfaults
    obtain ⟨hbefore, hself, hafter⟩ := hrequests
    obtain ⟨hfaultsBefore, hfaultsSelf, hfaultsAfter⟩ := hfaults
    have hlater : symbolsOf rs ⊆ symbols := fun f hf =>
      hself (mem_symbolsOf.mpr (List.mem_cons_of_mem _ (mem_symbolsOf.mp hf)))
    rw [hstep]
  · refine ⟨?_, ?_, ?_⟩
    · intro f hf
      rcases (asked_of_serve hserve).2 f hf with hf | rfl
      · exact hvocabulary hf
      · exact hself (mem_symbolsOf.mpr List.mem_cons_self)
    · rw [List.forall_mem_append, List.forall_mem_cons]
      exact ⟨hbefore, hlater, hafter⟩
    · rw [List.forall_mem_append, List.forall_mem_cons]
      exact ⟨hfaultsBefore, hfaultsSelf, hfaultsAfter⟩
  · refine ⟨hvocabulary, ?_, ?_⟩
    · rw [List.forall_mem_append, List.forall_mem_cons]
      exact ⟨hbefore, List.nil_subset _, hafter⟩
    · rw [List.forall_mem_append, List.forall_mem_cons]
      refine ⟨hfaultsBefore, ?_, hfaultsAfter⟩
      rintro _ ⟨⟩
      obtain ⟨existing, hexisting, requested, rfl, hfault, hclash⟩ := serve_eq_error hserve
      exact ⟨existing, hvocabulary hexisting, requested,
        hself (mem_symbolsOf.mpr List.mem_cons_self), hfault, hclash⟩

/-- All steps of a run ask for nothing new. -/
theorem Within.run (h : s.Within symbols) (turns : List Nat) : (s.run turns).Within symbols := by
  induction turns generalizing s with
  | nil => exact h
  | cons i turns ih => exact ih (h.step i)

/-- What fails after the turns has met a clash, too. -/
theorem Within.clashes_of_inTurn {tasks : List (Construction α)} {v : Vocabulary}
    (h : Within symbols ⟨v, tasks⟩) {fault : Fault} (hfault : .error fault ∈ (inTurn v tasks).1) :
    Clashes symbols fault := by
  induction tasks generalizing v with
  | nil => cases hfault
  | cons c tasks ih =>
    obtain ⟨hv, hrequests, hfaults⟩ := h
    obtain ⟨hrequests, hrequestsRest⟩ := List.forall_mem_cons.mp hrequests
    obtain ⟨hfaults, hfaultsRest⟩ := List.forall_mem_cons.mp hfaults
    rcases List.mem_cons.mp hfault with hfirst | hrest
    · exact clashes_of_run hfaults hv hrequests hfirst.symm
    · exact ih ⟨symbols_run_subset hv hrequests, hrequestsRest, hfaultsRest⟩ hrest

end Concurrent

/-! ## Schedules -/

/-- Outcomes come to values together if each of them is a value. -/
theorem mapM_id_eq_ok {ε : Type} {outcomes : List (Except ε α)} {as : List α} :
    outcomes.mapM id = .ok as ↔ outcomes = as.map .ok := by
  induction outcomes generalizing as with
  | nil => cases as <;> simp [pure, Except.pure]
  | cons outcome outcomes ih =>
    rw [List.mapM_cons, bind_eq_ok]
    simp only [id_eq, bind_eq_ok, ih]
    constructor
    · rintro ⟨a, rfl, as', rfl, ⟨⟩⟩
      rfl
    · intro h
      cases as with
      | nil => cases h
      | cons a as =>
        obtain ⟨rfl, rfl⟩ := List.cons.inj h
        exact ⟨a, rfl, as, rfl, rfl⟩

/-- Outcomes come to a fault together only if it is one of them. -/
theorem mem_of_mapM_id_eq_error {ε : Type} {outcomes : List (Except ε α)} {fault : ε}
    (h : outcomes.mapM id = .error fault) : .error fault ∈ outcomes := by
  induction outcomes with
  | nil => cases h
  | cons outcome outcomes ih =>
    rw [List.mapM_cons] at h
    cases outcome with
    | error other =>
      cases h
      exact List.mem_cons_self
    | ok a =>
      cases hrest : outcomes.mapM id with
      | error other =>
        rw [hrest] at h
        cases h
        exact List.mem_cons_of_mem _ (ih hrest)
      | ok as =>
        rw [hrest] at h
        cases h

namespace Schedule

variable {schedule : Schedule} {outcomes : List (Except Fault α)} {tasks : List (Construction α)}
  {v w : Vocabulary}

/-- The values of all tasks are there if all of them succeed. -/
theorem collect_eq_ok {as : List α} :
    schedule.collect outcomes = .ok as ↔ outcomes = as.map .ok := by
  rw [← mapM_id_eq_ok, collect]
  split
  · rename_i fault hfault
    refine ⟨fun h => (by cases h), fun h => ?_⟩
    -- a task that has failed has no value
    rw [mapM_id_eq_ok.mp h, List.getElem?_map, Option.map_eq_some_iff] at hfault
    obtain ⟨_, _, hne⟩ := hfault
    cases hne
  · rfl

/-- The fault that is reported is that of a task. -/
theorem mem_of_collect_eq_error {fault : Fault} (h : schedule.collect outcomes = .error fault) :
    .error fault ∈ outcomes := by
  unfold collect at h
  split at h
  · rename_i other hother
    cases h
    exact List.mem_of_getElem? hother
  · exact mem_of_mapM_id_eq_error h

/-- The fault of any task that fails is reported under some schedule. -/
theorem collect_of_getElem? {fault : Fault}
    (h : outcomes[schedule.reported]? = some (.error fault)) :
    schedule.collect outcomes = .error fault := by
  rw [collect, h]

/-- If all tasks succeed, they would have by themselves, and their requests have been granted. -/
theorem reaches_of_carryOut {as : List α}
    (h : (schedule.carryOut tasks).run.run v = (.ok as, w)) :
    tasks.map (·.outcome) = as.map .ok ∧ v.Reaches (tasks.flatMap (·.requests)) w := by
  obtain ⟨hcollect, hlast⟩ := Prod.mk.inj h
  exact Concurrent.reaches_of_run (s := ⟨v, tasks⟩) (Prod.ext (collect_eq_ok.mp hcollect) hlast)

/-- If a fault is reported, it is a clash among the symbols that were there or were asked for,
unless a task fails by itself. -/
theorem clashes_of_carryOut {symbols : List Symbol} (hv : v.symbols ⊆ symbols)
    (hrequests : ∀ c ∈ tasks, symbolsOf c.requests ⊆ symbols)
    (hoks : ∀ c ∈ tasks, ∃ a, c.outcome = .ok a) {fault : Fault}
    (h : (schedule.carryOut tasks).run.run v = (.error fault, w)) : Clashes symbols fault := by
  have hstart : Concurrent.Within symbols ⟨v, tasks⟩ := by
    refine ⟨hv, hrequests, fun c hc fault hfault => ?_⟩
    obtain ⟨a, ha⟩ := hoks c hc
    cases ha.symm.trans hfault
  exact (hstart.run schedule.turns).clashes_of_inTurn (mem_of_collect_eq_error (Prod.mk.inj h).1)

end Schedule

end TraceLogic
