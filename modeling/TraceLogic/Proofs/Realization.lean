import TraceLogic.Proofs.Chronicle
import Mathlib.Data.Set.Countable

/-!
# Chronicles of speculative executions

A speculative execution that converges gives a store to every point of a block, in all iterations of
the loops. Moments for these points can be chosen so that two points stand for the same moment
exactly if they have the same store, since there are countably many points. The result is a
chronicle that obeys the block (`Statement.Speculates.realized`).

The points of a block are told apart by their locations, and the iterations of a loop by the number
at its depth: stores for the parts of a block are put together by looking at these two.
-/

namespace TraceLogic

open Statement

instance : Countable Point := by
  have hinjective : Function.Injective fun q : Point =>
      (q.location.toList.map Char.toNat, q.iterations) := by
    intro q q' h
    obtain ⟨hlocation, hiterations⟩ := Prod.mk.inj h
    have hchars := (List.map_injective_iff.mpr fun _ _ => Char.toNat_inj.mp) hlocation
    exact Point.ext (String.toList_inj.mp hchars) hiterations
  exact hinjective.countable

namespace Chronicle

/-- Points with the same store can stand for the same moment. -/
theorem exists_moments (stores : Point → Store) :
    ∃ (moment : Point → Nat) (store : Nat → Store), (∀ q, store (moment q) = stores q) ∧
      ∀ q q', stores q = stores q' → moment q = moment q' := by
  have hcountable : Countable (Set.range stores) := (Set.countable_range stores).to_subtype
  obtain ⟨number, hnumber⟩ := exists_injective_nat (Set.range stores)
  have hnonempty : Nonempty (Set.range stores) := ⟨⟨stores ⟨"", []⟩, Set.mem_range_self _⟩⟩
  refine ⟨fun q => number ⟨stores q, Set.mem_range_self q⟩,
    fun n => (Function.invFun number n).val, fun q => ?_, fun q q' h => ?_⟩
  · exact congrArg Subtype.val (Function.leftInverse_invFun hnumber _)
  · simp only [h]

/-- The chronicle with given stores and last iterations. -/
noncomputable def ofStores (stores : Point → Store) (last : String → List Nat → Nat) :
    Chronicle where
  moment := (exists_moments stores).choose
  store := (exists_moments stores).choose_spec.choose
  last := last

section

variable {stores stores' : Point → Store} {last last' : String → List Nat → Nat}

/-- The chronicle has the stores that it was made from. -/
@[simp]
theorem storeAt_ofStores (q : Point) : (ofStores stores last).storeAt q = stores q :=
  (exists_moments stores).choose_spec.choose_spec.1 q

/-- Points with the same store stand for the same moment. -/
theorem moment_ofStores {q q' : Point} (h : stores q = stores q') :
    (ofStores stores last).moment q = (ofStores stores last).moment q' :=
  (exists_moments stores).choose_spec.choose_spec.2 q q' h

/-- Only the points of a block matter to it. -/
theorem BlockObeys.of_stores {vars : List Variable} {loops : List String} {b : List Statement}
    {ι : List Nat} {stop : Point} (h : (ofStores stores last).BlockObeys ι stop b)
    (hb : BlockFormed vars loops b) (hstores : ∀ q, InBlock ι stop b q → stores' q = stores q)
    (hlast : ∀ location ∈ blockLoops b, ∀ ι', ι <+: ι' → last' location ι' = last location ι') :
    (ofStores stores' last').BlockObeys ι stop b := by
  have hmoment : ∀ q q', InBlock ι stop b q → InBlock ι stop b q' →
      (ofStores stores last).moment q = (ofStores stores last).moment q' →
      (ofStores stores' last').moment q = (ofStores stores' last').moment q' := by
    intro q q' hq hq' hsame
    have hstore : stores q = stores q' := calc
      stores q = (ofStores stores last).storeAt q := (storeAt_ofStores q).symm
      _ = (ofStores stores last).storeAt q' := congrArg (ofStores stores last).store hsame
      _ = stores q' := storeAt_ofStores q'
    apply moment_ofStores
    rw [hstores q hq, hstores q' hq', hstore]
  refine h.transfer (fun σ => σ) (fun _ _ _ _ _ => rfl) (fun _ _ _ => rfl) hb ?_ hmoment hlast
  intro q hq
  rw [storeAt_ofStores, storeAt_ofStores, hstores q hq]

end

/-- Whether some chronicle obeys a block, starts it in one store and ends it in another one, and has
only stores that satisfy an invariant. -/
def Realized (invariant : Store → Prop) (ι : List Nat) (stop : Point) (b : List Statement)
    (σ τ : Store) : Prop :=
  ∃ stores last, (∀ q, invariant (stores q)) ∧ (ofStores stores last).BlockObeys ι stop b ∧
    stores (blockStart ι stop b) = σ ∧ stores stop = τ

namespace Realized

variable {invariant : Store → Prop} {vars : List Variable} {loops enclosing : List String}
  {ι : List Nat} {stop : Point} {site : Site} {c : BoolExpr Variable}
  {thens elses body rest : List Statement} {σ τ : Store}

/-- The store at the end of what is realized satisfies the invariant. -/
theorem invariant_stop {b : List Statement} (h : Realized invariant ι stop b σ τ) :
    invariant τ := by
  obtain ⟨stores, _, hinvariant, _, _, rfl⟩ := h
  exact hinvariant stop

/-- A statement without blocks adds the store at its own point. -/
theorem cons_atom {s : Statement} (hlocations : blockLocations (s :: rest) =
      s.location :: blockLocations rest) (hpoint : s.startPoint ι = ⟨s.location, ι⟩)
    {σ' : Store} (hstep : ∀ C : Chronicle, C.storeAt ⟨s.location, ι⟩ = σ →
      C.storeAt (blockStart ι stop rest) = σ' →
      (σ = σ' → C.moment ⟨s.location, ι⟩ = C.moment (blockStart ι stop rest)) →
      C.Obeys ι (blockStart ι stop rest) s)
    (hrest : Realized invariant ι stop rest σ' τ) (hformed : BlockFormed vars loops rest)
    (hσ : invariant σ) (hnodup : (stop.location :: blockLocations (s :: rest)).Nodup) :
    Realized invariant ι stop (s :: rest) σ τ := by
  obtain ⟨stores, last, hinvariant, hobeys, hstart, hstop⟩ := hrest
  rw [hlocations] at hnodup
  -- no point of the rest has the location of the statement
  have hother : ∀ q, InBlock ι stop rest q →
      Function.update stores ⟨s.location, ι⟩ σ q = stores q := by
    intro q hq
    refine Function.update_of_ne ?_ σ stores
    rintro rfl
    have hmem : s.location ∈ stop.location :: blockLocations rest := hq.location_mem
    simp only [List.nodup_cons, List.mem_cons, not_or] at hnodup
    rcases List.mem_cons.mp hmem with heq | hmem
    · exact hnodup.1.1 heq.symm
    · exact hnodup.2.1 hmem
  have hself : Function.update stores ⟨s.location, ι⟩ σ ⟨s.location, ι⟩ = σ :=
    Function.update_self ..
  have hnext : Function.update stores ⟨s.location, ι⟩ σ (blockStart ι stop rest) = σ' := by
    rw [hother _ inBlock_blockStart, hstart]
  refine ⟨Function.update stores ⟨s.location, ι⟩ σ, last, ?_, ⟨?_, ?_⟩, ?_, ?_⟩
  · intro q
    by_cases hq : q = ⟨s.location, ι⟩
    · rw [hq, hself]
      exact hσ
    · rw [Function.update_of_ne hq]
      exact hinvariant q
  · refine hstep _ ?_ ?_ fun heq => ?_
    · rw [storeAt_ofStores, hself]
    · rw [storeAt_ofStores, hnext]
    · apply moment_ofStores
      rw [hself, hnext, heq]
  · exact hobeys.of_stores hformed hother (fun _ _ _ _ => rfl)
  · rw [blockStart, hpoint, hself]
  · rw [hother _ inBlock_stop, hstop]

/-- A branch adds its own store to those of its blocks. -/
theorem cons_branch {left right : Store}
    (hthens : Realized invariant ι ⟨Timeline.leftEnd site.location, ι⟩ thens σ left)
    (helses : Realized invariant ι ⟨Timeline.rightEnd site.location, ι⟩ elses σ right)
    (hrest : Realized invariant ι stop rest (if σ.test c then left else right) τ)
    (hformed : BlockFormed vars loops (.branch site c thens elses :: rest)) (hσ : invariant σ)
    (hnodup : (stop.location :: blockLocations (.branch site c thens elses :: rest)).Nodup) :
    Realized invariant ι stop (.branch site c thens elses :: rest) σ τ := by
  obtain ⟨stores₁, last₁, hinvariant₁, hobeys₁, hstart₁, hstop₁⟩ := hthens
  obtain ⟨stores₂, last₂, hinvariant₂, hobeys₂, hstart₂, hstop₂⟩ := helses
  obtain ⟨stores₃, last₃, hinvariant₃, hobeys₃, hstart₃, hstop₃⟩ := hrest
  obtain ⟨⟨_, ⟨_, hthens⟩, _, helses⟩, hrest⟩ := hformed
  let names₁ := Timeline.leftEnd site.location :: blockLocations thens
  let names₂ := Timeline.rightEnd site.location :: blockLocations elses
  let stores (q : Point) : Store :=
    if q.location ∈ names₁ then stores₁ q
    else if q.location ∈ names₂ then stores₂ q
    else if q.location = site.location then σ
    else stores₃ q
  let last (location : String) (ι' : List Nat) : Nat :=
    if location ∈ names₁ then last₁ location ι'
    else if location ∈ names₂ then last₂ location ι'
    else last₃ location ι'
  -- the locations of the parts are all different
  obtain ⟨happart, ⟨hsite₁, hsite₂⟩, hothers⟩ :
      (∀ l ∈ names₂, l ∉ names₁) ∧ (site.location ∉ names₁ ∧ site.location ∉ names₂) ∧
        ∀ l ∈ stop.location :: blockLocations rest,
          l ∉ names₁ ∧ l ∉ names₂ ∧ l ≠ site.location := by
    rw [blockLocations_branch] at hnodup
    simp only [names₁, names₂, List.nodup_cons, List.nodup_append, List.mem_cons, List.mem_append,
      not_or] at hnodup ⊢
    grind
  have heq₁ : ∀ q, InBlock ι ⟨Timeline.leftEnd site.location, ι⟩ thens q → stores q = stores₁ q :=
    fun q hq => if_pos hq.location_mem
  have heq₂ : ∀ q, InBlock ι ⟨Timeline.rightEnd site.location, ι⟩ elses q →
      stores q = stores₂ q := by
    intro q hq
    simp only [stores, if_neg (happart _ hq.location_mem)]
    exact if_pos hq.location_mem
  have heq₃ : ∀ q, InBlock ι stop rest q → stores q = stores₃ q := by
    intro q hq
    obtain ⟨h₁, h₂, hsite⟩ := hothers _ hq.location_mem
    simp only [stores, if_neg h₁, if_neg h₂, if_neg hsite]
  have hself : stores ⟨site.location, ι⟩ = σ := by
    simp only [stores, if_neg hsite₁, if_neg hsite₂, if_true]
  refine ⟨stores, last, ?_, ⟨⟨⟨?_, ?_⟩, ?_, ?_, ?_⟩, ?_⟩, hself, ?_⟩
  · intro q
    simp only [stores]
    split_ifs
    · exact hinvariant₁ q
    · exact hinvariant₂ q
    · exact hσ
    · exact hinvariant₃ q
  · simp only [storeAt_ofStores, heq₁ _ inBlock_blockStart, hstart₁, hself]
  · simp only [storeAt_ofStores, heq₂ _ inBlock_blockStart, hstart₂, hself]
  · simp only [storeAt_ofStores, heq₃ _ inBlock_blockStart, hstart₃, hself, heq₁ _ inBlock_stop,
      hstop₁, heq₂ _ inBlock_stop, hstop₂]
  · refine hobeys₁.of_stores hthens heq₁ fun l hl _ _ => ?_
    exact if_pos (List.mem_cons_of_mem _ (blockLoops_subset thens hl))
  · refine hobeys₂.of_stores helses heq₂ fun l hl _ _ => ?_
    have hmem : l ∈ names₂ := List.mem_cons_of_mem _ (blockLoops_subset elses hl)
    simp only [last, if_neg (happart l hmem), if_pos hmem]
  · refine hobeys₃.of_stores hrest heq₃ fun l hl _ _ => ?_
    obtain ⟨h₁, h₂, _⟩ := hothers l (List.mem_cons_of_mem _ (blockLoops_subset rest hl))
    simp only [last, if_neg h₁, if_neg h₂]
  · rw [heq₃ _ inBlock_stop, hstop₃]

/-- The number at the depth of a loop tells its iterations apart. -/
theorem getD_of_prefix {i : Nat} {ι' : List Nat} (h : ι ++ [i] <+: ι') :
    ι'.getD ι.length 0 = i := by
  obtain ⟨inner, rfl⟩ := h
  simp

/-- A loop adds the stores at its head to those of its body, in every iteration. -/
theorem cons_loop {states : Nat → Store} {n : Nat}
    (hbody : ∀ i, Realized invariant (ι ++ [i]) ⟨site.location, ι ++ [i + 1]⟩ body (states i)
      (states (i + 1)))
    (hruns : ∀ i < n, (states i).test c = true) (hends : (states n).test c = false)
    (hrest : Realized invariant ι stop rest (states n) τ)
    (hformed : BlockFormed vars loops (.loop site enclosing c body :: rest))
    (hstates : ∀ i, invariant (states i))
    (hnodup : (stop.location :: blockLocations (.loop site enclosing c body :: rest)).Nodup) :
    Realized invariant ι stop (.loop site enclosing c body :: rest) (states 0) τ := by
  choose stores₁ last₁ hinvariant₁ hobeys₁ hstart₁ hstop₁ using hbody
  obtain ⟨stores₂, last₂, hinvariant₂, hobeys₂, hstart₂, hstop₂⟩ := hrest
  obtain ⟨⟨_, _, _, hbody⟩, hrest⟩ := hformed
  -- a point of the body takes its store from the iteration of this loop that it is in
  let stores (q : Point) : Store :=
    if q.location ∈ blockLocations body then stores₁ (q.iterations.getD ι.length 0) q
    else if q.location = site.location then states (q.iterations.getD ι.length 0)
    else stores₂ q
  let last (location : String) (ι' : List Nat) : Nat :=
    if location ∈ blockLocations body then last₁ (ι'.getD ι.length 0) location ι'
    else if location = site.location then n
    else last₂ location ι'
  -- the locations of the body, of the head and of the rest are different
  obtain ⟨hsite, hothers⟩ : site.location ∉ blockLocations body ∧
      ∀ l ∈ stop.location :: blockLocations rest, l ∉ blockLocations body ∧ l ≠ site.location := by
    rw [blockLocations_loop] at hnodup
    simp only [List.nodup_cons, List.nodup_append, List.mem_cons, List.mem_append, not_or]
      at hnodup ⊢
    grind
  have hhead : ∀ i, stores ⟨site.location, ι ++ [i]⟩ = states i := by
    intro i
    simp only [stores, if_neg hsite, if_true, getD_of_prefix List.prefix_rfl]
  have heq₁ : ∀ i q, InBlock (ι ++ [i]) ⟨site.location, ι ++ [i + 1]⟩ body q →
      stores q = stores₁ i q := by
    rintro i q (rfl | ⟨hlocation, hprefix⟩)
    · rw [hhead, hstop₁]
    · simp only [stores, if_pos hlocation, getD_of_prefix hprefix]
  have heq₂ : ∀ q, InBlock ι stop rest q → stores q = stores₂ q := by
    intro q hq
    obtain ⟨h₁, h₂⟩ := hothers _ hq.location_mem
    simp only [stores, if_neg h₁, if_neg h₂]
  have hn : last site.location ι = n := by
    simp only [last, if_neg hsite, if_true]
  refine ⟨stores, last, ?_, ⟨⟨?_, ?_, ?_, ?_, ?_⟩, ?_⟩, hhead 0, ?_⟩
  · intro q
    simp only [stores]
    split_ifs
    · exact hinvariant₁ _ q
    · exact hstates _
    · exact hinvariant₂ q
  · intro i
    simp only [storeAt_ofStores, heq₁ i _ inBlock_blockStart, hstart₁, hhead]
  · intro i
    refine (hobeys₁ i).of_stores hbody (heq₁ i) fun l hl ι' hι' => ?_
    simp only [last, if_pos (blockLoops_subset body hl), getD_of_prefix hι']
  · intro i hi
    rw [storeAt_ofStores, hhead]
    exact hruns i (hn ▸ hi)
  · rw [storeAt_ofStores, hhead]
    change (states (last site.location ι)).test c = false
    rw [hn]
    exact hends
  · rw [storeAt_ofStores, storeAt_ofStores, heq₂ _ inBlock_blockStart, hstart₂, hhead]
    exact congrArg states hn.symm
  · refine hobeys₂.of_stores hrest heq₂ fun l hl _ _ => ?_
    obtain ⟨h₁, h₂⟩ := hothers l (List.mem_cons_of_mem _ (blockLoops_subset rest hl))
    simp only [last, if_neg h₁, if_neg h₂]
  · rw [heq₂ _ inBlock_stop, hstop₂]

end Realized

end Chronicle

/-- A speculative execution that converges has a chronicle. The induction is along the execution,
for all iterations of the loops around it. -/
theorem Statement.Speculates.realized {invariant : Store → Prop} {vars : List Variable}
    (hassign : ∀ (σ : Store) (target : Target Variable) (value : IntExpr Variable),
      target.Scoped vars → invariant σ → invariant (σ.assign target value))
    {b : List Statement} {σ τ : Store} (h : Speculates b σ τ) {loops : List String} {ι : List Nat}
    {stop : Point} (hb : BlockFormed vars loops b) (hσ : invariant σ)
    (hnodup : (stop.location :: blockLocations b).Nodup) :
    Chronicle.Realized invariant ι stop b σ τ := by
  induction h generalizing loops ι stop with
  | @done σ =>
    exact ⟨fun _ => σ, fun _ _ => 0, fun _ => hσ, trivial, rfl, rfl⟩
  | @assign site target value rest σ τ _ ih =>
    have hnodupRest : (stop.location :: blockLocations rest).Nodup :=
      hnodup.sublist ((List.sublist_cons_self _ _).cons_cons _)
    refine Chronicle.Realized.cons_atom rfl rfl ?_
      (ih hb.2 (hassign σ target value hb.1.1 hσ) hnodupRest) hb.2 hσ hnodup
    intro C hstart hnext _
    exact hnext.trans (congrArg (Store.assign · target value) hstart.symm)
  | @skip site rest σ τ _ ih =>
    have hnodupRest : (stop.location :: blockLocations rest).Nodup :=
      hnodup.sublist ((List.sublist_cons_self _ _).cons_cons _)
    refine Chronicle.Realized.cons_atom rfl rfl ?_ (ih hb.2 hσ hnodupRest) hb.2 hσ hnodup
    intro C _ _ hmoment
    exact hmoment rfl
  | @branch site c thens elses rest σ left right τ _ _ _ ihthens ihelses ihrest =>
    obtain ⟨hnodupThens, hnodupElses, hnodupRest⟩ :
        (Timeline.leftEnd site.location :: blockLocations thens).Nodup ∧
          (Timeline.rightEnd site.location :: blockLocations elses).Nodup ∧
          (stop.location :: blockLocations rest).Nodup := by
      rw [blockLocations_branch] at hnodup
      simp only [List.nodup_cons, List.nodup_append, List.mem_cons, List.mem_append, not_or]
        at hnodup ⊢
      grind
    have hthens : Chronicle.Realized invariant ι ⟨Timeline.leftEnd site.location, ι⟩ thens σ left :=
      ihthens hb.1.2.1.2 hσ hnodupThens
    have helses :
        Chronicle.Realized invariant ι ⟨Timeline.rightEnd site.location, ι⟩ elses σ right :=
      ihelses hb.1.2.2.2 hσ hnodupElses
    have hselected : invariant (if σ.test c then left else right) := by
      split
      · exact hthens.invariant_stop
      · exact helses.invariant_stop
    exact .cons_branch hthens helses (ihrest hb.2 hselected hnodupRest) hb hσ hnodup
  | @loop site enclosing c body rest τ states n _ hruns hends _ ihbody ihrest =>
    obtain ⟨hnodupBody, hnodupRest⟩ : (site.location :: blockLocations body).Nodup ∧
        (stop.location :: blockLocations rest).Nodup := by
      rw [blockLocations_loop] at hnodup
      simp only [List.nodup_cons, List.nodup_append, List.mem_cons, List.mem_append, not_or]
        at hnodup ⊢
      grind
    -- the body starts every iteration in a store that satisfies the invariant
    have hstates : ∀ i, invariant (states i) := by
      intro i
      induction i with
      | zero => exact hσ
      | succ i ih =>
        have hbody : Chronicle.Realized invariant [i] ⟨site.location, [i + 1]⟩ body (states i)
            (states (i + 1)) := ihbody i hb.1.2.2.2 ih hnodupBody
        exact hbody.invariant_stop
    exact .cons_loop (fun i => ihbody i hb.1.2.2.2 (hstates i) hnodupBody) hruns hends
      (ihrest hb.2 (hstates n) hnodupRest) hb hstates hnodup

end TraceLogic
