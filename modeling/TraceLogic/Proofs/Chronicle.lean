import TraceLogic.Proofs.Execution

/-!
# Chronicles

A chronicle tells which moment each point of a program stands for, which store each moment has, and
in which iteration each loop ends. `Chronicle.BlockObeys` is what the axioms of a block demand of a
chronicle: an assignment leads from one store to the next, a `skip` starts and ends at one moment,
both blocks of a branch start with the store of the branch, and a loop speaks about all of its
iterations.

A chronicle that obeys a block contains a speculative and an ordinary execution of it
(`Chronicle.BlockObeys.run`).
-/

namespace TraceLogic

/-- A location in given iterations of the loops around it. -/
@[ext]
structure Point where
  location : String
  iterations : List Nat
deriving DecidableEq

/-- The moments, stores and last iterations of a program. -/
structure Chronicle where
  /-- The moment that a point stands for. -/
  moment : Point → Nat
  /-- The store at a moment. -/
  store : Nat → Store
  /-- The iteration in which a loop ends, in given iterations of the loops around it. -/
  last : String → List Nat → Nat

/-- The point at which a statement starts. -/
def Statement.startPoint (ι : List Nat) : Statement → Point
  | .loop site _ _ _ => ⟨site.location, ι ++ [0]⟩
  | s => ⟨s.location, ι⟩

/-- The point at which a block starts that ends at a given point. -/
def Statement.blockStart (ι : List Nat) (stop : Point) : List Statement → Point
  | [] => stop
  | s :: _ => s.startPoint ι

namespace Chronicle

open Statement

/-- The store at a point. -/
def storeAt (C : Chronicle) (q : Point) : Store := C.store (C.moment q)

/-- Whether a loop was left in the iteration that the chronicle gives. -/
def Counts (C : Chronicle) (e : LoopExit) : Prop := e.iterations = C.last e.location e.enclosing

mutual

/-- What the axioms of a statement in iterations `ι` demand, if it ends at `stop`. -/
def Obeys (C : Chronicle) (ι : List Nat) (stop : Point) : Statement → Prop
  | .assign site target value =>
    C.storeAt stop = (C.storeAt ⟨site.location, ι⟩).assign target value
  | .skip site => C.moment ⟨site.location, ι⟩ = C.moment stop
  | .branch site c thens elses =>
    let σ := C.storeAt ⟨site.location, ι⟩
    let left : Point := ⟨Timeline.leftEnd site.location, ι⟩
    let right : Point := ⟨Timeline.rightEnd site.location, ι⟩
    (C.storeAt (blockStart ι left thens) = σ ∧ C.storeAt (blockStart ι right elses) = σ) ∧
      C.storeAt stop = (if σ.test c then C.storeAt left else C.storeAt right) ∧
      C.BlockObeys ι left thens ∧ C.BlockObeys ι right elses
  | .loop site _ c body =>
    let head (i : Nat) : Point := ⟨site.location, ι ++ [i]⟩
    let n := C.last site.location ι
    (∀ i, C.storeAt (blockStart (ι ++ [i]) (head (i + 1)) body) = C.storeAt (head i)) ∧
      (∀ i, C.BlockObeys (ι ++ [i]) (head (i + 1)) body) ∧
      (∀ i < n, (C.storeAt (head i)).test c = true) ∧ (C.storeAt (head n)).test c = false ∧
      C.storeAt stop = C.storeAt (head n)

/-- What the axioms of a block in iterations `ι` demand, if it ends at `stop`. -/
def BlockObeys (C : Chronicle) (ι : List Nat) (stop : Point) : List Statement → Prop
  | [] => True
  | s :: rest => C.Obeys ι (blockStart ι stop rest) s ∧ C.BlockObeys ι stop rest

end

/-- A chronicle that obeys a block runs through it, and leaves every loop in the iteration that it
gives. The induction is over the block, for all iterations of the loops around it. -/
theorem BlockObeys.run {C : Chronicle} {b : List Statement} {ι : List Nat} {stop : Point}
    (h : C.BlockObeys ι stop b) :
    Speculates b (C.storeAt (blockStart ι stop b)) (C.storeAt stop) ∧
      ExecutesWithin C.Counts ι 0 b (C.storeAt (blockStart ι stop b)) (C.storeAt stop) := by
  induction b using Statement.blockInduction generalizing ι stop with
  | nil => exact ⟨.done, .done _⟩
  | assign site target value rest ih =>
    obtain ⟨hstep, hrest⟩ := h
    have hrun := ih hrest
    rw [hstep] at hrun
    exact ⟨.assign hrun.1, .assign hrun.2⟩
  | skip site rest ih =>
    obtain ⟨hstep, hrest⟩ := h
    have hrun := ih hrest
    have hstore : C.storeAt ⟨site.location, ι⟩ = C.storeAt (blockStart ι stop rest) :=
      congrArg C.store hstep
    rw [← hstore] at hrun
    exact ⟨.skip hrun.1, .skip hrun.2⟩
  | branch site c thens elses rest ihthens ihelses ih =>
    obtain ⟨⟨⟨hleft, hright⟩, hselect, hthens, helses⟩, hrest⟩ := h
    have hrun := ih hrest
    have hthens := ihthens hthens
    have helses := ihelses helses
    rw [hselect] at hrun
    rw [hleft] at hthens
    rw [hright] at helses
    exact ⟨.branch hthens.1 helses.1 hrun.1, .branch hthens.2 helses.2 hrun.2⟩
  | loop site enclosing c body rest ihbody ih =>
    obtain ⟨⟨hentry, hbody, hruns, hends, hexit⟩, hrest⟩ := h
    have hrun := ih hrest
    rw [hexit] at hrun
    -- the stores at the head of the loop, one per iteration
    let states (i : Nat) : Store := C.storeAt ⟨site.location, ι ++ [i]⟩
    have hstep (i : Nat) :
        Speculates body (states i) (states (i + 1)) ∧
          ExecutesWithin C.Counts (ι ++ [i]) 0 body (states i) (states (i + 1)) := by
      have := ihbody (hbody i)
      rwa [hentry i] at this
    exact ⟨.loop states _ (fun i => (hstep i).1) hruns hends hrun.1,
      .loop states (fun i _ => (hstep i).2) hruns hends rfl hrun.2⟩

/-! ## The points that a block speaks about -/

/-- Whether a block in iterations `ι` that ends at `stop` speaks about a point. -/
def InBlock (ι : List Nat) (stop : Point) (b : List Statement) (q : Point) : Prop :=
  q = stop ∨ q.location ∈ blockLocations b ∧ ι <+: q.iterations

section

variable {ι : List Nat} {stop q : Point} {b rest : List Statement} {site : Site}
  {enclosing : List String} {c : BoolExpr Variable} {thens elses body : List Statement}

/-- A block speaks about its end. -/
theorem inBlock_stop : InBlock ι stop b stop := .inl rfl

/-- A block speaks about its own locations and about its end. -/
theorem InBlock.location_mem (h : InBlock ι stop b q) :
    q.location ∈ stop.location :: blockLocations b := by
  rcases h with rfl | ⟨hlocation, _⟩
  · exact List.mem_cons_self
  · exact List.mem_cons_of_mem _ hlocation

/-- A block speaks about its start. -/
theorem inBlock_blockStart : InBlock ι stop b (blockStart ι stop b) := by
  cases b with
  | nil => exact inBlock_stop
  | cons s rest =>
    cases s <;> exact .inr ⟨by simp [blockStart, startPoint, location, Statement.site],
      by simp [blockStart, startPoint]⟩

/-- A block speaks about all points of its rest. -/
theorem InBlock.of_rest {s : Statement} (h : InBlock ι stop rest q) :
    InBlock ι stop (s :: rest) q := by
  rcases h with h | ⟨hlocation, hprefix⟩
  · exact .inl h
  · refine .inr ⟨?_, hprefix⟩
    rw [blockLocations_cons]
    exact List.mem_append_right _ hlocation

/-- A branch speaks about all points of its first block. -/
theorem InBlock.of_thens
    (h : InBlock ι ⟨Timeline.leftEnd site.location, ι⟩ thens q) :
    InBlock ι stop (.branch site c thens elses :: rest) q := by
  rcases h with rfl | ⟨hlocation, hprefix⟩
  · exact .inr ⟨by simp, List.prefix_rfl⟩
  · exact .inr ⟨by simp [hlocation], hprefix⟩

/-- A branch speaks about all points of its second block. -/
theorem InBlock.of_elses
    (h : InBlock ι ⟨Timeline.rightEnd site.location, ι⟩ elses q) :
    InBlock ι stop (.branch site c thens elses :: rest) q := by
  rcases h with rfl | ⟨hlocation, hprefix⟩
  · exact .inr ⟨by simp, List.prefix_rfl⟩
  · exact .inr ⟨by simp [hlocation], hprefix⟩

/-- A loop speaks about its head in every iteration. -/
theorem inBlock_head (i : Nat) :
    InBlock ι stop (.loop site enclosing c body :: rest) ⟨site.location, ι ++ [i]⟩ :=
  .inr ⟨by simp, by simp⟩

/-- A loop speaks about all points of its body, in every iteration. -/
theorem InBlock.of_body {i : Nat} (h : InBlock (ι ++ [i]) ⟨site.location, ι ++ [i + 1]⟩ body q) :
    InBlock ι stop (.loop site enclosing c body :: rest) q := by
  rcases h with rfl | ⟨hlocation, hprefix⟩
  · exact inBlock_head (i + 1)
  · exact .inr ⟨by simp [hlocation], (List.prefix_append ι [i]).trans hprefix⟩

end

/-- What a chronicle obeys is obeyed by every other one whose stores, at the points in question, are
images of its own. The image has to commute with assignments and conditions in scope. -/
theorem BlockObeys.transfer {C C' : Chronicle} (image : Store → Store) {vars : List Variable}
    (hassign : ∀ (σ : Store) (target : Target Variable) (value : IntExpr Variable),
      target.Scoped vars → value.Scoped vars →
      image (σ.assign target value) = (image σ).assign target value)
    (htest : ∀ (σ : Store) (c : BoolExpr Variable), c.Scoped vars → (image σ).test c = σ.test c)
    {b : List Statement} {loops : List String} {ι : List Nat} {stop : Point}
    (hb : BlockFormed vars loops b)
    (hstore : ∀ q, InBlock ι stop b q → C'.storeAt q = image (C.storeAt q))
    (hmoment : ∀ q q', InBlock ι stop b q → InBlock ι stop b q' → C.moment q = C.moment q' →
      C'.moment q = C'.moment q')
    (hlast : ∀ location ∈ blockLoops b, ∀ ι', ι <+: ι' →
      C'.last location ι' = C.last location ι')
    (h : C.BlockObeys ι stop b) : C'.BlockObeys ι stop b := by
  induction b using Statement.blockInduction generalizing loops ι stop with
  | nil => trivial
  | assign site target value rest ih =>
    obtain ⟨⟨htarget, hvalue⟩, hrest⟩ := hb
    obtain ⟨hstep, hobeys⟩ := h
    have hstart : InBlock ι stop (.assign site target value :: rest) ⟨site.location, ι⟩ :=
      inBlock_blockStart
    refine ⟨?_, ih hrest (fun q hq => hstore q hq.of_rest)
      (fun q q' hq hq' => hmoment q q' hq.of_rest hq'.of_rest)
      (fun l hl => hlast l (by simp [hl])) hobeys⟩
    rw [Obeys, hstore _ inBlock_blockStart.of_rest, hstore _ hstart, hstep,
      hassign _ _ _ htarget hvalue]
  | skip site rest ih =>
    obtain ⟨_, hrest⟩ := hb
    obtain ⟨hstep, hobeys⟩ := h
    have hstart : InBlock ι stop (.skip site :: rest) ⟨site.location, ι⟩ := inBlock_blockStart
    refine ⟨?_, ih hrest (fun q hq => hstore q hq.of_rest)
      (fun q q' hq hq' => hmoment q q' hq.of_rest hq'.of_rest)
      (fun l hl => hlast l (by simp [hl])) hobeys⟩
    exact hmoment _ _ hstart inBlock_blockStart.of_rest hstep
  | branch site c thens elses rest ihthens ihelses ih =>
    obtain ⟨⟨hc, ⟨_, hthens⟩, _, helses⟩, hrest⟩ := hb
    obtain ⟨⟨⟨hleft, hright⟩, hselect, hobeysThens, hobeysElses⟩, hobeys⟩ := h
    have hstart : InBlock ι stop (.branch site c thens elses :: rest) ⟨site.location, ι⟩ :=
      inBlock_blockStart
    refine ⟨⟨⟨?_, ?_⟩, ?_, ?_, ?_⟩, ih hrest (fun q hq => hstore q hq.of_rest)
      (fun q q' hq hq' => hmoment q q' hq.of_rest hq'.of_rest)
      (fun l hl => hlast l (by simp [hl])) hobeys⟩
    · rw [hstore _ inBlock_blockStart.of_thens, hleft, hstore _ hstart]
    · rw [hstore _ inBlock_blockStart.of_elses, hright, hstore _ hstart]
    · rw [hstore _ inBlock_blockStart.of_rest, hselect, hstore _ hstart, htest _ _ hc,
        hstore _ inBlock_stop.of_thens, hstore _ inBlock_stop.of_elses, apply_ite image]
    · exact ihthens hthens (fun q hq => hstore q hq.of_thens)
        (fun q q' hq hq' => hmoment q q' hq.of_thens hq'.of_thens)
        (fun l hl => hlast l (by simp [hl])) hobeysThens
    · exact ihelses helses (fun q hq => hstore q hq.of_elses)
        (fun q q' hq hq' => hmoment q q' hq.of_elses hq'.of_elses)
        (fun l hl => hlast l (by simp [hl])) hobeysElses
  | loop site enclosing c body rest ihbody ih =>
    obtain ⟨⟨_, hc, _, hbody⟩, hrest⟩ := hb
    obtain ⟨⟨hentry, hinside, hruns, hends, hexit⟩, hobeys⟩ := h
    -- both leave the loop in the same iteration, so the clauses about it carry over one by one
    have hn : C'.last site.location ι = C.last site.location ι :=
      hlast _ (by simp) _ List.prefix_rfl
    refine ⟨⟨?_, ?_, ?_, ?_, ?_⟩, ih hrest (fun q hq => hstore q hq.of_rest)
      (fun q q' hq hq' => hmoment q q' hq.of_rest hq'.of_rest)
      (fun l hl => hlast l (by simp [hl])) hobeys⟩
    · intro i
      rw [hstore _ inBlock_blockStart.of_body, hentry i, hstore _ (inBlock_head i)]
    · intro i
      exact ihbody hbody (fun q hq => hstore q hq.of_body)
        (fun q q' hq hq' => hmoment q q' hq.of_body hq'.of_body)
        (fun l hl ι' hι' => hlast l (by simp [hl]) ι' ((List.prefix_append ι [i]).trans hι'))
        (hinside i)
    · intro i hi
      rw [hstore _ (inBlock_head i), htest _ _ hc]
      exact hruns i (hn ▸ hi)
    · rw [hn, hstore _ (inBlock_head _), htest _ _ hc]
      exact hends
    · rw [hn, hstore _ inBlock_blockStart.of_rest, hexit, hstore _ (inBlock_head _)]

/-- Chronicles that agree at the points of a block and on its loops obey the same blocks. -/
theorem blockObeys_congr {C C' : Chronicle} {vars : List Variable} {loops : List String}
    {b : List Statement} {ι : List Nat} {stop : Point} (hb : BlockFormed vars loops b)
    (hstore : ∀ q, InBlock ι stop b q → C'.storeAt q = C.storeAt q)
    (hmoment : ∀ q, InBlock ι stop b q → C'.moment q = C.moment q)
    (hlast : ∀ location ∈ blockLoops b, ∀ ι', ι <+: ι' →
      C'.last location ι' = C.last location ι') :
    C'.BlockObeys ι stop b ↔ C.BlockObeys ι stop b := by
  constructor
  · refine BlockObeys.transfer (fun σ => σ) (fun _ _ _ _ _ => rfl) (fun _ _ _ => rfl) hb
      (fun q hq => (hstore q hq).symm) (fun q q' hq hq' hsame => ?_)
      (fun location hl ι' hι' => (hlast location hl ι' hι').symm)
    rwa [← hmoment q hq, ← hmoment q' hq']
  · refine BlockObeys.transfer (fun σ => σ) (fun _ _ _ _ _ => rfl) (fun _ _ _ => rfl) hb hstore
      (fun q q' hq hq' hsame => ?_) hlast
    rwa [hmoment q hq, hmoment q' hq']

end Chronicle

end TraceLogic
