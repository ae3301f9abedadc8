import TraceLogic.Proofs.Schedule
import Mathlib.Data.List.Induction

/-!
# The history of a vocabulary

Requests reach a vocabulary on their own or as parts of operations, and an operation ends at the
first of its requests that is refused. What operations have asked for, taken together, is the
history of the vocabulary.

One request does little: `Vocabulary.mem_symbols_after` says which symbols are there after it. So a
name stands for the symbol that was granted first under it, and `Vocabulary.orderly_of_calls` says
how every request of every history is answered.
-/

namespace TraceLogic

open Construction

/-- An operation on a vocabulary, whatever it comes to. -/
structure Call where
  {Result : Type}
  construction : Construction Result

namespace Vocabulary

variable {v w : Vocabulary} {r : Request} {f g : Symbol}

/-- The vocabulary that a request leaves. -/
def after (v : Vocabulary) (r : Request) : Vocabulary := (v.serveAll [r]).2

/-- The vocabulary that requests leave, whatever comes of each of them. -/
def afterAll (v : Vocabulary) (rs : List Request) : Vocabulary := rs.foldl after v

/-- The requests that are made if the first one that is refused ends them. -/
def made (v : Vocabulary) : List Request → List Request
  | [] => []
  | r :: rs =>
    match v.serve r with
    | .ok w => r :: w.made rs
    | .error _ => [r]

/-- The vocabulary that operations leave. One that fails does not keep the next from being run. -/
def afterCalls (v : Vocabulary) : List Call → Vocabulary
  | [] => v
  | c :: cs => (c.construction.run v).2.afterCalls cs

/-- The requests that operations make. -/
def history (v : Vocabulary) : List Call → List Request
  | [] => []
  | c :: cs => v.made c.construction.requests ++ (c.construction.run v).2.history cs

/-! ## One request -/

/-- A request that is granted is one that is not refused, and it leaves the next vocabulary. -/
theorem serve_eq_ok_iff : v.serve r = .ok w ↔ v.refusal? r = none ∧ v.after r = w := by
  unfold refusal? after serveAll
  cases v.serve r <;> simp [serveAll]

/-- A refused request changes nothing. -/
theorem after_of_refusal (h : v.refusal? r ≠ none) : v.after r = v := by
  unfold refusal? at h
  unfold after serveAll
  cases hserve : v.serve r with
  | ok w => simp [hserve] at h
  | error fault => rfl

/-- A request that is not refused is granted. -/
theorem serve_of_refusal (h : v.refusal? r = none) : v.serve r = .ok (v.after r) :=
  serve_eq_ok_iff.mpr ⟨h, rfl⟩

/-- What holds before a request and after it, should it be granted, holds after it. -/
theorem after_induction {P : Vocabulary → Prop} (hv : P v)
    (hserve : ∀ w, v.serve r = .ok w → P w) : P (v.after r) := by
  by_cases h : v.refusal? r = none
  · exact hserve _ (serve_of_refusal h)
  · rwa [after_of_refusal h]

/-- A request takes nothing away, whether it is granted or not. -/
theorem extends_after (v : Vocabulary) (r : Request) : v.Extends (v.after r) :=
  after_induction (.refl v) fun _ h => extends_of_serve h

/-- A request keeps a vocabulary distinct, whether it is granted or not. -/
theorem Distinct.after (hv : v.Distinct) (r : Request) : (v.after r).Distinct :=
  after_induction hv fun _ h => hv.of_serve h

/-- A symbol is there after a request if it was there before, or if the request was for it and has
been granted. -/
theorem mem_symbols_after :
    f ∈ (v.after r).symbols ↔ f ∈ v.symbols ∨ r = .symbol f ∧ v.refusal? r = none := by
  constructor
  · intro hf
    by_cases h : v.refusal? r = none
    · have hasked := (asked_of_serve (serve_of_refusal h)).2 f hf
      exact hasked.imp_right fun hr => ⟨hr, h⟩
    · rw [after_of_refusal h] at hf
      exact .inl hf
  · rintro (hf | ⟨rfl, h⟩)
    · exact (extends_after v r).symbols.subset hf
    · exact (lookup?_eq_some (grants_of_serve (serve_of_refusal h))).1

/-- A request for a symbol is refused if and only if its name stands for another one. -/
theorem refusal?_symbol_iff (f : Symbol) :
    v.refusal? (.symbol f) ≠ none ↔ ∃ g, v.lookup? f.name = some g ∧ g ≠ f := by
  rcases addSymbol_cases v f with ⟨hnone, heq⟩ | ⟨hsome, heq⟩ | ⟨g, hg, hne, heq⟩
  · simp [refusal?, serve, heq, hnone]
  · simp [refusal?, serve, heq, hsome]
  · simpa [refusal?, serve, heq, hg] using hne

/-- A request for a symbol on its own comes to that symbol, unless it is refused. -/
theorem run_symbol_of_refusal (h : v.refusal? (.symbol f) = none) :
    (Construction.symbol f).run v = (.ok f, v.after (.symbol f)) := by
  have hserve := serve_of_refusal h
  exact run_eq_ok.mpr ⟨rfl, by simp [Construction.symbol, serveAll, hserve]⟩

/-! ## Many requests -/

/-- No requests leave the vocabulary as it is. -/
@[simp]
theorem afterAll_nil (v : Vocabulary) : v.afterAll [] = v := rfl

/-- Requests are made one after the other. -/
@[simp]
theorem afterAll_cons (v : Vocabulary) (r : Request) (rs : List Request) :
    v.afterAll (r :: rs) = (v.after r).afterAll rs := rfl

/-- Two lists of requests are made one after the other. -/
theorem afterAll_append (v : Vocabulary) (rs qs : List Request) :
    v.afterAll (rs ++ qs) = (v.afterAll rs).afterAll qs :=
  List.foldl_append

/-- The last request is made on what all others leave. -/
theorem afterAll_concat (v : Vocabulary) (rs : List Request) (r : Request) :
    v.afterAll (rs ++ [r]) = (v.afterAll rs).after r :=
  afterAll_append v rs [r]

/-- Requests take nothing away. -/
theorem extends_afterAll (v : Vocabulary) (rs : List Request) : v.Extends (v.afterAll rs) := by
  induction rs generalizing v with
  | nil => exact .refl v
  | cons r rs ih => exact (extends_after v r).trans (ih (v.after r))

/-- Requests keep a vocabulary distinct. -/
theorem Distinct.afterAll (hv : v.Distinct) (rs : List Request) : (v.afterAll rs).Distinct := by
  induction rs generalizing v with
  | nil => exact hv
  | cons r rs ih => exact ih (hv.after r)

/-- Requests that are served up to the first that is refused leave what the requests made leave. -/
theorem afterAll_made (v : Vocabulary) (rs : List Request) :
    v.afterAll (v.made rs) = (v.serveAll rs).2 := by
  induction rs generalizing v with
  | nil => rfl
  | cons r rs ih =>
    cases hserve : v.serve r with
    | ok w =>
      have hafter : v.after r = w := (serve_eq_ok_iff.mp hserve).2
      simp [made, serveAll, hserve, hafter, ih]
    | error fault => simp [made, after, serveAll, hserve]

/-- Operations leave what the requests that they make leave. -/
theorem afterAll_history (v : Vocabulary) (calls : List Call) :
    v.afterAll (v.history calls) = v.afterCalls calls := by
  induction calls generalizing v with
  | nil => rfl
  | cons c cs ih =>
    have hrun : (c.construction.run v).2 = (v.serveAll c.construction.requests).2 := by
      unfold run
      rcases v.serveAll c.construction.requests with ⟨_ | fault, w⟩ <;> rfl
    rw [history, afterAll_append, afterAll_made, ← hrun, ih, afterCalls]

/-! ## Histories -/

/-- Whether a symbol has been granted in the course of requests to the initial vocabulary. -/
def GrantedIn (history : List Request) (f : Symbol) : Prop :=
  ∃ earlier later, history = earlier ++ .symbol f :: later ∧
    (initial.afterAll earlier).refusal? (.symbol f) = none

/-- The symbols that are there have been granted. -/
theorem mem_symbols_iff_grantedIn (history : List Request) :
    f ∈ (initial.afterAll history).symbols ↔ GrantedIn history f := by
  induction history using List.reverseRecOn with
  | nil => simp [GrantedIn, initial]
  | append_singleton history r ih =>
    rw [afterAll_concat, mem_symbols_after, ih]
    constructor
    · rintro (⟨earlier, later, rfl, hgranted⟩ | ⟨rfl, hgranted⟩)
      · exact ⟨earlier, later ++ [r], by simp, hgranted⟩
      · exact ⟨history, [], rfl, hgranted⟩
    · rintro ⟨earlier, later, hsplit, hgranted⟩
      rcases List.eq_nil_or_concat later with rfl | ⟨later, last, rfl⟩
      · obtain ⟨rfl, hr⟩ := List.append_inj' hsplit rfl
        cases hr
        exact .inr ⟨rfl, hgranted⟩
      · have hsplit : history ++ [r] = (earlier ++ .symbol f :: later) ++ [last] := by
          simpa using hsplit
        obtain ⟨rfl, -⟩ := List.append_inj' hsplit rfl
        exact .inl ⟨earlier, later, rfl, hgranted⟩

/-- Whether names are keys: no name is listed twice, and looking a name up finds what is listed
under it. -/
structure Keyed (v : Vocabulary) : Prop where
  sortNames : (v.sorts.map (·.name)).Nodup
  symbolNames : (v.symbols.map (·.name)).Nodup
  lookup : ∀ name f, v.lookup? name = some f ↔ f ∈ v.symbols ∧ f.name = name

/-- In a distinct vocabulary, the symbol that is found under a name is the one that has the name. -/
theorem Distinct.lookup?_iff (hv : v.Distinct) {name : String} :
    v.lookup? name = some f ↔ f ∈ v.symbols ∧ f.name = name := by
  refine ⟨lookup?_eq_some, fun ⟨hf, hname⟩ => ?_⟩
  cases hlookup : v.lookup? name with
  | none => exact absurd hname (lookup?_eq_none.mp hlookup f hf)
  | some g =>
    obtain ⟨hg, hgname⟩ := lookup?_eq_some hlookup
    rw [hv.coherent g hg f hf (hgname.trans hname.symm)]

/-- In a distinct vocabulary, everything is found under its name. -/
theorem Distinct.keyed (hv : v.Distinct) : v.Keyed where
  sortNames := by
    refine hv.sorts.map ?_
    rintro ⟨s⟩ ⟨t⟩ hname
    exact congrArg SortSymbol.mk hname
  symbolNames := hv.names
  lookup _ _ := hv.lookup?_iff

/-- How the requests of a history are answered, from the initial vocabulary on. -/
structure Orderly (history : List Request) : Prop where
  /-- Nothing that is listed is lost or moved. -/
  grows : ∀ earlier later, history = earlier ++ later →
    (initial.afterAll earlier).Extends (initial.afterAll history)
  keyed : ∀ earlier later, history = earlier ++ later → (initial.afterAll earlier).Keyed
  /-- The solver's own sorts come first. -/
  builtin : ∀ earlier later, history = earlier ++ later →
    [.int, .bool] <+: (initial.afterAll earlier).sorts
  /-- A request for a symbol is refused if and only if its name has been granted with another
  signature. -/
  refused_iff : ∀ earlier f later, history = earlier ++ .symbol f :: later →
    ((initial.afterAll earlier).refusal? (.symbol f) ≠ none ↔
      ∃ g, GrantedIn earlier g ∧ g.name = f.name ∧
        (g.domain ≠ f.domain ∨ g.range ≠ f.range ∨ g.interpreted ≠ f.interpreted))
  refused : ∀ earlier f later, history = earlier ++ .symbol f :: later →
    (initial.afterAll earlier).refusal? (.symbol f) ≠ none →
    initial.afterAll (earlier ++ [.symbol f]) = initial.afterAll earlier
  /-- A symbol that is granted is the one asked for, and its name stands for it from then on. -/
  granted : ∀ earlier f later, history = earlier ++ .symbol f :: later →
    (initial.afterAll earlier).refusal? (.symbol f) = none →
    (Construction.symbol f).run (initial.afterAll earlier) =
        (.ok f, initial.afterAll (earlier ++ [.symbol f])) ∧
      ∀ since, (initial.afterAll (earlier ++ .symbol f :: since)).lookup? f.name = some f

/-- Two symbols of one name are different if their signatures are. -/
theorem differs_iff (hname : g.name = f.name) :
    (g.domain ≠ f.domain ∨ g.range ≠ f.range ∨ g.interpreted ≠ f.interpreted) ↔ g ≠ f := by
  rw [ne_eq g, Symbol.eq_iff_sameSignature hname]
  simp only [Symbol.sameSignature, Bool.and_eq_true, decide_eq_true_eq]
  tauto

/-- The first symbol that is granted under a name keeps the name. -/
theorem refusal?_symbol_iff_grantedIn (history : List Request) (f : Symbol) :
    (initial.afterAll history).refusal? (.symbol f) ≠ none ↔
      ∃ g, GrantedIn history g ∧ g.name = f.name ∧
        (g.domain ≠ f.domain ∨ g.range ≠ f.range ∨ g.interpreted ≠ f.interpreted) := by
  have hdistinct := distinct_initial.afterAll history
  rw [refusal?_symbol_iff]
  refine exists_congr fun g => ?_
  rw [hdistinct.lookup?_iff, mem_symbols_iff_grantedIn, and_assoc]
  exact and_congr_right fun _ => and_congr_right fun hname => (differs_iff hname).symm

/-- A symbol that has been granted is found ever after. -/
theorem lookup?_of_granted {earlier : List Request}
    (h : (initial.afterAll earlier).refusal? (.symbol f) = none) (since : List Request) :
    (initial.afterAll (earlier ++ .symbol f :: since)).lookup? f.name = some f := by
  have hgrants : ((initial.afterAll earlier).after (.symbol f)).Grants (.symbol f) :=
    grants_of_serve (serve_of_refusal h)
  rw [afterAll_append, afterAll_cons]
  exact (extends_afterAll _ since).lookup? hgrants

/-- Whatever operations are run on the initial vocabulary: they leave what the requests that they
make leave one by one, and every one of these requests is answered in order. -/
theorem orderly_of_calls (calls : List Call) :
    initial.afterCalls calls = initial.afterAll (initial.history calls) ∧
      Orderly (initial.history calls) := by
  refine ⟨(afterAll_history initial calls).symm, ?_⟩
  generalize initial.history calls = history
  constructor
  case grows =>
    rintro earlier later rfl
    rw [afterAll_append]
    exact extends_afterAll _ later
  case keyed => exact fun earlier _ _ => (distinct_initial.afterAll earlier).keyed
  case builtin => exact fun earlier _ _ => (extends_afterAll initial earlier).sorts
  case refused_iff => exact fun earlier f _ _ => refusal?_symbol_iff_grantedIn earlier f
  case refused =>
    intro earlier f _ _ hrefused
    rw [afterAll_concat, after_of_refusal hrefused]
  case granted =>
    intro earlier f _ _ hgranted
    rw [afterAll_concat]
    exact ⟨run_symbol_of_refusal hgranted, lookup?_of_granted hgranted⟩

-- a sum cannot be built once its operator is the name of a constant, but more can be asked for
example :
    initial.history [⟨.symbol ⟨"int_plus", [], .int, false⟩⟩,
        ⟨Interpreted.arith .add default default⟩, ⟨.sort .trace⟩] =
      [.symbol ⟨"int_plus", [], .int, false⟩, .sort .int, .sort .int, .sort .int,
        .symbol (Interpreted.arithSymbol .add), .sort .trace] := by
  decide +kernel

end Vocabulary

end TraceLogic
