import TraceLogic.Logic.Construction
import Mathlib.Data.List.Nodup

/-!
# Granting requests

A request for a symbol adds the symbol, finds it, or fails because its name stands for another one:
`Vocabulary.addSymbol_cases`. All else about vocabularies follows from these three cases. What has
been granted stays granted, no name stands for two symbols, and requests are granted as long as none
is asked to: `Vocabulary.serveAll_eq_none_iff`. The order of the requests does not matter for that.
-/

namespace TraceLogic

/-- The symbol that a request is for, if it is for one. -/
def Request.symbol? : Request → Option Symbol
  | .sort _ => none
  | .symbol s => some s

/-- The symbols among requests. -/
def symbolsOf (rs : List Request) : List Symbol := rs.filterMap Request.symbol?

/-- The symbols among requests are those that are asked for. -/
theorem mem_symbolsOf {rs : List Request} {f : Symbol} : f ∈ symbolsOf rs ↔ .symbol f ∈ rs := by
  rw [symbolsOf, List.mem_filterMap]
  constructor
  · rintro ⟨r, hr, hf⟩
    cases r with
    | sort s => cases hf
    | symbol g =>
      cases hf
      exact hr
  · exact fun h => ⟨_, h, rfl⟩

/-- The symbols among requests after requests. -/
@[simp]
theorem symbolsOf_append (rs qs : List Request) :
    symbolsOf (rs ++ qs) = symbolsOf rs ++ symbolsOf qs :=
  List.filterMap_append

/-- There are no symbols among requests for sorts. -/
@[simp]
theorem symbolsOf_sorts {α : Type} (f : α → SortSymbol) (as : List α) :
    symbolsOf (as.map fun a => .sort (f a)) = [] := by
  simp [symbolsOf, Request.symbol?]

/-- A declaration asks for one symbol, next to the sorts of its signature. -/
@[simp]
theorem symbolsOf_declare (f : Symbol) : symbolsOf (Construction.declare f).requests = [f] := by
  have hsorts := symbolsOf_sorts (fun s => s) f.domain
  rw [Construction.declare, symbolsOf_append, hsorts]
  rfl

/-- Whether every name stands for one symbol. -/
def Coherent (symbols : List Symbol) : Prop :=
  ∀ s ∈ symbols, ∀ t ∈ symbols, s.name = t.name → s = t

/-- Only the members of the list matter. -/
theorem Coherent.congr {ss ts : List Symbol} (h : ∀ s, s ∈ ss ↔ s ∈ ts) :
    Coherent ss ↔ Coherent ts := by
  simp only [Coherent, h]

namespace Symbol

/-- Symbols are equal if their names and their signatures are. -/
theorem eq_iff_sameSignature {s t : Symbol} (hname : s.name = t.name) :
    s = t ↔ s.sameSignature t = true := by
  obtain ⟨name, domain, range, interpreted⟩ := s
  obtain ⟨name', domain', range', interpreted'⟩ := t
  obtain rfl : name = name' := hname
  simp [sameSignature, and_assoc]

end Symbol

namespace Vocabulary

variable {v w : Vocabulary}

/-- A symbol that is found is listed, and has the name. -/
theorem lookup?_eq_some {name : String} {f : Symbol} (h : v.lookup? name = some f) :
    f ∈ v.symbols ∧ f.name = name :=
  ⟨List.mem_of_find?_eq_some h, by simpa using List.find?_some h⟩

/-- No symbol is found if and only if no symbol has the name. -/
theorem lookup?_eq_none {name : String} :
    v.lookup? name = none ↔ ∀ f ∈ v.symbols, f.name ≠ name := by
  simp [lookup?]

/-- A request for a symbol adds it, finds it, or fails because its name stands for another one. -/
theorem addSymbol_cases (v : Vocabulary) (f : Symbol) :
    (v.lookup? f.name = none ∧ v.addSymbol f = .ok { v with symbols := v.symbols ++ [f] }) ∨
      (v.lookup? f.name = some f ∧ v.addSymbol f = .ok v) ∨
      ∃ t, v.lookup? f.name = some t ∧ t ≠ f ∧ v.addSymbol f = .error (.signatureConflict t f) := by
  cases hlookup : v.lookup? f.name with
  | none => exact .inl ⟨rfl, by rw [addSymbol, hlookup]⟩
  | some t =>
    have hname : t.name = f.name := (lookup?_eq_some hlookup).2
    have hadd : v.addSymbol f =
        if t.sameSignature f then .ok v else .error (.signatureConflict t f) := by
      rw [addSymbol, hlookup]
    by_cases hsame : t.sameSignature f
    · obtain rfl := (Symbol.eq_iff_sameSignature hname).mpr hsame
      exact .inr (.inl ⟨rfl, hadd.trans (if_pos hsame)⟩)
    · have hne : t ≠ f := fun heq => hsame ((Symbol.eq_iff_sameSignature hname).mp heq)
      exact .inr (.inr ⟨t, rfl, hne, hadd.trans (if_neg hsame)⟩)

/-- Adding a sort adds that sort. -/
theorem mem_sorts_addSort {s t : SortSymbol} : t ∈ (v.addSort s).sorts ↔ t ∈ v.sorts ∨ t = s := by
  unfold addSort
  split
  · rename_i hs
    exact ⟨.inl, fun h => h.elim id fun heq => heq ▸ hs⟩
  · simp

/-- Adding a sort leaves the symbols as they are. -/
theorem symbols_addSort (v : Vocabulary) (s : SortSymbol) : (v.addSort s).symbols = v.symbols := by
  unfold addSort
  split <;> rfl

/-! ## What stays -/

/-- Whether a vocabulary has grown out of another one. -/
structure Extends (v w : Vocabulary) : Prop where
  sorts : v.sorts <+: w.sorts
  symbols : v.symbols <+: w.symbols

/-- A vocabulary has grown out of itself. -/
theorem Extends.refl (v : Vocabulary) : v.Extends v := ⟨List.prefix_rfl, List.prefix_rfl⟩

/-- Growing goes on from what has grown. -/
theorem Extends.trans {u : Vocabulary} (h : u.Extends v) (h' : v.Extends w) : u.Extends w :=
  ⟨h.sorts.trans h'.sorts, h.symbols.trans h'.symbols⟩

/-- Serving a request only adds to the vocabulary. -/
theorem extends_of_serve {r : Request} (h : v.serve r = .ok w) : v.Extends w := by
  cases r with
  | sort s =>
    cases h
    unfold addSort
    split
    · exact .refl v
    · exact ⟨List.prefix_append _ _, List.prefix_rfl⟩
  | symbol f =>
    change v.addSymbol f = .ok w at h
    rcases addSymbol_cases v f with ⟨_, heq⟩ | ⟨_, heq⟩ | ⟨t, _, _, heq⟩
    · cases heq.symm.trans h
      exact ⟨List.prefix_rfl, List.prefix_append _ _⟩
    · cases heq.symm.trans h
      exact .refl v
    · cases heq.symm.trans h

/-- Whether what a request asks for is there. -/
def Grants (v : Vocabulary) : Request → Prop
  | .sort s => s ∈ v.sorts
  | .symbol f => v.lookup? f.name = some f

/-- A symbol that is found is found in whatever has grown out of the vocabulary. -/
theorem Extends.lookup? (h : v.Extends w) {name : String} {f : Symbol}
    (hf : v.lookup? name = some f) : w.lookup? name = some f := by
  obtain ⟨later, hsymbols⟩ := h.symbols
  rw [Vocabulary.lookup?, ← hsymbols, List.find?_append]
  exact Option.or_eq_some_iff.mpr (.inl hf)

/-- What is granted stays granted as the vocabulary grows. -/
theorem Extends.grants (h : v.Extends w) {r : Request} (hr : v.Grants r) : w.Grants r := by
  cases r with
  | sort s => exact h.sorts.subset hr
  | symbol f => exact h.lookup? hr

/-- A request that is served is granted. -/
theorem grants_of_serve {r : Request} (h : v.serve r = .ok w) : w.Grants r := by
  cases r with
  | sort s =>
    cases h
    exact mem_sorts_addSort.mpr (.inr rfl)
  | symbol f =>
    change v.addSymbol f = .ok w at h
    rcases addSymbol_cases v f with ⟨hnone, heq⟩ | ⟨hsome, heq⟩ | ⟨t, _, _, heq⟩
    · cases heq.symm.trans h
      have hnew : v.symbols.find? (fun s => s.name = f.name) = none := hnone
      simp [Grants, lookup?, List.find?_append, hnew]
    · cases heq.symm.trans h
      exact hsome
    · cases heq.symm.trans h

/-- What has been granted is there in the end. -/
theorem serveAll_eq_none {rs : List Request} (h : v.serveAll rs = (none, w)) :
    v.Extends w ∧ ∀ r ∈ rs, w.Grants r := by
  induction rs generalizing v with
  | nil =>
    cases h
    exact ⟨.refl _, by simp⟩
  | cons r rs ih =>
    rw [serveAll] at h
    cases hserve : v.serve r with
    | error fault => simp [hserve] at h
    | ok u =>
      rw [hserve] at h
      obtain ⟨hextends, hgrants⟩ := ih h
      refine ⟨(extends_of_serve hserve).trans hextends, List.forall_mem_cons.mpr ⟨?_, hgrants⟩⟩
      exact hextends.grants (grants_of_serve hserve)

/-! ## What is there -/

/-- Whether nothing is listed twice. -/
structure Distinct (v : Vocabulary) : Prop where
  sorts : v.sorts.Nodup
  names : (v.symbols.map (·.name)).Nodup

/-- The vocabulary that everything starts from lists nothing twice. -/
theorem distinct_initial : initial.Distinct := ⟨by decide, List.nodup_nil⟩

/-- Serving a request lists nothing twice. -/
theorem Distinct.of_serve (hv : v.Distinct) {r : Request} (h : v.serve r = .ok w) :
    w.Distinct := by
  cases r with
  | sort s =>
    cases h
    unfold addSort
    split
    · exact hv
    · rename_i hs
      refine ⟨?_, hv.names⟩
      have hnew : ∀ t ∈ v.sorts, t ≠ s := by
        rintro t ht rfl
        exact hs ht
      rw [List.nodup_append]
      exact ⟨hv.sorts, List.nodup_singleton s, by simpa using hnew⟩
  | symbol f =>
    change v.addSymbol f = .ok w at h
    rcases addSymbol_cases v f with ⟨hnone, heq⟩ | ⟨_, heq⟩ | ⟨t, _, _, heq⟩
    · cases heq.symm.trans h
      refine ⟨hv.sorts, ?_⟩
      rw [List.map_append, List.nodup_append]
      exact ⟨hv.names, List.nodup_singleton _, by simpa using lookup?_eq_none.mp hnone⟩
    · cases heq.symm.trans h
      exact hv
    · cases heq.symm.trans h

/-- Serving requests lists nothing twice, also if one of them is refused. -/
theorem Distinct.of_serveAll (hv : v.Distinct) (rs : List Request) :
    (v.serveAll rs).2.Distinct := by
  induction rs generalizing v with
  | nil => exact hv
  | cons r rs ih =>
    rw [serveAll]
    cases hserve : v.serve r with
    | error fault => exact hv
    | ok u => exact ih (hv.of_serve hserve)

/-- Every name stands for one symbol if no name is listed twice. -/
theorem Distinct.coherent (hv : v.Distinct) : Coherent v.symbols :=
  fun _ hs _ ht hname => List.inj_on_of_nodup_map hv.names hs ht hname

/-- Nothing is there that has not been asked for. -/
theorem asked_of_serve {r : Request} (h : v.serve r = .ok w) :
    (∀ s ∈ w.sorts, s ∈ v.sorts ∨ r = .sort s) ∧
      ∀ f ∈ w.symbols, f ∈ v.symbols ∨ r = .symbol f := by
  cases r with
  | sort s =>
    cases h
    refine ⟨fun t ht => ?_, fun f hf => .inl (symbols_addSort v s ▸ hf)⟩
    exact (mem_sorts_addSort.mp ht).imp_right (congrArg _ ·.symm)
  | symbol f =>
    change v.addSymbol f = .ok w at h
    rcases addSymbol_cases v f with ⟨_, heq⟩ | ⟨_, heq⟩ | ⟨t, _, _, heq⟩
    · cases heq.symm.trans h
      refine ⟨fun s hs => .inl hs, fun g hg => ?_⟩
      exact (List.mem_append.mp hg).imp_right fun hg => by rw [List.mem_singleton.mp hg]
    · cases heq.symm.trans h
      exact ⟨fun s hs => .inl hs, fun g hg => .inl hg⟩
    · cases heq.symm.trans h

/-- Whatever is there after serving requests was there before or has been asked for. -/
theorem asked_of_serveAll (v : Vocabulary) (rs : List Request) :
    (∀ s ∈ (v.serveAll rs).2.sorts, s ∈ v.sorts ∨ .sort s ∈ rs) ∧
      ∀ f ∈ (v.serveAll rs).2.symbols, f ∈ v.symbols ∨ .symbol f ∈ rs := by
  induction rs generalizing v with
  | nil => exact ⟨fun s hs => .inl hs, fun f hf => .inl hf⟩
  | cons r rs ih =>
    rw [serveAll]
    cases hserve : v.serve r with
    | error fault => exact ⟨fun s hs => .inl hs, fun f hf => .inl hf⟩
    | ok u =>
      obtain ⟨hsorts, hsymbols⟩ := ih u
      obtain ⟨hfirstSorts, hfirstSymbols⟩ := asked_of_serve hserve
      constructor
      · intro s hs
        rcases hsorts s hs with hs | hs
        · exact (hfirstSorts s hs).imp_right (List.mem_cons.mpr <| .inl ·.symm)
        · exact .inr (List.mem_cons_of_mem _ hs)
      · intro f hf
        rcases hsymbols f hf with hf | hf
        · exact (hfirstSymbols f hf).imp_right (List.mem_cons.mpr <| .inl ·.symm)
        · exact .inr (List.mem_cons_of_mem _ hf)

/-! ## What fails -/

/-- A request fails because its name stands for another symbol. -/
theorem serve_eq_error {r : Request} {fault : Fault} (h : v.serve r = .error fault) :
    ∃ t ∈ v.symbols, ∃ f, r = .symbol f ∧ fault = .signatureConflict t f ∧ t.name = f.name ∧
      t ≠ f := by
  cases r with
  | sort s => cases h
  | symbol f =>
    change v.addSymbol f = .error fault at h
    rcases addSymbol_cases v f with ⟨_, heq⟩ | ⟨_, heq⟩ | ⟨t, ht, hne, heq⟩
    · cases heq.symm.trans h
    · cases heq.symm.trans h
    · cases heq.symm.trans h
      obtain ⟨ht, hname⟩ := lookup?_eq_some ht
      exact ⟨t, ht, f, rfl, rfl, hname, hne⟩

/-- Requests fail because one name is asked to stand for two symbols. -/
theorem serveAll_eq_some {rs : List Request} {fault : Fault}
    (h : (v.serveAll rs).1 = some fault) :
    ∃ t f, fault = .signatureConflict t f ∧ t ∈ v.symbols ++ symbolsOf rs ∧ f ∈ symbolsOf rs ∧
      t.name = f.name ∧ t ≠ f := by
  induction rs generalizing v with
  | nil => cases h
  | cons r rs ih =>
    rw [serveAll] at h
    cases hserve : v.serve r with
    | error other =>
      rw [hserve] at h
      cases h
      obtain ⟨t, ht, f, rfl, hfault, hname, hne⟩ := serve_eq_error hserve
      exact ⟨t, f, hfault, List.mem_append_left _ ht, mem_symbolsOf.mpr List.mem_cons_self, hname,
        hne⟩
    | ok u =>
      rw [hserve] at h
      obtain ⟨t, f, hfault, ht, hf, hname, hne⟩ := ih h
      refine ⟨t, f, hfault, ?_, ?_, hname, hne⟩
      · rw [List.mem_append, mem_symbolsOf] at ht ⊢
        rcases ht with ht | ht
        · exact ((asked_of_serve hserve).2 t ht).imp_right (List.mem_cons.mpr <| .inl ·.symm)
        · exact .inr (List.mem_cons_of_mem _ ht)
      · rw [mem_symbolsOf] at hf ⊢
        exact List.mem_cons_of_mem _ hf

/-- Requests are granted if and only if no name is asked to stand for two symbols. -/
theorem serveAll_eq_none_iff (hv : v.Distinct) (rs : List Request) :
    (v.serveAll rs).1 = none ↔ Coherent (v.symbols ++ symbolsOf rs) := by
  constructor
  · intro hnone
    obtain ⟨hextends, hgrants⟩ := serveAll_eq_none (Prod.ext hnone rfl)
    have hthere : ∀ f ∈ v.symbols ++ symbolsOf rs, f ∈ (v.serveAll rs).2.symbols := by
      intro f hf
      rcases List.mem_append.mp hf with hf | hf
      · exact hextends.symbols.subset hf
      · exact (lookup?_eq_some (hgrants _ (mem_symbolsOf.mp hf))).1
    exact fun s hs t ht => (hv.of_serveAll rs).coherent s (hthere s hs) t (hthere t ht)
  · intro hcoherent
    cases hserved : (v.serveAll rs).1 with
    | none => rfl
    | some fault =>
      obtain ⟨t, f, _, ht, hf, hname, hne⟩ := serveAll_eq_some hserved
      exact absurd (hcoherent t ht f (List.mem_append_right _ hf) hname) hne

end Vocabulary

namespace Construction

variable {α β : Type} {c : Construction α} {next : α → Construction β} {r : Request}

/-- What the first construction asks for is asked for. -/
theorem mem_requests_bind_left (h : r ∈ c.requests) : r ∈ (c >>= next).requests := by
  rw [requests_bind]
  cases c.outcome with
  | ok a => exact List.mem_append_left _ h
  | error fault => exact h

/-- What the second construction asks for is asked for if the first one succeeds. -/
theorem mem_requests_bind_right {a : α} (ha : c.outcome = .ok a) (h : r ∈ (next a).requests) :
    r ∈ (c >>= next).requests := by
  rw [requests_bind, ha]
  exact List.mem_append_right _ h

/-- What is asked for by a construction for one member of a list is asked for. -/
theorem mem_requests_each {make : α → Construction β} {as : List α} {bs : List β}
    (hok : (each make as).outcome = .ok bs) {a : α} (ha : a ∈ as) (h : r ∈ (make a).requests) :
    r ∈ (each make as).requests := by
  induction as generalizing bs with
  | nil => cases ha
  | cons first rest ih =>
    rw [each] at hok ⊢
    obtain ⟨b, hb, hok⟩ := outcome_bind_eq_ok.mp hok
    obtain ⟨bs, hbs, _⟩ := outcome_bind_eq_ok.mp hok
    rcases List.mem_cons.mp ha with rfl | ha
    · exact mem_requests_bind_left h
    · exact mem_requests_bind_right hb (mem_requests_bind_left (ih hbs ha))

/-- A construction that comes to a value does so from the initial vocabulary if no name is asked to
stand for two symbols. -/
theorem run_initial_eq_ok_iff {a : α} (h : c.outcome = .ok a) :
    (∃ b w, c.run .initial = (.ok b, w)) ↔ Coherent (symbolsOf c.requests) := by
  have hserved := Vocabulary.serveAll_eq_none_iff Vocabulary.distinct_initial c.requests
  rw [show Vocabulary.initial.symbols = [] from rfl, List.nil_append] at hserved
  rw [← hserved]
  simp only [run_eq_ok, h]
  constructor
  · rintro ⟨_, w, _, hw⟩
    rw [hw]
  · intro hnone
    exact ⟨a, _, rfl, Prod.ext hnone rfl⟩

/-- A run that succeeds has a value and a vocabulary. -/
theorem exists_run_eq_ok {v : Vocabulary} (h : (c.run v).1.isOk = true) :
    ∃ a w, c.run v = (.ok a, w) := by
  obtain ⟨a, ha⟩ := exists_eq_ok_of_isOk h
  exact ⟨a, (c.run v).2, Prod.ext ha rfl⟩

end Construction

end TraceLogic
