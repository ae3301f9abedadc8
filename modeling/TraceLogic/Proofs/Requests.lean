import TraceLogic.Proofs.Location
import TraceLogic.Proofs.Notion
import Mathlib.Data.List.Forall2

/-!
# What constructions ask for

A family of constructions, one for each mode, is uniform if it always succeeds and asks for the
symbols of the same notions in every mode. The sorts of a symbol are asked for with it. Uniform
families compose like constructions do.
-/

namespace TraceLogic

/-- A symbol can be applied to arguments of its sorts. -/
theorem Term.app?_of_sorts {f : Symbol} {ts : List Term} (h : ts.map sort = f.domain) :
    app? f ts = .ok (.app f ts) := by
  rw [app?, misfit_eq_none_iff.mpr h]

/-- A predicate can be applied to arguments of its sorts. -/
theorem Formula.predicate?_of_sorts {f : Symbol} {ts : List Term} (hf : f.range = .bool)
    (h : ts.map Term.sort = f.domain) : predicate? f ts = .ok (.predicate f ts) := by
  have hp : f.isPredicate = true := by simpa [Symbol.isPredicate] using hf
  rw [predicate?, if_pos hp, Term.misfit_eq_none_iff.mpr h]

namespace Construction

variable {α β : Type} {ask : Notion → Prop} {P : α → Prop} {Q : β → Prop}

/-- Whether requests name the sorts of all their symbols, and no sorts but those of a mode. -/
structure Grounded (mode : TraceMode) (rs : List Request) : Prop where
  sorts : ∀ s, .sort s ∈ rs → s ∈ mode.sorts
  symbols : ∀ f, .symbol f ∈ rs → ∀ s ∈ f.range :: f.domain, .sort s ∈ rs

namespace Grounded

variable {mode : TraceMode}

/-- No requests name no sorts. -/
theorem nil : Grounded mode [] := ⟨by simp, by simp⟩

/-- Requests that name their sorts do so together. -/
theorem append {rs qs : List Request} (hr : Grounded mode rs) (hq : Grounded mode qs) :
    Grounded mode (rs ++ qs) := by
  constructor
  · intro s hs
    exact (List.mem_append.mp hs).elim (hr.sorts s) (hq.sorts s)
  · intro f hf s hs
    rcases List.mem_append.mp hf with hf | hf
    · exact List.mem_append_left _ (hr.symbols f hf s hs)
    · exact List.mem_append_right _ (hq.symbols f hf s hs)

/-- Requests for sorts alone. -/
theorem of_sorts {sorts : List SortSymbol} (h : ∀ s ∈ sorts, s ∈ mode.sorts) :
    Grounded mode (sorts.map .sort) := by
  constructor
  · intro s hs
    obtain ⟨t, ht, heq⟩ := List.mem_map.mp hs
    cases heq
    exact h _ ht
  · intro f hf
    simp at hf

/-- Asking for a notion names the sorts of its symbol first. -/
theorem declare (n : Notion) : Grounded mode (Construction.declare (n.symbol mode)).requests := by
  have hsorts := n.sorts_symbol mode
  generalize n.symbol mode = f at hsorts
  have hrequests (s : SortSymbol) : .sort s ∈ (Construction.declare f).requests ↔
      s ∈ f.range :: f.domain := by
    simp [Construction.declare, or_comm]
  refine ⟨fun s hs => hsorts s ((hrequests s).mp hs), fun g hg s hs => ?_⟩
  have hg := mem_symbolsOf.mpr hg
  rw [symbolsOf_declare, List.mem_singleton] at hg
  exact (hrequests s).mpr (hg ▸ hs)

end Grounded

/-- Whether constructions, one for each mode, succeed with values of a kind and ask for the same
notions, all of which they may ask for. -/
def Uniform (ask : Notion → Prop) (c : TraceMode → Construction α) (P : α → Prop) : Prop :=
  ∃ notions : List Notion, (∀ n ∈ notions, ask n) ∧ ∀ mode,
    (symbolsOf (c mode).requests = notions.map (Notion.symbol mode) ∧
      Grounded mode (c mode).requests) ∧ ∃ a, (c mode).outcome = .ok a ∧ P a

namespace Uniform

/-- A value asks for nothing in any mode. -/
theorem pure {a : TraceMode → α} (h : ∀ mode, P (a mode)) :
    Uniform ask (fun mode => Pure.pure (a mode)) P :=
  ⟨[], by simp, fun mode => ⟨⟨rfl, .nil⟩, a mode, rfl, h mode⟩⟩

/-- A step that asks for nothing and does not fail is uniform. -/
theorem ofExcept {e : TraceMode → Except Fault α} (h : ∀ mode, ∃ a, e mode = .ok a ∧ P a) :
    Uniform ask (fun mode => Construction.ofExcept (e mode)) P :=
  ⟨[], by simp, fun mode => ⟨⟨rfl, .nil⟩, h mode⟩⟩

/-- Asks for nothing but sorts. -/
theorem sorts {sorts : TraceMode → List SortSymbol} (hsorts : ∀ mode, sorts mode ⊆ mode.sorts)
    {a : TraceMode → α} (h : ∀ mode, P (a mode)) :
    Uniform ask (fun mode => ⟨(sorts mode).map .sort, .ok (a mode)⟩) P :=
  ⟨[], by simp, fun mode => ⟨⟨symbolsOf_sorts (fun s => s) (sorts mode),
    .of_sorts fun _ hs => hsorts mode hs⟩, a mode, rfl, h mode⟩⟩

/-- The second family may use the values of the first one, each in its own mode. -/
theorem bind {c : TraceMode → Construction α} {next : TraceMode → α → Construction β}
    (hc : Uniform ask c P) (hnext : ∀ a : TraceMode → α, (∀ mode, P (a mode)) →
      Uniform ask (fun mode => next mode (a mode)) Q) :
    Uniform ask (fun mode => c mode >>= next mode) Q := by
  obtain ⟨notions, hask, hc⟩ := hc
  choose a ha hP using fun mode => (hc mode).2
  obtain ⟨later, hlater, hnext⟩ := hnext a hP
  refine ⟨notions ++ later, ?_, fun mode => ?_⟩
  · intro n hn
    exact (List.mem_append.mp hn).elim (hask n) (hlater n)
  · obtain ⟨⟨hsymbols, hgrounded⟩, _⟩ := hc mode
    obtain ⟨⟨hlaterSymbols, hlaterGrounded⟩, b, hb, hQ⟩ := hnext mode
    have hrequests : (c mode >>= next mode).requests =
        (c mode).requests ++ (next mode (a mode)).requests := by
      rw [requests_bind, ha mode]
    rw [hrequests]
    refine ⟨⟨?_, hgrounded.append hlaterGrounded⟩, b, ?_, hQ⟩
    · rw [symbolsOf_append, hsymbols, hlaterSymbols, List.map_append]
    · exact outcome_bind_eq_ok.mpr ⟨a mode, ha mode, hb⟩

/-- The values of a family are its outcomes. -/
theorem outcome {c : TraceMode → Construction α} (hc : Uniform ask c P) :
    Uniform ask c (fun a => ∃ mode, (c mode).outcome = .ok a) := by
  obtain ⟨notions, hask, hc⟩ := hc
  refine ⟨notions, hask, fun mode => ⟨(hc mode).1, ?_⟩⟩
  obtain ⟨a, ha, _⟩ := (hc mode).2
  exact ⟨a, ha, mode, ha⟩

/-- A construction that does not depend on the mode has one value. -/
theorem bind_const {c : Construction α} {next : TraceMode → α → Construction β}
    (hc : Uniform ask (fun _ => c) P) (hnext : ∀ a, c.outcome = .ok a → P a →
      Uniform ask (fun mode => next mode a) Q) :
    Uniform ask (fun mode => c >>= next mode) Q := by
  obtain ⟨notions, hask, hc⟩ := hc
  obtain ⟨a, ha, hP⟩ := (hc .one).2
  refine bind (P := (· = a)) ⟨notions, hask, fun mode => ⟨(hc mode).1, a, ha, rfl⟩⟩ ?_
  intro b hb
  simp only [hb]
  exact hnext a ha hP

/-- A step that is uniform for every element of a list is uniform for the list. -/
theorem each {make : TraceMode → α → Construction β} {as : List α} {R : α → β → Prop}
    (h : ∀ a ∈ as, Uniform ask (fun mode => make mode a) (R a)) :
    Uniform ask (fun mode => Construction.each (make mode) as) (List.Forall₂ R as) := by
  induction as with
  | nil => exact pure fun _ => .nil
  | cons a as ih =>
    obtain ⟨ha, has⟩ := List.forall_mem_cons.mp h
    refine bind ha fun b hb => bind (ih has) fun bs hbs => pure fun mode => ?_
    exact .cons (hb mode) (hbs mode)

/-- Asking for a notion asks for the same one in both modes. -/
theorem declare {n : Notion} (hn : ask n) :
    Uniform ask (fun mode => Construction.declare (n.symbol mode))
      (fun f => ∃ mode, f = n.symbol mode) := by
  refine ⟨[n], by simpa using hn, fun mode => ⟨⟨?_, .declare n⟩, n.symbol mode, rfl, mode, rfl⟩⟩
  rw [symbolsOf_declare, List.map_singleton]

/-- The symbol of a notion is applied to arguments that fit it. -/
theorem apply {n : Notion} (hn : ask n) {ts : TraceMode → List Term} {s : SortSymbol}
    (hsorts : ∀ mode, (ts mode).map Term.sort = (n.symbol mode).domain)
    (hrange : ∀ mode, (n.symbol mode).range = s) :
    Uniform ask (fun mode => Construction.apply (n.symbol mode) (ts mode))
      (fun t => t.sort = s) := by
  refine ⟨[n], by simpa using hn, fun mode => ⟨⟨symbolsOf_declare _, .declare n⟩, ?_⟩⟩
  exact ⟨.app (n.symbol mode) (ts mode), Term.app?_of_sorts (hsorts mode), hrange mode⟩

/-- A predicate of the solver is applied to arguments that fit it. -/
theorem holds {o : Operation} (ho : ask (.operation o)) (hpredicate : o.symbol.range = .bool)
    {ts : TraceMode → List Term} (hsorts : ∀ mode, (ts mode).map Term.sort = o.symbol.domain) :
    Uniform ask (fun mode => Construction.holds o.symbol (ts mode)) (fun _ => True) := by
  refine ⟨[.operation o], by simpa using ho,
    fun mode => ⟨⟨symbolsOf_declare _, .declare (.operation o)⟩, ?_⟩⟩
  exact ⟨.predicate o.symbol (ts mode), Formula.predicate?_of_sorts hpredicate (hsorts mode),
    trivial⟩

end Uniform

end Construction

end TraceLogic
