import TraceLogic.Proofs.Location
import TraceLogic.Proofs.Sexp
import TraceLogic.Proofs.Vocabulary

/-!
# Well-sorted formulas

A formula is well-sorted over a vocabulary if the vocabulary has its symbols, symbols are applied to
arguments of their sorts, both sides of an equation have one sort, and every variable is bound. The
variables that are in scope are listed with the innermost one first.

What a construction yields is well-sorted once everything that it asks for has been granted:
`Construction.Yields` says so, and composes like constructions do. That arguments fit is checked
when a symbol is applied, so nothing has to be assumed about the program here.
-/

namespace TraceLogic

namespace Term

mutual

/-- Whether a vocabulary has the symbols of a term, and they are applied to arguments of their
sorts. -/
def Sorted (v : Vocabulary) : Term → Prop
  | .var x => x.domain = []
  | .app f ts => v.lookup? f.name = some f ∧ ts.map sort = f.domain ∧ AllSorted v ts

/-- Whether all terms are sorted. -/
def AllSorted (v : Vocabulary) : List Term → Prop
  | [] => True
  | t :: ts => Sorted v t ∧ AllSorted v ts

end

mutual

/-- Whether every variable of a term is the innermost one of its name that is bound. -/
def Closed (scope : List Symbol) : Term → Prop
  | .var x => scope.find? (fun b => b.name = x.name) = some x
  | .app _ ts => AllClosed scope ts

/-- Whether all terms are closed. -/
def AllClosed (scope : List Symbol) : List Term → Prop
  | [] => True
  | t :: ts => Closed scope t ∧ AllClosed scope ts

end

/-- Whether a term is sorted, and closed in a scope. -/
structure WellSorted (v : Vocabulary) (scope : List Symbol) (t : Term) : Prop where
  sorted : t.Sorted v
  closed : t.Closed scope

variable {v : Vocabulary} {scope : List Symbol}

/-- Terms are sorted together if each one is. -/
theorem allSorted_iff {ts : List Term} : AllSorted v ts ↔ ∀ t ∈ ts, t.Sorted v := by
  induction ts with
  | nil => simp [AllSorted]
  | cons t ts ih => simp [AllSorted, ih]

/-- Terms are closed together if each one is. -/
theorem allClosed_iff {ts : List Term} : AllClosed scope ts ↔ ∀ t ∈ ts, t.Closed scope := by
  induction ts with
  | nil => simp [AllClosed]
  | cons t ts ih => simp [AllClosed, ih]

/-- A symbol that the vocabulary has may be applied to well-sorted arguments of its sorts. -/
theorem wellSorted_app {f : Symbol} {ts : List Term} (hf : v.lookup? f.name = some f)
    (hsorts : ts.map sort = f.domain) (hts : ∀ t ∈ ts, t.WellSorted v scope) :
    WellSorted v scope (.app f ts) :=
  ⟨⟨hf, hsorts, allSorted_iff.mpr fun t ht => (hts t ht).sorted⟩,
    allClosed_iff.mpr fun t ht => (hts t ht).closed⟩

mutual

/-- A variable of a new name may be bound around a closed term. -/
theorem Closed.cons {b : Symbol} (hb : ∀ c ∈ scope, c.name ≠ b.name) :
    {t : Term} → t.Closed scope → t.Closed (b :: scope)
  | .var x, h => by
    have hx : scope.find? (fun c => c.name = x.name) = some x := h
    have hne : b.name ≠ x.name := fun heq => hb x (List.mem_of_find?_eq_some hx) heq.symm
    change (b :: scope).find? (fun c => c.name = x.name) = some x
    rw [List.find?_cons_of_neg (by simpa using hne), hx]
  | .app _ _, h => AllClosed.cons hb h

/-- A variable of a new name may be bound around closed terms. -/
theorem AllClosed.cons {b : Symbol} (hb : ∀ c ∈ scope, c.name ≠ b.name) :
    {ts : List Term} → AllClosed scope ts → AllClosed (b :: scope) ts
  | [], _ => trivial
  | _ :: _, h => ⟨Closed.cons hb h.1, AllClosed.cons hb h.2⟩

end

/-- A variable of a new name may be bound around a well-sorted term. -/
theorem WellSorted.cons {t : Term} (h : t.WellSorted v scope) {b : Symbol}
    (hb : ∀ c ∈ scope, c.name ≠ b.name) : t.WellSorted v (b :: scope) :=
  ⟨h.sorted, h.closed.cons hb⟩

/-- The variable that has just been bound. -/
theorem wellSorted_bound (b : Symbol) (hb : b.domain = []) (scope : List Symbol) :
    WellSorted v (b :: scope) (.var b) :=
  ⟨hb, List.find?_cons_of_pos (by simp)⟩

/-- A symbol is only applied to arguments of its sorts. -/
theorem sorts_of_app? {f : Symbol} {ts : List Term} {t : Term} (h : app? f ts = .ok t) :
    ts.map sort = f.domain := by
  unfold app? at h
  split at h
  · rename_i hfits
    exact misfit_eq_none_iff.mp hfits
  · cases h

end Term

namespace Formula

mutual

/-- Whether a formula in a scope is well-sorted over a vocabulary. -/
def WellSorted (v : Vocabulary) (scope : List Symbol) : Formula → Prop
  | .equal s t => s.WellSorted v scope ∧ t.WellSorted v scope ∧ s.sort = t.sort
  | .distinct s t => s.WellSorted v scope ∧ t.WellSorted v scope ∧ s.sort = t.sort
  | .predicate p ts => p.range = .bool ∧ Term.WellSorted v scope (.app p ts)
  | .negation f => WellSorted v scope f
  | .implication f g => WellSorted v scope f ∧ WellSorted v scope g
  | .junction _ fs => AllWellSorted v scope fs
  | .quantified _ binders f =>
    (∀ b ∈ binders, b.domain = [] ∧ b.range ∈ v.sorts) ∧
      WellSorted v (binders ++ scope) f
  | .labelled _ f => WellSorted v scope f

/-- Whether all formulas are well-sorted. -/
def AllWellSorted (v : Vocabulary) (scope : List Symbol) : List Formula → Prop
  | [] => True
  | f :: fs => WellSorted v scope f ∧ AllWellSorted v scope fs

end

variable {v : Vocabulary} {scope : List Symbol}

/-- Formulas are well-sorted together if each one is. -/
theorem allWellSorted_iff {fs : List Formula} :
    AllWellSorted v scope fs ↔ ∀ f ∈ fs, f.WellSorted v scope := by
  induction fs with
  | nil => simp [AllWellSorted]
  | cons f fs ih => simp [AllWellSorted, ih]

/-- A conjunction is well-sorted if its parts are. -/
theorem wellSorted_conjunction {fs : List Formula} (h : ∀ f ∈ fs, f.WellSorted v scope) :
    (conjunction fs).WellSorted v scope :=
  allWellSorted_iff.mpr h

/-- Labels have no sorts, so taking them off changes nothing. -/
theorem wellSorted_unlabelled : (f : Formula) → f.WellSorted v scope →
    f.unlabelled.WellSorted v scope
  | .labelled _ body, h => wellSorted_unlabelled body h
  | .equal _ _, h => h
  | .distinct _ _, h => h
  | .predicate _ _, h => h
  | .negation _, h => h
  | .implication _ _, h => h
  | .junction _ _, h => h
  | .quantified _ _ _, h => h

/-- A label replaces the one that was there, and neither of them has a sort. -/
theorem WellSorted.withLabel {f : Formula} (h : f.WellSorted v scope) (text : String) :
    (f.withLabel text).WellSorted v scope :=
  wellSorted_unlabelled f h

end Formula

/-! ## What constructions yield -/

namespace Construction

variable {α β : Type} {v : Vocabulary} {scope : List Symbol} {P : α → Prop} {Q : β → Prop}

/-- Whether the values of a construction are of a kind once its requests have been granted. -/
def Yields (v : Vocabulary) (c : Construction α) (P : α → Prop) : Prop :=
  (∀ r ∈ c.requests, v.Grants r) → ∀ a, c.outcome = .ok a → P a

namespace Yields

/-- A value is of a kind, whatever has been granted. -/
theorem pure {a : α} (h : P a) : Yields v (Pure.pure a) P := by
  rintro _ _ ⟨⟩
  exact h

/-- A step that asks for nothing yields what it comes to. -/
theorem ofExcept {e : Except Fault α} (h : ∀ a, e = .ok a → P a) :
    Yields v (Construction.ofExcept e) P :=
  fun _ => h

/-- Two steps yield what the second one yields from each value that the first one may yield. What
both ask for has been granted to each of them. -/
theorem bind {c : Construction α} {next : α → Construction β} (hc : Yields v c P)
    (hnext : ∀ a, c.outcome = .ok a → P a → Yields v (next a) Q) : Yields v (c >>= next) Q := by
  intro hgrants b hb
  obtain ⟨a, ha, hb⟩ := outcome_bind_eq_ok.mp hb
  have hP := hc (fun r hr => hgrants r (mem_requests_bind_left hr)) a ha
  exact hnext a ha hP (fun r hr => hgrants r (mem_requests_bind_right ha hr)) b hb

/-- Nothing need be known about the value of a construction but where it comes from. -/
theorem after {c : Construction α} {next : α → Construction β}
    (h : ∀ a, c.outcome = .ok a → Yields v (next a) Q) : Yields v (c >>= next) Q :=
  bind (P := fun _ => True) (fun _ _ _ => trivial) fun a ha _ => h a ha

/-- A step that is made for every element of a list yields a list of values of its kind. -/
theorem each {make : α → Construction β} {as : List α} (h : ∀ a ∈ as, Yields v (make a) Q) :
    Yields v (Construction.each make as) (fun bs => ∀ b ∈ bs, Q b) := by
  induction as with
  | nil => exact pure (by simp)
  | cons a as ih =>
    obtain ⟨ha, has⟩ := List.forall_mem_cons.mp h
    refine bind ha fun b _ hb => bind (ih has) fun bs _ hbs => pure ?_
    exact List.forall_mem_cons.mpr ⟨hb, hbs⟩

/-- A symbol that has been asked for is in the vocabulary once it has been granted. -/
theorem declare (f : Symbol) :
    Yields v (Construction.declare f) (fun g => g = f ∧ v.lookup? f.name = some f) := by
  rintro hgrants _ ⟨⟩
  exact ⟨rfl, hgrants (.symbol f) (by simp [Construction.declare])⟩

/-- A symbol of the vocabulary that fits its arguments yields a well-sorted term. -/
theorem fits {f : Symbol} {ts : List Term} (hf : v.lookup? f.name = some f)
    (h : ∀ t ∈ ts, t.WellSorted v scope) :
    Yields v (Construction.ofExcept (Term.app? f ts)) (Term.WellSorted v scope) := by
  refine ofExcept fun t ht => ?_
  obtain rfl := Term.app?_eq_ok ht
  exact Term.wellSorted_app hf (Term.sorts_of_app? ht) h

/-- Applying a symbol asks for it, so that it need not be known before. -/
theorem apply {f : Symbol} {ts : List Term} (h : ∀ t ∈ ts, t.WellSorted v scope) :
    Yields v (Construction.apply f ts) (Term.WellSorted v scope) := by
  intro hgrants t ht
  refine fits (hgrants (.symbol f) ?_) h (by simp [Construction.ofExcept]) t ht
  simp [Construction.apply, Construction.declare]

/-- A predicate yields a well-sorted formula: it is asked for, and its range and its arguments are
checked. -/
theorem holds {f : Symbol} {ts : List Term} (h : ∀ t ∈ ts, t.WellSorted v scope) :
    Yields v (Construction.holds f ts) (Formula.WellSorted v scope) := by
  intro hgrants φ hφ
  have hf : v.lookup? f.name = some f :=
    hgrants (.symbol f) (by simp [Construction.holds, Construction.declare])
  change Formula.predicate? f ts = .ok φ at hφ
  unfold Formula.predicate? at hφ
  split at hφ
  · rename_i hpredicate
    split at hφ
    · rename_i hfits
      cases hφ
      exact ⟨by simpa [Symbol.isPredicate] using hpredicate,
        Term.wellSorted_app hf (Term.misfit_eq_none_iff.mp hfits) h⟩
    · cases hφ
  · cases hφ

/-- An equation yields a well-sorted formula, since the sorts of both sides are compared. -/
theorem equal {s t : Term} (hs : s.WellSorted v scope) (ht : t.WellSorted v scope) :
    Yields v (Construction.ofExcept (Formula.equal? s t)) (Formula.WellSorted v scope) := by
  refine ofExcept fun φ hφ => ?_
  unfold Formula.equal? at hφ
  split at hφ
  · rename_i hsort
    cases hφ
    exact ⟨hs, ht, hsort⟩
  · cases hφ

/-- A disequation yields a well-sorted formula, since the sorts of both sides are compared. -/
theorem distinct {s t : Term} (hs : s.WellSorted v scope) (ht : t.WellSorted v scope) :
    Yields v (Construction.ofExcept (Formula.distinct? s t)) (Formula.WellSorted v scope) := by
  refine ofExcept fun φ hφ => ?_
  unfold Formula.distinct? at hφ
  split at hφ
  · rename_i hsort
    cases hφ
    exact ⟨hs, ht, hsort⟩
  · cases hφ

/-! ### Values at points of time -/

section

variable {mode : TraceMode} {t : Term}

/-- The value of a variable is well-sorted if the point and the trace are. A constant takes no
point. -/
theorem valueAt (ht : t.WellSorted v scope) (htrace : ∀ u ∈ mode.traceArgs, u.WellSorted v scope)
    (x : Variable) : Yields v (mode.valueAt x t) (Term.WellSorted v scope) := by
  refine apply fun u hu => ?_
  rcases List.mem_append.mp hu with hu | hu
  · unfold TraceMode.timeArgs at hu
    split at hu
    · cases hu
    · exact List.mem_singleton.mp hu ▸ ht
  · exact htrace u hu

/-- An element of an array is well-sorted if the point, the index and the trace are. -/
theorem elementAt (ht : t.WellSorted v scope) (htrace : ∀ u ∈ mode.traceArgs, u.WellSorted v scope)
    {i : Term} (hi : i.WellSorted v scope) (a : Variable) :
    Yields v (mode.elementAt a t i) (Term.WellSorted v scope) := by
  refine apply fun u hu => ?_
  rw [List.mem_append, List.mem_append, List.mem_singleton] at hu
  rcases hu with (hu | rfl) | hu
  · unfold TraceMode.timeArgs at hu
    split at hu
    · cases hu
    · exact List.mem_singleton.mp hu ▸ ht
  · exact hi
  · exact htrace u hu

/-- The term of an integer expression is well-sorted at a well-sorted point. -/
theorem intTerm (ht : t.WellSorted v scope)
    (htrace : ∀ u ∈ mode.traceArgs, u.WellSorted v scope) : (e : IntExpr Variable) →
    Yields v (mode.intTerm t e) (Term.WellSorted v scope)
  | .literal _ => apply (by simp)
  | .variable x => valueAt ht htrace x
  | .element a index => bind (intTerm ht htrace index) fun _ _ hi => elementAt ht htrace hi a
  | .arith _ lhs rhs => bind (intTerm ht htrace lhs) fun _ _ hl =>
      bind (intTerm ht htrace rhs) fun _ _ hr => apply (by simp [hl, hr])
  | .negate operand => bind (intTerm ht htrace operand) fun _ _ ho => apply (by simp [ho])

/-- A comparison of well-sorted terms is well-sorted. -/
theorem compare (op : Comparison) {l r : Term} (hl : l.WellSorted v scope)
    (hr : r.WellSorted v scope) :
    Yields v (Interpreted.compare op l r) (Formula.WellSorted v scope) := by
  have hboth : ∀ u ∈ [l, r], u.WellSorted v scope := by simp [hl, hr]
  cases op with
  | less => exact holds hboth
  | lessEq => exact holds hboth
  | greater => exact holds hboth
  | greaterEq => exact holds hboth
  | equal => exact equal hl hr
  | notEqual => exact distinct hl hr

mutual

/-- The formula of a condition is well-sorted at a well-sorted point. -/
theorem boolFormula (ht : t.WellSorted v scope)
    (htrace : ∀ u ∈ mode.traceArgs, u.WellSorted v scope) : (b : BoolExpr Variable) →
    Yields v (mode.boolFormula t b) (Formula.WellSorted v scope)
  | .constant _ => holds (by simp)
  | .compare op lhs rhs => bind (intTerm ht htrace lhs) fun _ _ hl =>
      bind (intTerm ht htrace rhs) fun _ _ hr => compare op hl hr
  | .junction _ parts => bind (boolFormulas ht htrace parts) fun _ _ hfs => pure hfs
  | .not operand => bind (boolFormula ht htrace operand) fun _ _ hf => pure hf

/-- The formulas of conditions are well-sorted at a well-sorted point. -/
theorem boolFormulas (ht : t.WellSorted v scope)
    (htrace : ∀ u ∈ mode.traceArgs, u.WellSorted v scope) : (bs : List (BoolExpr Variable)) →
    Yields v (mode.boolFormulas t bs) (Formula.AllWellSorted v scope)
  | [] => pure trivial
  | b :: rest => bind (boolFormula ht htrace b) fun _ _ hf =>
      bind (boolFormulas ht htrace rest) fun _ _ hfs => pure ⟨hf, hfs⟩

end

end

end Yields

end Construction

end TraceLogic
