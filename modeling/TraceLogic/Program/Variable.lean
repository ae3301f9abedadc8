/-!
# Program variables

A variable is a scalar or an array of integers, and either may be constant. Sets of variables are
sorted lists: by name, then the non-constant before the constant, then scalars before arrays. Every
list that a set gives rise to comes in that order.
-/

namespace TraceLogic

/-- A declared variable of a function. -/
structure Variable where
  /-- The name under which statements refer to the variable. -/
  name : String
  /-- Whether the variable maps positions to integers. -/
  isArray : Bool := false
  /-- Whether no statement may assign to the variable. -/
  isConstant : Bool := false
deriving DecidableEq, Inhabited

namespace Variable

/-- The order of variables in a set. -/
def Precedes (v w : Variable) : Prop :=
  v.name < w.name ∨ (v.name = w.name ∧
    (v.isConstant < w.isConstant ∨ (v.isConstant = w.isConstant ∧ v.isArray < w.isArray)))

instance (v w : Variable) : Decidable (v.Precedes w) := by
  unfold Precedes
  infer_instance

/-- The order of variables is transitive: names decide, then constants, then arrays. -/
theorem Precedes.trans {u v w : Variable} (huv : u.Precedes v) (hvw : v.Precedes w) :
    u.Precedes w := by
  rcases huv with huv | ⟨hname, huv⟩
  · rcases hvw with hvw | ⟨hname, _⟩
    · exact .inl (String.lt_trans huv hvw)
    · exact .inl (hname ▸ huv)
  · rcases hvw with hvw | ⟨hname', hvw⟩
    · exact .inl (hname ▸ hvw)
    · refine .inr ⟨hname.trans hname', ?_⟩
      rcases u with ⟨_, ua, uc⟩
      rcases v with ⟨_, va, vc⟩
      rcases w with ⟨_, wa, wc⟩
      simp only at huv hvw ⊢
      revert huv hvw
      cases ua <;> cases uc <;> cases va <;> cases vc <;> cases wa <;> cases wc <;> decide

/-- Of two different variables one precedes the other. -/
theorem precedes_of_ne {v w : Variable} (hne : v ≠ w) (h : ¬ v.Precedes w) : w.Precedes v := by
  rcases Std.lt_trichotomy v.name w.name with hlt | heq | hgt
  · exact absurd (.inl hlt) h
  · refine .inr ⟨heq.symm, ?_⟩
    rcases v with ⟨n, va, vc⟩
    rcases w with ⟨m, wa, wc⟩
    simp only at heq ⊢
    subst heq
    have hrest : ¬ (vc < wc ∨ (vc = wc ∧ va < wa)) := fun hr => h (.inr ⟨rfl, hr⟩)
    have hdiff : ¬ (va = wa ∧ vc = wc) := fun ⟨ha, hc⟩ => hne (by rw [ha, hc])
    revert hrest hdiff
    cases va <;> cases vc <;> cases wa <;> cases wc <;> decide
  · exact .inl hgt

end Variable

/-- A finite set of variables. -/
structure VariableSet where
  /-- The members in order. -/
  toList : List Variable
  /-- Each member precedes all later ones. -/
  sorted : toList.Pairwise Variable.Precedes

namespace VariableSet

/-- The set without members. -/
def empty : VariableSet := ⟨[], .nil⟩

instance : Inhabited VariableSet := ⟨empty⟩

instance : Membership Variable VariableSet := ⟨fun s v => v ∈ s.toList⟩

/-- A variable belongs to a set if it is on its list. -/
theorem mem_def {v : Variable} {s : VariableSet} : v ∈ s ↔ v ∈ s.toList := Iff.rfl

/-- Puts a variable at its place in a sorted list, unless it is there. -/
def place (v : Variable) : List Variable → List Variable
  | [] => [v]
  | w :: ws => if v = w then w :: ws else if v.Precedes w then v :: w :: ws else w :: place v ws

/-- Placing a variable into a list adds this variable and no other one. -/
theorem mem_place {u v : Variable} {l : List Variable} : u ∈ place v l ↔ u = v ∨ u ∈ l := by
  induction l with
  | nil => simp [place]
  | cons w ws ih =>
    unfold place
    split
    · rename_i h
      subst h
      simp
    · split
      · simp
      · simp only [List.mem_cons, ih]
        constructor
        · rintro (h | h | h) <;> simp [h]
        · rintro (h | h | h) <;> simp [h]

/-- An ordered list stays ordered when a variable is placed into it. -/
theorem pairwise_place {v : Variable} {l : List Variable} (h : l.Pairwise Variable.Precedes) :
    (place v l).Pairwise Variable.Precedes := by
  induction l with
  | nil => simp [place]
  | cons w ws ih =>
    obtain ⟨hw, hws⟩ := List.pairwise_cons.mp h
    unfold place
    split
    · exact h
    · rename_i hne
      split
      · rename_i hlt
        refine List.pairwise_cons.mpr ⟨fun u hu => ?_, h⟩
        rcases List.mem_cons.mp hu with rfl | hu
        · exact hlt
        · exact hlt.trans (hw u hu)
      · rename_i hlt
        refine List.pairwise_cons.mpr ⟨fun u hu => ?_, ih hws⟩
        rcases mem_place.mp hu with rfl | hu
        · exact Variable.precedes_of_ne hne hlt
        · exact hw u hu

/-- The set with one more member. -/
def insert (s : VariableSet) (v : Variable) : VariableSet :=
  ⟨place v s.toList, pairwise_place s.sorted⟩

/-- The set of the variables in a list. -/
def ofList (vs : List Variable) : VariableSet :=
  vs.foldl insert empty

/-- The members of the first set that are also members of the second. -/
def inter (s t : VariableSet) : VariableSet :=
  ⟨s.toList.filter (fun v => v ∈ t.toList), s.sorted.filter _⟩

/-- No variable belongs to the empty set. -/
@[simp]
theorem not_mem_empty (v : Variable) : v ∉ empty := by
  simp [mem_def, empty]

/-- Inserting a variable adds this variable and no other one. -/
@[simp]
theorem mem_insert {s : VariableSet} {u v : Variable} : u ∈ s.insert v ↔ u = v ∨ u ∈ s :=
  mem_place

/-- The intersection has the variables that belong to both sets. -/
@[simp]
theorem mem_inter {s t : VariableSet} {v : Variable} : v ∈ s.inter t ↔ v ∈ s ∧ v ∈ t := by
  simp [mem_def, inter]

/-- The set of a list has the variables of the list. -/
@[simp]
theorem mem_ofList {vs : List Variable} {v : Variable} : v ∈ ofList vs ↔ v ∈ vs := by
  have hfold : ∀ (l : List Variable) (s : VariableSet), v ∈ l.foldl insert s ↔ v ∈ l ∨ v ∈ s := by
    intro l
    induction l with
    | nil => simp
    | cons w ws ih =>
      intro s
      rw [List.foldl_cons, ih, mem_insert, List.mem_cons]
      constructor
      · rintro (h | h | h) <;> simp [h]
      · rintro ((h | h) | h) <;> simp [h]
  simpa [ofList] using hfold vs empty

end VariableSet

end TraceLogic
