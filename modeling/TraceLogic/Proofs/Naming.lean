import TraceLogic.Description.Resolve
import TraceLogic.Proofs.Shape
import Mathlib.Data.List.Nodup

/-!
# Names of locations

A loaded statement stands at `l` followed by its number. The ends of the blocks of a branch and the
last iteration of a loop are named after that, and the end of a function after the function. All of
these names are different: the digits behind the `l` give back the number, and a function whose end
would read like a location is refused.
-/

namespace TraceLogic

open Description.Scope (siteOf)

/-- The digits behind the first character of a name. -/
def numberDigits (name : String) : List Char := (name.toList.drop 1).takeWhile Char.isDigit

/-- The digits of a number in front of something that does not go on with a digit. -/
theorem takeWhile_toDigits_append (n : Nat) {rest : List Char}
    (hrest : rest.takeWhile Char.isDigit = []) :
    (Nat.toDigits 10 n ++ rest).takeWhile Char.isDigit = Nat.toDigits 10 n := by
  have hdigits : ∀ c ∈ Nat.toDigits 10 n, c.isDigit = true := by
    intro c hc
    exact Nat.isDigit_of_mem_toDigits (by decide) (by decide) hc
  rw [List.takeWhile_append_of_pos hdigits, hrest, List.append_nil]

/-- Different numbers have different digits. -/
theorem toDigits_injective {m n : Nat} (h : Nat.toDigits 10 m = Nat.toDigits 10 n) : m = n := by
  rw [← Nat.ofDigitChars_ten_toDigits (n := m), h, Nat.ofDigitChars_ten_toDigits]

/-- A location is a letter and the digits of the number of its statement. -/
theorem toList_location_siteOf (n : Nat) :
    (siteOf n).location.toList = 'l' :: Nat.toDigits 10 n := by
  simp [siteOf]

/-- A statement's own points are its location and the ends of its branches. -/
theorem mem_ownLocations {s : Statement} {name : String} (h : name ∈ s.ownLocations) :
    name = s.location ∨ name = Timeline.leftEnd s.location ∨
      name = Timeline.rightEnd s.location := by
  cases s with
  | branch site c thens elses =>
    change name = site.location ∨ name = Timeline.leftEnd site.location ∨
      name = Timeline.rightEnd site.location
    simpa only [Statement.ownLocations, List.mem_cons, List.not_mem_nil, or_false] using h
  | assign site target value => exact .inl (List.mem_singleton.mp h)
  | loop site enclosing c body => exact .inl (List.mem_singleton.mp h)
  | skip site => exact .inl (List.mem_singleton.mp h)

/-- The names that a statement with a number introduces, as lists of characters. -/
theorem toList_of_mem_ownLocations {s : Statement} {n : Nat} {name : String}
    (hsite : s.site = siteOf n) (hname : name ∈ s.ownLocations) :
    ∃ ending ∈ ["", "_left_end", "_right_end"],
      name.toList = 'l' :: (Nat.toDigits 10 n ++ ending.toList) := by
  have hlocation : s.location.toList = 'l' :: Nat.toDigits 10 n := by
    rw [Statement.location, hsite, toList_location_siteOf]
  rcases mem_ownLocations hname with rfl | rfl | rfl
  · exact ⟨"", by simp, by simp [hlocation]⟩
  · exact ⟨"_left_end", by simp, by simp [Timeline.leftEnd, hlocation]⟩
  · exact ⟨"_right_end", by simp, by simp [Timeline.rightEnd, hlocation]⟩

/-- The number of a statement can be read off every name that it introduces. -/
theorem numberDigits_of_mem_ownLocations {s : Statement} {n : Nat} {name : String}
    (hsite : s.site = siteOf n) (hname : name ∈ s.ownLocations) :
    numberDigits name = Nat.toDigits 10 n := by
  obtain ⟨ending, hending, htext⟩ := toList_of_mem_ownLocations hsite hname
  rw [numberDigits, htext, List.drop_one, List.tail_cons]
  apply takeWhile_toDigits_append
  simp only [List.mem_cons, List.not_mem_nil, or_false] at hending
  rcases hending with rfl | rfl | rfl <;> decide

/-- A statement introduces no name twice. -/
theorem ownLocations_nodup (s : Statement) : s.ownLocations.Nodup := by
  have hends (location ending : String) (hne : ending.toList ≠ []) :
      location ≠ location ++ ending := by
    intro h
    have htext := congrArg String.toList h
    rw [String.toList_append, List.self_eq_append_right] at htext
    exact hne htext
  cases s with
  | branch site c thens elses =>
    have hsides : Timeline.leftEnd site.location ≠ Timeline.rightEnd site.location := by
      simp [Timeline.leftEnd, Timeline.rightEnd]
    simp only [Statement.ownLocations, List.nodup_cons, List.mem_cons, List.not_mem_nil,
      or_false, not_or, List.nodup_nil, not_false_eq_true, and_true]
    exact ⟨⟨hends _ _ (by decide), hends _ _ (by decide)⟩, hsides⟩
  | assign site target value => exact List.nodup_singleton _
  | loop site enclosing c body => exact List.nodup_singleton _
  | skip site => exact List.nodup_singleton _

/-- Statements with different numbers have different locations. -/
theorem flatMap_ownLocations_nodup {statements : List Statement} {numbers : List Nat}
    (hsites : statements.map Statement.site = numbers.map siteOf) (hnumbers : numbers.Nodup) :
    (statements.flatMap Statement.ownLocations).Nodup := by
  refine List.nodup_flatMap.mpr ⟨fun s _ => ownLocations_nodup s, ?_⟩
  induction statements generalizing numbers with
  | nil => exact .nil
  | cons s statements ih =>
    cases numbers with
    | nil => simp at hsites
    | cons n numbers =>
      rw [List.map_cons, List.map_cons, List.cons.injEq] at hsites
      obtain ⟨hn, hnumbers⟩ := List.nodup_cons.mp hnumbers
      refine List.pairwise_cons.mpr ⟨?_, ih hsites.2 hnumbers⟩
      intro t ht name hs htname
      -- the number of `t` is one of the later ones
      have hmem : t.site ∈ numbers.map siteOf := hsites.2 ▸ List.mem_map_of_mem ht
      obtain ⟨m, hm, hmt⟩ := List.mem_map.mp hmem
      have hdigits : Nat.toDigits 10 n = Nat.toDigits 10 m := by
        rw [← numberDigits_of_mem_ownLocations hsites.1 hs,
          numberDigits_of_mem_ownLocations hmt.symm htname]
      exact hn (toDigits_injective hdigits ▸ hm)

/-! ## Ends of functions -/

open Identifier

/-- What follows a lead is found behind it. -/
theorem afterLead?_append (lead rest : List Char) : afterLead? lead (lead ++ rest) = some rest := by
  induction lead with
  | nil => rfl
  | cons c lead ih => simp [afterLead?, ih]

/-- What is in front of an ending is found there. -/
theorem beforeEnding?_append (stem ending : List Char) :
    beforeEnding? ending (stem ++ ending) = some stem := by
  simp [beforeEnding?, afterLead?_append]

/-- A beginning followed by a number is a numbered name. -/
theorem isNumbered_append_toDigits (lead : List Char) (n : Nat) :
    isNumbered lead (lead ++ Nat.toDigits 10 n) = true := by
  rw [isNumbered, afterLead?_append]
  cases hdigits : Nat.toDigits 10 n with
  | nil => exact absurd hdigits Nat.toDigits_ne_nil
  | cons d ds =>
    simp only [List.all_eq_true]
    intro c hc
    exact Nat.isDigit_of_mem_toDigits (by decide) (by decide) (hdigits ▸ hc)

/-- The locations of statements are recognized as such. -/
theorem isNumbered_toDigits (n : Nat) :
    isNumbered "l".toList ('l' :: Nat.toDigits 10 n) = true :=
  isNumbered_append_toDigits "l".toList n

/-- The last characters of a location and of the end of a function differ, unless the location is
that of the end of a branch's block. -/
theorem isLocationName_of_ending {n : Nat} {ending : String}
    (hending : ending = "_left_end" ∨ ending = "_right_end") :
    isLocationName ('l' :: (Nat.toDigits 10 n ++ ending.toList)) = true := by
  have hstem : locationStem ('l' :: (Nat.toDigits 10 n ++ ending.toList)) =
      'l' :: Nat.toDigits 10 n := by
    rw [← List.cons_append]
    rcases hending with rfl | rfl
    · rw [locationStem, beforeEnding?_append]
    · have hright : beforeEnding? "_left_end".toList
          ('l' :: Nat.toDigits 10 n ++ "_right_end".toList) = none := by
        simp [beforeEnding?, afterLead?]
      rw [locationStem, hright, beforeEnding?_append]
      rfl
  rw [isLocationName, hstem, isNumbered_toDigits, Bool.true_or]

/-- The end of a function does not end in a number. -/
theorem functionEnd_ne_of_toDigits (f : String) {name : String} (lead : List Char) {n : Nat}
    (hname : name.toList = lead ++ Nat.toDigits 10 n) : Timeline.functionEnd f ≠ name := by
  intro heq
  have hlast : (f.toList ++ "_end".toList).getLast? = (lead ++ Nat.toDigits 10 n).getLast? := by
    rw [← hname, ← heq]
    simp [Timeline.functionEnd]
  obtain ⟨d, hd⟩ : ∃ d, (Nat.toDigits 10 n).getLast? = some d :=
    Option.ne_none_iff_exists'.mp (by simp [Nat.toDigits_ne_nil])
  have hdigit : d.isDigit = true :=
    Nat.isDigit_of_mem_toDigits (by decide) (by decide) (List.mem_of_getLast? hd)
  rw [List.getLast?_append, List.getLast?_append, hd] at hlast
  obtain rfl : d = 'd' := by simpa using hlast.symm
  exact absurd hdigit (by decide)

/-- The end of an accepted function is none of the names that statements introduce. -/
theorem functionEnd_ne_of_mem_ownLocations {f : String} (hf : checkFunction f = .ok ())
    {s : Statement} {n : Nat} {name : String} (hsite : s.site = siteOf n)
    (hname : name ∈ s.ownLocations) : Timeline.functionEnd f ≠ name := by
  obtain ⟨ending, hending, htext⟩ := toList_of_mem_ownLocations hsite hname
  simp only [List.mem_cons, List.not_mem_nil, or_false] at hending
  rcases hending with rfl | hending
  · rw [show "".toList = [] from rfl, List.append_nil] at htext
    exact functionEnd_ne_of_toDigits f ['l'] htext
  · intro heq
    have hend : (Timeline.functionEnd f).toList = f.toList ++ "_end".toList := by
      simp [Timeline.functionEnd]
    have hlocation := isLocationName_of_ending (n := n) hending
    rw [← htext, ← heq, hend] at hlocation
    unfold checkFunction at hf
    split at hf
    · cases hf
    · rw [endSuffix, hlocation] at hf
      cases hf

/-- Different functions end at points of different names. -/
theorem functionEnd_injective {f g : String}
    (h : Timeline.functionEnd f = Timeline.functionEnd g) : f = g := by
  have htext := congrArg String.toList h
  simp only [Timeline.functionEnd, String.toList_append, List.append_cancel_right_eq] at htext
  exact String.toList_injective htext

/-! ## Last iterations -/

/-- The name of the last iteration of a loop. -/
def lastName (location : String) : String := "n_" ++ location

/-- Different loops have last iterations of different names. -/
theorem lastName_injective {l m : String} (h : lastName l = lastName m) : l = m := by
  have htext := congrArg String.toList h
  simp only [lastName, String.toList_append, List.append_cancel_left_eq] at htext
  exact String.toList_injective htext

/-- The last iteration of a loop is none of the names that statements introduce. -/
theorem lastName_ne_of_mem_ownLocations (location : String) {s : Statement} {n : Nat}
    {name : String} (hsite : s.site = siteOf n) (hname : name ∈ s.ownLocations) :
    lastName location ≠ name := by
  obtain ⟨ending, _, htext⟩ := toList_of_mem_ownLocations hsite hname
  intro heq
  rw [← heq] at htext
  simp [lastName] at htext

/-- The last iteration of a numbered loop is not the end of a function. -/
theorem functionEnd_ne_lastName (f : String) (n : Nat) :
    Timeline.functionEnd f ≠ lastName (siteOf n).location := by
  refine functionEnd_ne_of_toDigits f ['n', '_', 'l'] (n := n) ?_
  simp [lastName, toList_location_siteOf]

/-! ## What names look like -/

/-- A number does not end in a letter, so that nothing is cut off a location without an ending. -/
theorem locationStem_toDigits (n : Nat) :
    locationStem ('l' :: Nat.toDigits 10 n) = 'l' :: Nat.toDigits 10 n := by
  have hne : Nat.toDigits 10 n ≠ [] := Nat.toDigits_ne_nil
  have hlast := List.dropLast_append_getLast hne
  have hdigit : ((Nat.toDigits 10 n).getLast hne).isDigit = true :=
    Nat.isDigit_of_mem_toDigits (by decide) (by decide) (List.getLast_mem hne)
  generalize (Nat.toDigits 10 n).getLast hne = d at hlast hdigit
  have hd : 'd' ≠ d := by
    rintro rfl
    exact absurd hdigit (by decide)
  rw [← hlast]
  simp [locationStem, beforeEnding?, afterLead?, hd]

/-- The names that statements introduce are recognized. -/
theorem isLocationName_of_mem_ownLocations {s : Statement} {n : Nat} {name : String}
    (hsite : s.site = siteOf n) (hname : name ∈ s.ownLocations) :
    isLocationName name.toList = true := by
  obtain ⟨ending, hending, htext⟩ := toList_of_mem_ownLocations hsite hname
  rw [htext]
  simp only [List.mem_cons, List.not_mem_nil, or_false] at hending
  rcases hending with rfl | hending
  · rw [show "".toList = [] from rfl, List.append_nil, isLocationName, locationStem_toDigits,
      isNumbered_toDigits, Bool.true_or]
  · exact isLocationName_of_ending hending

/-- The names of last iterations are recognized as made up. -/
theorem isLocationName_lastName (n : Nat) :
    isLocationName (lastName (siteOf n).location).toList = true := by
  have htext : (lastName (siteOf n).location).toList = "n_".toList ++ 'l' :: Nat.toDigits 10 n := by
    simp [lastName, toList_location_siteOf]
  rw [isLocationName, htext, afterLead?_append]
  simp only [isNumbered_toDigits, Bool.or_true]

/-- Digits may stand in a symbol. -/
theorem all_isSymbolChar_toDigits (n : Nat) : (Nat.toDigits 10 n).all isSymbolChar = true := by
  rw [List.all_eq_true]
  intro c hc
  have hdigit := Nat.isDigit_of_mem_toDigits (by decide) (by decide) hc
  simp [isSymbolChar, Char.isAlphanum, hdigit]

/-- A symbol stays one if characters of symbols are put behind it. -/
theorem isSymbol_append {name rest : List Char} (hname : isSymbol name = true)
    (hrest : rest.all isSymbolChar = true) : isSymbol (name ++ rest) = true := by
  cases name with
  | nil => cases hname
  | cons c cs =>
    simp only [isSymbol, Bool.and_eq_true] at hname
    simp only [isSymbol, List.cons_append, Bool.and_eq_true]
    refine ⟨hname.1, ?_⟩
    rw [← List.cons_append, List.all_append, hname.2, hrest]
    rfl

/-- The points of numbered statements have symbols for names. -/
theorem isSymbol_of_mem_ownLocations {s : Statement} {n : Nat} {name : String}
    (hsite : s.site = siteOf n) (hname : name ∈ s.ownLocations) :
    isSymbol name.toList = true := by
  obtain ⟨ending, hending, htext⟩ := toList_of_mem_ownLocations hsite hname
  have hall : ending.toList.all isSymbolChar = true := by
    simp only [List.mem_cons, List.not_mem_nil, or_false] at hending
    rcases hending with rfl | rfl | rfl <;> decide
  rw [htext, ← List.singleton_append]
  refine isSymbol_append (by decide) ?_
  rw [List.all_append, all_isSymbolChar_toDigits, hall]
  rfl

/-- The last iterations of numbered loops have symbols for names. -/
theorem isSymbol_lastName (n : Nat) : isSymbol (lastName (siteOf n).location).toList = true := by
  have htext : (lastName (siteOf n).location).toList = "n_l".toList ++ Nat.toDigits 10 n := by
    simp [lastName, toList_location_siteOf]
  rw [htext]
  exact isSymbol_append (by decide) (all_isSymbolChar_toDigits n)

/-- A function name that has been checked is a symbol. -/
theorem isSymbol_of_checkFunction {f : String} (hf : checkFunction f = .ok ()) :
    isSymbol f.toList = true := by
  unfold checkFunction at hf
  split at hf
  · cases hf
  · rename_i hsymbol
    simpa using hsymbol

/-- The ends of functions whose names have been checked have symbols for names. -/
theorem isSymbol_functionEnd {f : String} (hf : checkFunction f = .ok ()) :
    isSymbol (Timeline.functionEnd f).toList = true := by
  rw [Timeline.functionEnd, String.toList_append]
  exact isSymbol_append (isSymbol_of_checkFunction hf) (by decide)

/-- A check that may fail is passed if its condition does not hold and what follows succeeds. -/
theorem ite_error_eq_ok {ε α : Type} {c : Prop} [Decidable c] {e : ε} {x : Except ε α} {a : α} :
    (if c then .error e else x) = .ok a ↔ ¬ c ∧ x = .ok a := by
  split <;> simp [*]

/-- A variable is accepted if it has a plain name that is reserved for nothing else. -/
theorem checkVariable_eq_ok_iff {functions : List String} {name : String} :
    checkVariable functions name = .ok () ↔
      isSymbol name.toList = true ∧ name ∉ solverWords ∧ name ∉ timeSymbols ∧
        (name ≠ "pos" ∧ name ≠ "tr" ∧ afterLead? "It_".toList name.toList = none) ∧
        (isLocationName name.toList = false ∧ ∀ f ∈ functions, name ≠ Timeline.functionEnd f) ∧
        isNumbered "axiom".toList name.toList = false ∧
        isNumbered "lemma".toList name.toList = false := by
  have hends (f : String) : name = Timeline.functionEnd f ↔ name = f ++ endSuffix := Iff.rfl
  simp only [checkVariable, ite_error_eq_ok]
  simp [hends, and_assoc]

/-- An accepted variable has a plain name, and not one that the locations of the program have. -/
theorem checkVariable_eq_ok {functions : List String} {name : String}
    (h : checkVariable functions name = .ok ()) :
    isSymbol name.toList = true ∧ isLocationName name.toList = false ∧
      ∀ f ∈ functions, name ≠ Timeline.functionEnd f := by
  obtain ⟨hsymbol, _, _, _, hpoint, _⟩ := checkVariable_eq_ok_iff.mp h
  exact ⟨hsymbol, hpoint⟩

end TraceLogic
