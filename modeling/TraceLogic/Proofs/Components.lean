import TraceLogic.Files.Path
import Mathlib.Data.List.Basic

/-!
# Paths and their components

The components of a path are what its text names between slashes. Cutting off the last component
leaves the other ones and a beginning of the text (`Path.parent?_cases`). So it can be done as often
as there are components, and `Path.ancestors` lists all that is left on the way
(`Path.getElem?_ancestors`).
-/

namespace TraceLogic

namespace Path

variable {p q : Path} {cs : List Char} {segments kept : List (List Char)} {segment : List Char}

/-! ## Segments -/

/-- Dividing a text is splitting it at slashes, so that the laws of splitting hold for it. -/
theorem divide_eq_splitOn (cs : List Char) : divide cs = cs.splitOn '/' := by
  induction cs with
  | nil => rfl
  | cons c cs ih =>
    obtain ⟨first, rest, hsplit⟩ := List.exists_cons_of_ne_nil (List.splitOn_ne_nil '/' cs)
    rw [divide, ih, List.splitOn_cons_eq_if_modifyHead, hsplit]
    simp only [beq_iff_eq, List.modifyHead_cons]

/-- Uniting segments is putting slashes between them. -/
theorem unite_eq_intercalate (segments : List (List Char)) :
    unite segments = ['/'].intercalate segments := by
  fun_induction unite segments with
  | case1 => rfl
  | case2 => rw [List.intercalate_singleton]
  | case3 segment rest hrest ih =>
    rw [ih, List.intercalate_cons_of_ne_nil hrest, List.append_assoc]
    rfl

/-- Even the empty text has a segment, an empty one. -/
theorem divide_ne_nil (cs : List Char) : divide cs ≠ [] := by
  rw [divide_eq_splitOn]
  exact List.splitOn_ne_nil _ _

/-- A character that is no slash belongs to the first segment. -/
theorem divide_cons_of_ne {c : Char} {first : List Char} {rest : List (List Char)} (hc : c ≠ '/')
    (h : divide cs = first :: rest) : divide (c :: cs) = (c :: first) :: rest := by
  rw [divide, if_neg hc, h]

/-- There are no slashes in segments. -/
theorem not_mem_of_mem_divide (h : segment ∈ divide cs) : '/' ∉ segment := by
  induction cs generalizing segment with
  | nil =>
    obtain rfl : segment = [] := by simpa [divide] using h
    simp
  | cons c cs ih =>
    by_cases hc : c = '/'
    · rw [divide, if_pos hc] at h
      rcases List.mem_cons.mp h with rfl | h
      · simp
      · exact ih h
    · obtain ⟨first, rest, hdivide⟩ := List.exists_cons_of_ne_nil (divide_ne_nil cs)
      rw [divide_cons_of_ne hc hdivide] at h
      rw [hdivide] at ih
      rcases List.mem_cons.mp h with rfl | h
      · have hfirst := ih List.mem_cons_self
        simp [Ne.symm hc, hfirst]
      · exact ih (List.mem_cons_of_mem first h)

/-- Segments without slashes are found again in the text that unites them. -/
theorem divide_unite (hne : segments ≠ []) (hsegments : ∀ segment ∈ segments, '/' ∉ segment) :
    divide (unite segments) = segments := by
  rw [divide_eq_splitOn, unite_eq_intercalate, List.splitOn_intercalate '/' hsegments hne]

/-- The segments of a text unite to the text. -/
theorem unite_divide (cs : List Char) : unite (divide cs) = cs := by
  rw [divide_eq_splitOn, unite_eq_intercalate, List.intercalate_splitOn]

/-- A slash follows a segment that is not the last one. -/
theorem unite_cons_of_ne_nil (first : List Char) {rest : List (List Char)} (hrest : rest ≠ []) :
    unite (first :: rest) = first ++ '/' :: unite rest := by
  cases rest with
  | nil => exact absurd rfl hrest
  | cons next rest => rfl

/-- Fewer segments unite to a text that the text of all segments begins with. -/
theorem unite_isPrefix (h : kept <+: segments) : unite kept <+: unite segments := by
  obtain ⟨more, rfl⟩ := h
  induction kept with
  | nil => exact List.nil_prefix
  | cons first kept ih =>
    rcases eq_or_ne kept [] with rfl | hkept
    · rcases eq_or_ne more [] with rfl | hmore
      · exact List.prefix_refl _
      · exact ⟨_, (unite_cons_of_ne_nil first hmore).symm⟩
    · have hboth : kept ++ more ≠ [] := by simp [hkept]
      rw [List.cons_append, unite_cons_of_ne_nil first hkept, unite_cons_of_ne_nil first hboth,
        List.prefix_append_right_inj, List.prefix_cons_inj]
      exact ih

/-- A segment counts as a component unless it is empty or a dot. -/
theorem isComponent_iff : isComponent segment = true ↔ segment ≠ [] ∧ segment ≠ ['.'] := by
  simp [isComponent]

/-- Only segments that are no components are dropped. -/
theorem filter_trimBack (segments : List (List Char)) :
    (trimBack segments).filter isComponent = segments.filter isComponent := by
  induction segments with
  | nil => rfl
  | cons segment rest ih =>
    unfold trimBack at ih ⊢
    cases hsegment : isComponent segment with
    | true => simp [hsegment]
    | false => simpa [hsegment] using ih

/-- Nothing is dropped from a component on. -/
theorem isComponent_of_trimBack {last : List Char} {rest : List (List Char)}
    (h : trimBack segments = last :: rest) : isComponent last = true := by
  unfold trimBack at h
  have hhead := List.head_dropWhile_not (fun s => !isComponent s) (l := segments) (by simp [h])
  simpa [h] using hhead

/-- Segments up to their last component, and those up to the one before. -/
theorem trimBack_reverse_eq_cons {last : List Char} {rest : List (List Char)}
    (h : trimBack segments.reverse = last :: rest) :
    (trimBack rest).reverse <+: segments ∧
      segments.filter isComponent = (trimBack rest).reverse.filter isComponent ++ [last] := by
  constructor
  · have hrest : trimBack rest <:+ last :: rest :=
      (List.dropWhile_suffix _).trans (List.suffix_cons last rest)
    have hsegments : last :: rest <:+ segments.reverse := h ▸ List.dropWhile_suffix _
    simpa using List.reverse_prefix.mpr (hrest.trans hsegments)
  · have hlast : isComponent last = true := isComponent_of_trimBack h
    have hfilter := filter_trimBack segments.reverse
    rw [h, List.filter_cons_of_pos hlast, List.filter_reverse] at hfilter
    rw [List.filter_reverse, filter_trimBack, ← List.reverse_cons, hfilter, List.reverse_reverse]

/-! ## Components -/

/-- The segments that count: all but the empty ones, and dots only as the first one. -/
def countedSegments : List (List Char) → List (List Char)
  | [] => []
  | first :: rest => [first].filter (· ≠ []) ++ rest.filter isComponent

/-- The components of a path. -/
def components (p : Path) : List (List Char) := countedSegments (divide p.text.toList)

/-- The component that the stem of a path is. The slash of the root is none. -/
def stemComponents (front : List Char) : List (List Char) :=
  if front = ['.'] then [front] else []

/-- A path starts at the root, with a dot, with a component, or not at all. -/
theorem stem_cases (cs : List Char) :
    (stem cs = ['/'] ∧ ∃ rest, cs = '/' :: rest) ∨
    (stem cs = ['.'] ∧ ∃ rest more, cs = '.' :: rest ∧ divide rest = [] :: more) ∨
    (stem cs = [] ∧ (cs = [] ∨ ∃ first rest, divide cs = first :: rest ∧ isComponent first)) := by
  unfold stem
  split
  · exact .inl ⟨rfl, _, rfl⟩
  rename_i hroot
  by_cases hdot : startsWithDot cs = true
  · refine .inr (.inl ⟨if_pos hdot, ?_⟩)
    unfold startsWithDot at hdot
    split at hdot
    · exact ⟨[], [], rfl, rfl⟩
    · exact ⟨_, _, rfl, rfl⟩
    · cases hdot
  · refine .inr (.inr ⟨if_neg hdot, ?_⟩)
    obtain ⟨first, rest, hdivide⟩ := List.exists_cons_of_ne_nil (divide_ne_nil cs)
    have hcs : unite (first :: rest) = cs := by rw [← hdivide, unite_divide]
    by_cases hfirst : isComponent first = true
    · exact .inr ⟨first, rest, hdivide, hfirst⟩
    rw [isComponent_iff, not_and_or, not_not, not_not] at hfirst
    -- an empty first segment stands for the root, and a dot for the directory itself
    rcases hfirst with rfl | rfl <;> rcases eq_or_ne rest [] with rfl | hrest
    · exact .inl hcs.symm
    · rw [unite_cons_of_ne_nil _ hrest] at hcs
      exact absurd hcs.symm (hroot _)
    · subst hcs
      exact absurd rfl hdot
    · rw [unite_cons_of_ne_nil _ hrest] at hcs
      subst hcs
      exact absurd rfl hdot

/-- A text is its stem and what follows it. -/
theorem stem_append_drop (cs : List Char) : stem cs ++ cs.drop (stem cs).length = cs := by
  rcases stem_cases cs with ⟨hstem, rest, rfl⟩ | ⟨hstem, rest, -, rfl, -⟩ | ⟨hstem, -⟩
  all_goals rw [hstem]; rfl

/-- Uniting and dividing keeps the components, also when there are no segments left. -/
theorem filter_divide_unite (hkept : ∀ segment ∈ kept, '/' ∉ segment) :
    (divide (unite kept)).filter isComponent = kept.filter isComponent := by
  rcases eq_or_ne kept [] with rfl | hne
  · rfl
  · rw [divide_unite hne hkept]

/-- The components of a path that keeps the stem of another one and some of the segments behind. -/
theorem components_stem_append (hkept : kept <+: divide (cs.drop (stem cs).length)) :
    components ⟨String.ofList (stem cs ++ unite kept)⟩ =
      stemComponents (stem cs) ++ kept.filter isComponent := by
  have hslash : ∀ segment ∈ kept, '/' ∉ segment := fun segment hsegment =>
    not_mem_of_mem_divide (hkept.subset hsegment)
  rw [components, String.toList_ofList]
  rcases stem_cases cs with ⟨hstem, rest, rfl⟩ | ⟨hstem, rest, more, rfl, hmore⟩ | ⟨hstem, hcs⟩
  · rw [hstem]
    change countedSegments ([] :: divide (unite kept)) = kept.filter isComponent
    rw [countedSegments, filter_divide_unite hslash]
    rfl
  · rw [hstem] at hkept ⊢
    change kept <+: divide rest at hkept
    change countedSegments (divide ('.' :: unite kept)) = ['.'] :: kept.filter isComponent
    rw [hmore, List.prefix_cons_iff] at hkept
    -- the segment behind the dot is empty, since a slash follows it
    rcases hkept with rfl | ⟨behind, rfl, -⟩
    · rfl
    · have hdivide := divide_unite (List.cons_ne_nil [] behind) hslash
      rw [divide_cons_of_ne (by decide) hdivide]
      rfl
  · rw [hstem] at hkept ⊢
    change kept <+: divide cs at hkept
    change countedSegments (divide (unite kept)) = kept.filter isComponent
    rcases eq_or_ne kept [] with rfl | hne
    · rfl
    rw [divide_unite hne hslash]
    rcases hcs with rfl | ⟨first, rest, hdivide, hfirst⟩
    · obtain rfl : kept = [[]] := by simpa [divide, List.prefix_cons_iff, hne] using hkept
      rfl
    · rw [hdivide, List.prefix_cons_iff] at hkept
      obtain ⟨behind, rfl, -⟩ := hkept.resolve_left hne
      have hfilled : first ≠ [] := (isComponent_iff.mp hfirst).1
      simp [countedSegments, hfilled, hfirst]

/-- The components of a path are its stem and those behind it. -/
theorem components_eq (p : Path) :
    p.components = stemComponents (stem p.text.toList) ++
      (divide (p.text.toList.drop (stem p.text.toList).length)).filter isComponent := by
  have h := components_stem_append (List.prefix_refl (divide (p.text.toList.drop
    (stem p.text.toList).length)))
  rw [unite_divide, stem_append_drop, String.ofList_toList] at h
  exact h

/-- Cutting off the last component, if there is one, leaves the other ones and a beginning of the
text. -/
theorem parent?_cases (p : Path) :
    (p.parent? = none ∧ p.components = []) ∨
    ∃ q last, p.parent? = some q ∧ p.components = q.components ++ [last] ∧
      q.text.toList <+: p.text.toList := by
  have hp := p.components_eq
  unfold parent?
  generalize p.text.toList = cs at hp ⊢
  dsimp only
  generalize hsegments : divide (cs.drop (stem cs).length) = segments at hp ⊢
  cases htrim : trimBack segments.reverse with
  | nil =>
    have hnone : segments.filter isComponent = [] := by
      simpa [htrim] using (filter_trimBack segments.reverse).symm
    rw [hnone, List.append_nil] at hp
    by_cases hdot : stem cs = ['.']
    · refine .inr ⟨⟨""⟩, ['.'], if_pos hdot, ?_, List.nil_prefix⟩
      rw [hp, hdot]
      rfl
    · exact .inl ⟨if_neg hdot, by rw [hp, stemComponents, if_neg hdot]⟩
  | cons last rest =>
    obtain ⟨hkept, hfilter⟩ := trimBack_reverse_eq_cons htrim
    refine .inr ⟨_, last, rfl, ?_, ?_⟩
    · rw [components_stem_append (hsegments ▸ hkept), hp, hfilter, List.append_assoc]
    · have hprefix : stem cs ++ unite (trimBack rest).reverse <+: stem cs ++ unite segments :=
        (List.prefix_append_right_inj _).mpr (unite_isPrefix hkept)
      rw [← hsegments, unite_divide, stem_append_drop] at hprefix
      simpa using hprefix

/-- Only a path without components has no parent. -/
theorem parent?_eq_none_iff : p.parent? = none ↔ p.components = [] := by
  rcases parent?_cases p with ⟨hnone, hcomponents⟩ | ⟨q, last, hsome, hcomponents, -⟩
  · simp [hnone, hcomponents]
  · simp [hsome, hcomponents]

/-- The parent of a path lacks its last component, and its text is an initial piece of that of the
path. -/
theorem parent?_eq_some (h : p.parent? = some q) :
    ∃ last, p.components = q.components ++ [last] ∧ q.text.toList <+: p.text.toList := by
  rcases parent?_cases p with ⟨hnone, -⟩ | ⟨r, last, hsome, hcut⟩
  · simp [hnone] at h
  · obtain rfl : r = q := Option.some.inj (hsome.symm.trans h)
    exact ⟨last, hcut⟩

/-- A path has one component more than its parent. -/
theorem length_components_of_parent? (h : p.parent? = some q) :
    p.components.length = q.components.length + 1 := by
  obtain ⟨last, hcomponents, -⟩ := parent?_eq_some h
  rw [hcomponents, List.length_append, List.length_singleton]

/-- The parent of a relative path is relative. -/
theorem isAbsolute_of_parent? (h : p.parent? = some q) (hp : p.isAbsolute = false) :
    q.isAbsolute = false := by
  obtain ⟨-, -, more, hmore⟩ := parent?_eq_some h
  unfold isAbsolute at hp ⊢
  rw [← hmore] at hp
  cases hq : q.text.toList with
  | nil => rfl
  | cons c cs => simpa [hq] using hp

/-- A path without components consists of slashes, and of dots behind the first of them. -/
theorem divide_of_components_eq_nil (h : p.components = []) :
    ∃ rest, divide p.text.toList = [] :: rest ∧
      ∀ segment ∈ rest, segment = [] ∨ segment = ['.'] := by
  obtain ⟨first, rest, hdivide⟩ := List.exists_cons_of_ne_nil (divide_ne_nil p.text.toList)
  rw [components, hdivide, countedSegments, List.append_eq_nil_iff] at h
  obtain rfl : first = [] := by simpa using h.1
  refine ⟨rest, hdivide, fun segment hsegment => ?_⟩
  have hcomponent := List.filter_eq_nil_iff.mp h.2 segment hsegment
  rwa [isComponent_iff, not_and_or, not_not, not_not] at hcomponent

/-- A path without components is empty, or it starts at the root. -/
theorem eq_empty_or_isAbsolute (h : p.components = []) : p = ⟨""⟩ ∨ p.isAbsolute = true := by
  obtain ⟨rest, hdivide, -⟩ := divide_of_components_eq_nil h
  have htext : unite ([] :: rest) = p.text.toList := by rw [← hdivide, unite_divide]
  rcases eq_or_ne rest [] with rfl | hrest
  · left
    obtain ⟨text⟩ := p
    exact congrArg Path.mk (String.toList_eq_nil_iff.mp htext.symm)
  · right
    rw [isAbsolute, ← htext, unite_cons_of_ne_nil _ hrest]
    rfl

/-- Each segment that is not empty has a character of its own. -/
theorem length_filled_divide_le (cs : List Char) :
    ((divide cs).filter (· ≠ [])).length ≤ cs.length := by
  induction cs with
  | nil => simp [divide]
  | cons c cs ih =>
    by_cases hc : c = '/'
    · have hdivide : divide (c :: cs) = [] :: divide cs := by rw [divide, if_pos hc]
      rw [hdivide, List.length_cons]
      simpa using Nat.le_succ_of_le ih
    · obtain ⟨first, rest, hdivide⟩ := List.exists_cons_of_ne_nil (divide_ne_nil cs)
      rw [divide_cons_of_ne hc hdivide]
      rw [hdivide] at ih
      have hrest : (rest.filter (· ≠ [])).length ≤ ((first :: rest).filter (· ≠ [])).length :=
        ((List.sublist_cons_self first rest).filter _).length_le
      rw [List.filter_cons_of_pos (by simp), List.length_cons, List.length_cons]
      omega

/-- Each component has a character of its own. -/
theorem length_components_le (p : Path) : p.components.length ≤ p.text.length := by
  obtain ⟨first, rest, hdivide⟩ := List.exists_cons_of_ne_nil (divide_ne_nil p.text.toList)
  have hfilled := length_filled_divide_le p.text.toList
  have hrest : (rest.filter isComponent).length ≤ (rest.filter (· ≠ [])).length := by
    rw [← List.countP_eq_length_filter, ← List.countP_eq_length_filter]
    exact List.countP_mono_left fun s _ hs => by simpa using (isComponent_iff.mp hs).1
  have hsplit : (first :: rest).filter (· ≠ []) =
      [first].filter (· ≠ []) ++ rest.filter (· ≠ []) := by
    rw [← List.filter_append, List.singleton_append]
  rw [hdivide, hsplit, List.length_append] at hfilled
  rw [components, hdivide, countedSegments, List.length_append, ← String.length_toList]
  omega

/-! ## The paths above a path -/

/-- The path after cutting off its last component a number of times, if there are that many. -/
def popped : Nat → Path → Option Path
  | 0, p => some p
  | n + 1, p => p.parent?.bind (popped n)

/-- As many components can be cut off as there are. -/
theorem popped_isSome_iff (n : Nat) (p : Path) : (popped n p).isSome ↔ n ≤ p.components.length := by
  induction n generalizing p with
  | zero => simp [popped]
  | succ n ih =>
    cases hparent : p.parent? with
    | none => simp [popped, hparent, parent?_eq_none_iff.mp hparent]
    | some q => simp [popped, hparent, ih, length_components_of_parent? hparent]

/-- A list of the paths above a path that is long enough holds all of them. -/
theorem getElem?_ancestorsUpTo {bound : Nat} (hbound : p.components.length ≤ bound) (n : Nat) :
    (ancestorsUpTo bound p)[n]? = popped n p := by
  induction bound generalizing p n with
  | zero =>
    have hparent : p.parent? = none := parent?_eq_none_iff.mpr (by simpa using hbound)
    cases n <;> simp [ancestorsUpTo, popped, hparent]
  | succ bound ih =>
    cases hparent : p.parent? with
    | none => cases n <;> simp [ancestorsUpTo, popped, hparent]
    | some q =>
      have hq : q.components.length ≤ bound := by
        have := length_components_of_parent? hparent
        omega
      cases n with
      | zero => simp [ancestorsUpTo, popped, hparent]
      | succ n => simp [ancestorsUpTo, popped, hparent, ih hq]

/-- The paths above a path are all that are left after cutting off components. -/
theorem getElem?_ancestors (p : Path) (n : Nat) : p.ancestors[n]? = popped n p :=
  getElem?_ancestorsUpTo p.length_components_le n

-- A dot counts at the beginning only, and two dots count as any name does.
example : ancestors ⟨"./a//../b/."⟩ = [⟨"./a//../b/."⟩, ⟨"./a//.."⟩, ⟨"./a"⟩, ⟨"."⟩, ⟨""⟩] := by
  decide +kernel

/-- Cutting off all components of a relative path leaves the empty path. -/
theorem popped_length_components (hp : p.isAbsolute = false) :
    popped p.components.length p = some ⟨""⟩ := by
  generalize hlength : p.components.length = n
  induction n generalizing p with
  | zero =>
    rcases eq_empty_or_isAbsolute (List.length_eq_zero_iff.mp hlength) with rfl | habsolute
    · rfl
    · simp [hp] at habsolute
  | succ n ih =>
    rcases parent?_cases p with ⟨-, hnil⟩ | ⟨q, last, hparent, -⟩
    · simp [hnil] at hlength
    · have hq := length_components_of_parent? hparent
      rw [popped, hparent, Option.bind_some]
      exact ih (isAbsolute_of_parent? hparent hp) (by omega)

end Path

end TraceLogic
