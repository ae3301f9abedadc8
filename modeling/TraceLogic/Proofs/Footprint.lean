import TraceLogic.Files.Tree
import TraceLogic.Logic.Construction
import Mathlib.Data.List.TakeWhile
import Mathlib.Logic.Relation

/-!
# What changes in a file tree

A tree changes in two ways: a directory is put where there was nothing, or a file is put where there
was no directory. Both keep all directories, so that a path still leads where it led. Making
directories adds those that the path or a path above it leads to and changes nothing else
(`FileTree.makeDirectories_adds`); writing changes the place that the path leads to and no other
(`FileTree.writeText_cases`).
-/

namespace TraceLogic

/-- Whether a path comes from another one by cutting off at least one component. -/
def Path.Above (q p : Path) : Prop := Relation.TransGen (fun p q => p.parent? = some q) p q

/-- What is the parent of a path or above it is above the path. -/
theorem Path.above_of_parent {p q r : Path} (h : p.parent? = some q) (hr : r = q ∨ r.Above q) :
    r.Above p := by
  rcases hr with rfl | hr
  · exact .single h
  · exact .head h hr

namespace FileTree

variable {t u w : FileTree} {workplace place other start : List String} {segments : List String}
  {name : String} {p : Path} {e : FileEntry}

/-- What has just been put at a place is there. The root has no entry. -/
theorem entry?_put_self (t : FileTree) (hplace : place ≠ []) (e : FileEntry) :
    FileTree.entry? (t.put place e) place = some e := by
  unfold entry?
  rw [if_neg hplace, put, Table.get?_insert_self]

/-- Putting something at a place leaves all other places. -/
theorem entry?_put_of_ne (t : FileTree) (hne : other ≠ place) (e : FileEntry) :
    FileTree.entry? (t.put place e) other = t.entry? other := by
  unfold entry? put
  rw [Table.get?_insert_of_ne _ _ hne]

/-! ## Following paths -/

/-- The check for a directory passes if there is one. -/
theorem requireDirectory_eq_ok :
    t.requireDirectory place = .ok () ↔ t.entry? place = some .directory := by
  unfold requireDirectory
  split <;> simp_all

/-- A segment is followed from a directory, and the rest from where it leads. -/
theorem follow_cons_eq_ok {segment : String} {rest : List String} :
    t.follow place (segment :: rest) = .ok other ↔
      t.entry? place = some .directory ∧ t.follow (advance place segment) rest = .ok other := by
  rw [follow, bind_eq_ok, ← requireDirectory_eq_ok]
  constructor
  · rintro ⟨⟨⟩, h⟩
    exact h
  · exact fun h => ⟨(), h⟩

/-- Segments are followed one piece after the other. -/
theorem follow_append_eq_ok {front back : List String} :
    t.follow place (front ++ back) = .ok other ↔
      ∃ middle, t.follow place front = .ok middle ∧ t.follow middle back = .ok other := by
  induction front generalizing place with
  | nil => simp [follow]
  | cons segment front ih =>
    rw [List.cons_append, follow_cons_eq_ok, ih]
    simp only [follow_cons_eq_ok, and_assoc, exists_and_left]

/-- Segments that stay at a directory lead to it. -/
theorem follow_of_stays (hplace : t.entry? place = some .directory)
    (hstays : ∀ segment ∈ segments, advance place segment = place) :
    t.follow place segments = .ok place := by
  induction segments with
  | nil => rfl
  | cons segment rest ih =>
    obtain ⟨hsegment, hrest⟩ := List.forall_mem_cons.mp hstays
    exact follow_cons_eq_ok.mpr ⟨hplace, by rw [hsegment]; exact ih hrest⟩

/-- A path leads to what is at the place that its segments lead to. The empty path leads nowhere. -/
theorem find_eq_ok :
    t.find workplace p = .ok (place, e) ↔
      p.text ≠ "" ∧ t.follow (route workplace p).1 (route workplace p).2 = .ok place ∧
        t.entry? place = some e := by
  unfold find
  by_cases htext : p.text = ""
  · simp [htext]
  · rw [if_neg htext, bind_eq_ok]
    constructor
    · rintro ⟨found, hfollow, hentry⟩
      cases hfound : t.entry? found with
      | none => simp [hfound] at hentry
      | some entry =>
        obtain ⟨rfl, rfl⟩ : found = place ∧ entry = e := by simpa [hfound] using hentry
        exact ⟨htext, hfollow, hfound⟩
    · rintro ⟨-, hfollow, hentry⟩
      exact ⟨place, hfollow, by rw [hentry]⟩

/-- Something new gets a name in a directory, to which the other segments lead. -/
theorem destination_eq_ok (h : t.destination start segments = .ok (place, name)) :
    ∃ front, segments = front ++ [name] ∧ t.follow start front = .ok place ∧
      t.entry? place = some .directory ∧ advance place name = place ++ [name] := by
  unfold destination at h
  cases hlast : segments.getLast? with
  | none => simp [hlast] at h
  | some last =>
    obtain ⟨front, rfl⟩ := List.getLast?_eq_some_iff.mp hlast
    rw [hlast, List.dropLast_concat] at h
    cases hfollow : t.follow start front with
    | error fault => cases fault <;> simp [hfollow] at h
    | ok found =>
      cases hfound : t.requireDirectory found with
      | error fault => cases fault <;> simp [hfollow, hfound] at h
      | ok _ =>
        simp only [hfollow, hfound] at h
        split at h
        · cases h
        · rename_i hproper
          cases h
          refine ⟨front, rfl, hfollow, requireDirectory_eq_ok.mp hfound, ?_⟩
          simp only [Bool.or_eq_true, decide_eq_true_eq, not_or] at hproper
          simp [advance, hproper]

/-- Only slashes are cut off. -/
theorem exists_blanks (segments : List String) :
    ∃ blanks, segments = trimSlashes segments ++ blanks ∧ ∀ segment ∈ blanks, segment = "" := by
  refine ⟨(segments.reverse.takeWhile (· = "")).reverse, ?_, fun segment hsegment => ?_⟩
  · rw [trimSlashes, ← List.reverse_append, List.takeWhile_append_dropWhile, List.reverse_reverse]
  · simpa using List.mem_takeWhile_imp (List.mem_reverse.mp hsegment)

/-! ## What stays -/

/-- Whether all directories of a tree are directories of another one. -/
def KeepsDirectories (t u : FileTree) : Prop :=
  ∀ place, t.entry? place = some .directory → u.entry? place = some .directory

/-- Segments lead to the same place as long as no directory is lost. -/
theorem KeepsDirectories.follow (h : t.KeepsDirectories u)
    (hfollow : t.follow place segments = .ok other) : u.follow place segments = .ok other := by
  induction segments generalizing place with
  | nil => exact hfollow
  | cons segment rest ih =>
    obtain ⟨hplace, hrest⟩ := follow_cons_eq_ok.mp hfollow
    exact follow_cons_eq_ok.mpr ⟨h place hplace, ih hrest⟩

/-- A path still leads to a directory that it led to. -/
theorem KeepsDirectories.find (h : t.KeepsDirectories u)
    (hfind : t.find workplace p = .ok (place, .directory)) :
    u.find workplace p = .ok (place, .directory) := by
  obtain ⟨htext, hfollow, hentry⟩ := find_eq_ok.mp hfind
  exact find_eq_ok.mpr ⟨htext, h.follow hfollow, h place hentry⟩

/-- Putting something where there is no directory loses none. -/
theorem keepsDirectories_put (hplace : t.entry? place ≠ some .directory) (e : FileEntry) :
    t.KeepsDirectories (t.put place e) := by
  intro other hother
  rw [entry?_put_of_ne t _ e]
  · exact hother
  · rintro rfl
    exact hplace hother

/-- What is put at a destination is found there. -/
theorem follow_put (h : t.destination start segments = .ok (place, name))
    (hnew : t.entry? (place ++ [name]) ≠ some .directory) (e : FileEntry) :
    (t.put (place ++ [name]) e).follow start segments = .ok (place ++ [name]) := by
  obtain ⟨front, rfl, hfollow, hplace, hadvance⟩ := destination_eq_ok h
  have hkeeps := keepsDirectories_put hnew e
  refine follow_append_eq_ok.mpr ⟨place, hkeeps.follow hfollow, ?_⟩
  exact follow_cons_eq_ok.mpr ⟨hkeeps place hplace, by rw [hadvance]; rfl⟩

/-! ## Making directories -/

/-- Whether a tree has grown out of another one by directories alone, to each of which one of the
given paths leads. -/
structure AddsDirectories (workplace : List String) (paths : Path → Prop) (t u : FileTree) :
    Prop where
  kept : ∀ place e, t.entry? place = some e → u.entry? place = some e
  added : ∀ place e, t.entry? place = none → u.entry? place = some e →
    e = .directory ∧ ∃ q, paths q ∧ u.find workplace q = .ok (place, .directory)

namespace AddsDirectories

variable {paths more : Path → Prop}

/-- A tree that stays the same has grown by no directory. -/
theorem refl (t : FileTree) : AddsDirectories workplace paths t t where
  kept _ _ h := h
  added place e hnone hsome := by simp [hnone] at hsome

/-- A tree that grows by directories loses none. -/
theorem keepsDirectories (h : AddsDirectories workplace paths t u) : t.KeepsDirectories u :=
  fun place => h.kept place .directory

/-- More paths may lead to the directories that have been added. -/
theorem mono (h : AddsDirectories workplace paths t u) (hpaths : ∀ q, paths q → more q) :
    AddsDirectories workplace more t u where
  kept := h.kept
  added place e hnone hsome := by
    obtain ⟨he, q, hq, hfind⟩ := h.added place e hnone hsome
    exact ⟨he, q, hpaths q hq, hfind⟩

/-- Growing by directories twice is growing by directories. The paths to the first ones still lead
there. -/
theorem trans (h : AddsDirectories workplace paths t u) (h' : AddsDirectories workplace paths u w) :
    AddsDirectories workplace paths t w where
  kept place e he := h'.kept place e (h.kept place e he)
  added place e hnone hsome := by
    cases hmiddle : u.entry? place with
    | none => exact h'.added place e hmiddle hsome
    | some entry =>
      obtain ⟨rfl, q, hq, hfind⟩ := h.added place entry hnone hmiddle
      have he : e = .directory := Option.some.inj (hsome.symm.trans (h'.kept place _ hmiddle))
      exact ⟨he, q, hq, h'.keepsDirectories.find hfind⟩

/-- A directory is added where there was nothing. -/
theorem put (hplace : place ≠ []) (hempty : t.entry? place = none)
    (hfind : (t.put place .directory).find workplace p = .ok (place, .directory)) :
    AddsDirectories workplace (· = p) t (t.put place .directory) where
  kept other e hsome := by
    have hne : other ≠ place := by
      rintro rfl
      simp [hempty] at hsome
    rw [entry?_put_of_ne t hne]
    exact hsome
  added other e hnone hsome := by
    obtain rfl : other = place := by
      by_contra hne
      rw [entry?_put_of_ne t hne, hnone] at hsome
      cases hsome
    have he := hsome.symm.trans (entry?_put_self t hplace .directory)
    exact ⟨Option.some.inj he, p, rfl, hfind⟩

end AddsDirectories

/-- One directory is made where the path leads then. -/
theorem makeDirectory_adds (h : t.makeDirectory workplace p = .ok u) :
    AddsDirectories workplace (· = p) t u := by
  unfold makeDirectory at h
  by_cases htext : p.text = ""
  · simp [htext] at h
  · rw [if_neg htext, bind_eq_ok] at h
    obtain ⟨⟨place, name⟩, hdestination, h⟩ := h
    cases hnew : t.entry? (place ++ [name]) with
    | some e => simp [hnew] at h
    | none =>
      obtain rfl : t.put (place ++ [name]) .directory = u := by simpa [hnew] using h
      have hplace : place ++ [name] ≠ [] := by simp
      have hself := entry?_put_self t hplace .directory
      refine .put hplace hnew (find_eq_ok.mpr ⟨htext, ?_, hself⟩)
      -- The slashes at the end of the path lead on to the directory itself.
      obtain ⟨blanks, hsplit, hblanks⟩ := exists_blanks (route workplace p).2
      rw [hsplit]
      have hput := follow_put hdestination (by simp [hnew]) .directory
      have hstays := follow_of_stays hself fun segment hsegment => by
        rw [hblanks segment hsegment]
        rfl
      exact follow_append_eq_ok.mpr ⟨_, hput, hstays⟩

/-- The directories that are made are those of the path and of paths above it. -/
theorem makeDirectoriesUpTo_adds (workplace : List String) (fuel : Nat) (t : FileTree) (p : Path) :
    AddsDirectories workplace (fun q => q = p ∨ q.Above p) t
      (makeDirectoriesUpTo workplace fuel t p).2 := by
  fun_induction makeDirectoriesUpTo workplace fuel t p with
  | case1 _ t _ _ => exact .refl t
  | case2 _ t p _ u hmade => exact (makeDirectory_adds hmade).mono fun q hq => .inl hq
  | case3 _ t _ _ _ => exact .refl t
  | case4 t p _ _ n q hparent u hmade ih =>
    rw [hmade] at ih
    exact ih.mono fun r hr => .inr (Path.above_of_parent hparent hr)
  | case5 t p _ _ n q hparent u hmade w hlast ih =>
    rw [hmade] at ih
    have hbefore : AddsDirectories workplace (fun r => r = p ∨ r.Above p) t u :=
      ih.mono fun r hr => .inr (Path.above_of_parent hparent hr)
    exact hbefore.trans ((makeDirectory_adds hlast).mono fun r hr => .inl hr)
  | case6 t p _ _ n q hparent u hmade _ _ ih =>
    rw [hmade] at ih
    exact ih.mono fun r hr => .inr (Path.above_of_parent hparent hr)
  | case7 _ t _ _ _ _ => exact .refl t

/-- Making the directories of a path adds directories only, at the path or above it. -/
theorem makeDirectories_adds (t : FileTree) (workplace : List String) (p : Path) :
    AddsDirectories workplace (fun q => q = p ∨ q.Above p) t (t.makeDirectories workplace p).2 :=
  makeDirectoriesUpTo_adds workplace (p.text.length + 1) t p

/-! ## Writing -/

/-- A text is put where the path leads then, or nothing changes. -/
theorem writeText_cases (t : FileTree) (workplace : List String) (p : Path) (text : String) :
    t.writeText workplace p text = (false, t) ∨
      ∃ place, t.writeText workplace p text =
          (true, t.put place (.file text.toUTF8.toList)) ∧
        t.entry? place ≠ some .directory ∧
        (t.put place (.file text.toUTF8.toList)).find workplace p =
          .ok (place, .file text.toUTF8.toList) := by
  unfold writeText
  by_cases htext : p.text = ""
  · exact .inl (if_pos htext)
  rw [if_neg htext]
  cases hdestination : t.destination (route workplace p).1 (route workplace p).2 with
  | error fault => exact .inl (by simp only [hdestination])
  | ok found =>
    obtain ⟨place, name⟩ := found
    by_cases hnew : t.entry? (place ++ [name]) = some .directory
    · exact .inl (by simp only [hdestination, hnew])
    · have hself := entry?_put_self t (show place ++ [name] ≠ [] by simp)
        (.file text.toUTF8.toList)
      have hfollow := follow_put hdestination hnew (.file text.toUTF8.toList)
      refine .inr ⟨place ++ [name], ?_, hnew, find_eq_ok.mpr ⟨htext, hfollow, hself⟩⟩
      simp only [hdestination]

end FileTree

end TraceLogic
