import TraceLogic.Proofs.Components
import TraceLogic.Proofs.Delivery

/-!
# The nearest settings file

Settings that are not named are looked for in a directory, and in what is left of its path after
cutting off one component after the other. `Settings.run_find_nearest` says where this search begins
and ends, and that it finds the first settings file on its way, for all trees and all paths.
-/

namespace TraceLogic

/-- A path without components leads to the root, or nowhere. -/
theorem FileTree.isFile_of_components_eq_nil (t : FileTree) (workplace : List String) {p : Path}
    (h : p.components = []) : t.isFile workplace p = false := by
  rcases Path.eq_empty_or_isAbsolute h with rfl | habsolute
  · rfl
  · obtain ⟨rest, hdivide, hrest⟩ := Path.divide_of_components_eq_nil h
    have hstays : ∀ segment ∈ (route workplace p).2, advance [] segment = [] := by
      rw [route, hdivide, List.forall_mem_map, List.forall_mem_cons]
      refine ⟨rfl, fun segment hsegment => ?_⟩
      rcases hrest segment hsegment with rfl | rfl <;> rfl
    have hroot : (route workplace p).1 = [] := if_pos habsolute
    have htext : p.text ≠ "" := by
      rintro htext
      simp [Path.isAbsolute, htext] at habsolute
    have hfind : t.find workplace p = .ok ([], .directory) :=
      find_eq_ok.mpr ⟨htext, by rw [hroot]; exact follow_of_stays rfl hstays, rfl⟩
    rw [isFile, hfind]

namespace Settings

open FileTree

variable {t : FileTree} {workplace : List String} {directory path : Path}

/-- Whether a path is the settings file nearest to a directory: the directory or one above it holds
the file, and none before that one holds a settings file. -/
def Nearest (t : FileTree) (workplace : List String) (directory path : Path) : Prop :=
  ∃ n holder, directory.popped n = some holder ∧ path = holder.join fileName ∧
    t.isFile workplace path = true ∧
    ∀ k < n, ∀ other, directory.popped k = some other →
      t.isFile workplace (other.join fileName) = false

/-- The first settings file in a directory or above it is the nearest one. -/
theorem find?_ancestors_eq_some_iff :
    (directory.ancestors.map (·.join fileName)).find? (t.isFile workplace) = some path ↔
      Nearest t workplace directory path := by
  simp only [List.find?_map, Option.map_eq_some_iff, List.find?_eq_some_iff_getElem,
    Function.comp_apply, Bool.not_eq_true']
  constructor
  · rintro ⟨holder, ⟨hfile, n, hn, rfl, hbefore⟩, rfl⟩
    refine ⟨n, _, ?_, rfl, hfile, fun k hk other hother => ?_⟩
    · rw [← Path.getElem?_ancestors, List.getElem?_eq_getElem hn]
    · rw [← Path.getElem?_ancestors] at hother
      obtain ⟨hlt, rfl⟩ := List.getElem?_eq_some_iff.mp hother
      exact hbefore k hk
  · rintro ⟨n, holder, hholder, rfl, hfile, hbefore⟩
    rw [← Path.getElem?_ancestors] at hholder
    obtain ⟨hn, rfl⟩ := List.getElem?_eq_some_iff.mp hholder
    refine ⟨_, ⟨hfile, n, hn, rfl, fun k hk => ?_⟩, rfl⟩
    have hpopped : directory.popped k = some directory.ancestors[k] := by
      rw [← Path.getElem?_ancestors, List.getElem?_eq_getElem (hk.trans hn)]
    exact hbefore k hk _ hpopped

/-- No settings file is found if and only if there is none in the directory or above it. -/
theorem find?_ancestors_eq_none_iff :
    (directory.ancestors.map (·.join fileName)).find? (t.isFile workplace) = none ↔
      ∀ n holder, directory.popped n = some holder →
        t.isFile workplace (holder.join fileName) = false := by
  rw [List.find?_map, Option.map_eq_none_iff, List.find?_eq_none]
  simp only [List.mem_iff_getElem?, Path.getElem?_ancestors, Function.comp_apply, Bool.not_eq_true]
  constructor
  · intro h n holder hholder
    exact h holder ⟨n, hholder⟩
  · rintro h holder ⟨n, hholder⟩
    exact h n holder hholder

/-- A search begins in a directory, since a file is in one: only the root has no directory. -/
theorem exists_searched (t : FileTree) (workplace : List String) (start : Path) :
    ∃ directory, searched (t.isFile workplace start) start = directory.ancestors ∧
      if t.isFile workplace start then start.parent? = some directory else directory = start := by
  cases hfile : t.isFile workplace start with
  | false => exact ⟨start, rfl, rfl⟩
  | true =>
    cases hparent : start.parent? with
    | none =>
      have hroot := isFile_of_components_eq_nil t workplace (Path.parent?_eq_none_iff.mp hparent)
      simp [hfile] at hroot
    | some directory => exact ⟨directory, by simp [searched, hparent], rfl⟩

/-- The search for settings finds the nearest file. It begins in the directory of the path, if the
path leads to a file, and else in the path itself. It goes on until all components are cut off,
which leaves the empty path of a relative one. It finds the first settings file on its way, and
nothing if there is none. -/
theorem run_find_nearest (t : FileTree) (workplace : List String) (start : Path) :
    ∃ directory found,
      (if t.isFile workplace start then start.parent? = some directory else directory = start) ∧
      (∀ n, (directory.popped n).isSome ↔ n ≤ directory.components.length) ∧
      (start.isAbsolute = false → directory.popped directory.components.length = some ⟨""⟩) ∧
      (find (access workplace) start).run t = (found, t) ∧
      (∀ path, found = some path ↔ Nearest t workplace directory path) ∧
      (found = none ↔ ∀ n holder, directory.popped n = some holder →
        t.isFile workplace (holder.join fileName) = false) := by
  obtain ⟨directory, hsearched, hstart⟩ := exists_searched t workplace start
  refine ⟨directory, _, hstart, fun n => Path.popped_isSome_iff n directory, fun hrelative => ?_,
    ?_, fun path => find?_ancestors_eq_some_iff, find?_ancestors_eq_none_iff⟩
  · refine Path.popped_length_components ?_
    split at hstart
    · exact Path.isAbsolute_of_parent? hstart hrelative
    · rw [hstart]
      exact hrelative
  · rw [run_find, hsearched]

end Settings

end TraceLogic
