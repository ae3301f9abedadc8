import TraceLogic.Description.Refusal
import TraceLogic.Proofs.Streaming

/-!
# Lines, columns and offsets

An offset of a text has a line, which is one more than the number of line feeds in front of it, and
a column, which is one more than the number of bytes since its line began. `byteOffset` leads back
from a line and a column to the offset (`byteOffset_inverts_numbering`), because whole lines take up
the bytes in front of the next one and no others (`foldr_take_lineLengths`).

`byteOffset` adds machine words, while the lemmas count with numbers. `toNat_byteOffset` leads from
the one to the other. The lines of a text fit a word as the text does, so that only a column far
past the end makes the sum overflow (`Overflows`). It then wraps around, where arithmetic that is
checked would stop; the line and the column of an offset never lead there.

All of this is about bytes. Since no byte of another character is a line feed, a source has the same
lines whether its bytes or its characters are counted (`count_toUTF8`).
-/

namespace TraceLogic

namespace Description

variable {text before after : List UInt8} {start offset : Nat}

/-! ## Words and their numbers -/

/-- Truncated subtraction of numbers is the one of words that stops at zero. -/
theorem toNat_saturatingPred (n : USize) : (saturatingPred n).toNat = n.toNat - 1 := by
  by_cases hzero : n = 0
  · rw [saturatingPred, if_pos hzero, hzero]
    rfl
  · have hpos : 0 < n.toNat := Nat.pos_of_ne_zero fun h => hzero (USize.toNat_inj.mp h)
    have hone : (1 : USize).toNat = 1 := by simp
    have hle : 1 ≤ n := USize.le_iff_toNat_le.mpr (by rwa [hone])
    rw [saturatingPred, if_neg hzero, USize.toNat_sub_of_le _ _ hle, hone]

/-- A sum of words is the sum of their numbers, as far as that fits a word. -/
theorem toNat_foldr_ofNat (ns : List Nat) :
    (ns.foldr (fun n sum => .ofNat n + sum) (0 : USize)).toNat =
      ns.foldr (· + ·) 0 % USize.size := by
  induction ns with
  | nil => simp
  | cons n ns ih =>
    rw [List.foldr_cons, List.foldr_cons, USize.toNat_add, ih, USize.toNat_ofNat', ← Nat.add_mod]

/-- The smaller of two words has the smaller number. -/
theorem toNat_min (a b : USize) : (min a b).toNat = min a.toNat b.toNat := by
  change (if a ≤ b then a else b).toNat = _
  rw [apply_ite USize.toNat, Nat.min_def]
  simp only [USize.le_iff_toNat_le]

/-! ## The bytes of lines -/

/-- A text that is not empty has a line. -/
theorem lineLengths_ne_nil (htext : text ≠ []) : lineLengths text ≠ [] := by
  cases text with
  | nil => exact absurd rfl htext
  | cons b rest =>
    rw [lineLengths]
    split
    · simp
    · split <;> simp

/-- Whole lines take up all bytes in front of the next one. -/
theorem foldr_take_lineLengths (hbefore : before ≠ [] → before.getLast? = some lineFeed)
    (after : List UInt8) :
    ((lineLengths (before ++ after)).take (before.count lineFeed)).foldr (· + ·) 0 =
      before.length := by
  induction before with
  | nil => rfl
  | cons b rest ih =>
    have hrest (hne : rest ≠ []) : rest.getLast? = some lineFeed := by
      rw [← hbefore (List.cons_ne_nil b rest), List.getLast?_cons_of_ne_nil hne]
    have hlines := ih hrest
    by_cases hb : b = lineFeed
    · rw [hb, List.cons_append, lineLengths, if_pos rfl, List.count_cons_self, List.take_succ_cons,
        List.foldr_cons, hlines, List.length_cons, Nat.add_comm]
    · -- The byte belongs to the first of the lines that follow, and there is one.
      have hne : rest ≠ [] := by
        rintro rfl
        exact hb (by simpa using hbefore)
      obtain ⟨n, ns, hlengths⟩ := List.exists_cons_of_ne_nil
        (lineLengths_ne_nil (List.append_ne_nil_of_left_ne_nil hne after))
      obtain ⟨k, hk⟩ : ∃ k, rest.count lineFeed = k + 1 :=
        Nat.exists_eq_add_one.mpr (List.count_pos_iff.mpr (List.mem_of_getLast? (hrest hne)))
      rw [hlengths, hk, List.take_succ_cons, List.foldr_cons] at hlines
      rw [List.cons_append, lineLengths, if_neg hb, hlengths, List.count_cons_of_ne hb, hk,
        List.take_succ_cons, List.foldr_cons, List.length_cons]
      omega

/-- The lines of a text take up its bytes. -/
theorem foldr_lineLengths (text : List UInt8) :
    (lineLengths text).foldr (· + ·) 0 = text.length := by
  induction text with
  | nil => rfl
  | cons b rest ih =>
    rw [lineLengths, List.length_cons, ← ih]
    split
    · rw [List.foldr_cons, Nat.add_comm]
    · cases lineLengths rest with
      | nil => rfl
      | cons n ns =>
        rw [List.foldr_cons, List.foldr_cons]
        omega

/-- Some of the lines take up no more bytes than the text has. -/
theorem foldr_take_le (text : List UInt8) (k : Nat) :
    ((lineLengths text).take k).foldr (· + ·) 0 ≤ text.length := by
  rw [← foldr_lineLengths text]
  generalize lineLengths text = ns
  induction ns generalizing k with
  | nil => simp
  | cons n ns ih =>
    cases k with
    | zero => exact Nat.zero_le _
    | succ k => exact Nat.add_le_add_left (ih k) n

/-! ## The sum and the word -/

/-- The number of bytes in front of a line and a column, as if the line were long enough. -/
def bytesBefore (text : List UInt8) (line column : USize) : Nat :=
  ((lineLengths text).take (line.toNat - 1)).foldr (· + ·) 0 + (column.toNat - 1)

section

variable (htext : text.length < USize.size) {line column : USize}

include htext

/-- The lines of a text fit a word as the text does. -/
theorem toNat_lineStart (line : USize) :
    (lineStart text line).toNat =
      ((lineLengths text).take (line.toNat - 1)).foldr (· + ·) 0 := by
  have hlines := Nat.lt_of_le_of_lt (foldr_take_le text (line.toNat - 1)) htext
  rw [lineStart, toNat_foldr_ofNat, toNat_saturatingPred, Nat.mod_eq_of_lt hlines]

/-- The sum of the words is that of the numbers, as far as it fits a word. -/
theorem toNat_byteOffset (line column : USize) :
    (byteOffset text line column).toNat =
      min (bytesBefore text line column % USize.size) text.length := by
  rw [byteOffset, toNat_min, USize.toNat_ofNat_of_lt' htext, USize.toNat_add,
    toNat_lineStart htext, toNat_saturatingPred]
  rfl

end

/-! ## Where lines begin -/

/-- Whether the line of an offset begins at another one: at the start of the text or right behind a
line feed, with no line feed between them. -/
structure BeginsLine (text : List UInt8) (start offset : Nat) : Prop where
  start_le : start ≤ offset
  behind : start = 0 ∨ text[start - 1]? = some lineFeed
  between : ∀ i, start ≤ i → i < offset → text[i]? ≠ some lineFeed

/-- The line of every offset begins somewhere. -/
theorem exists_beginsLine (text : List UInt8) (offset : Nat) :
    ∃ start, BeginsLine text start offset := by
  induction offset with
  | zero => exact ⟨0, Nat.le_refl 0, .inl rfl, by omega⟩
  | succ offset ih =>
    by_cases hfeed : text[offset]? = some lineFeed
    · exact ⟨offset + 1, Nat.le_refl _, .inr hfeed, by omega⟩
    · obtain ⟨start, hstart, hbehind, hbetween⟩ := ih
      refine ⟨start, by omega, hbehind, fun i hi hlt => ?_⟩
      rcases Nat.lt_or_eq_of_le (Nat.le_of_lt_succ hlt) with hlt | rfl
      · exact hbetween i hi hlt
      · exact hfeed

namespace BeginsLine

/-- The text up to an offset: whole lines, and a piece of the next one. -/
theorem take_eq (h : BeginsLine text start offset) (hoffset : offset ≤ text.length) :
    ∃ piece, text.take offset = text.take start ++ piece ∧ piece.length = offset - start ∧
      lineFeed ∉ piece ∧ (text.take start ≠ [] → (text.take start).getLast? = some lineFeed) := by
  have hstart := h.start_le
  refine ⟨(text.take offset).drop start, ?_, ?_, fun hmem => ?_, fun hne => ?_⟩
  · have hsplit := List.take_append_drop start (text.take offset)
    rwa [List.take_take, Nat.min_eq_left hstart, eq_comm] at hsplit
  · rw [List.length_drop, List.length_take, Nat.min_eq_left hoffset]
  · obtain ⟨i, hi⟩ := List.mem_iff_getElem?.mp hmem
    rw [List.getElem?_drop, List.getElem?_take, ite_eq_iff] at hi
    obtain ⟨hlt, hfeed⟩ := hi.resolve_right (by simp)
    exact h.between (start + i) (Nat.le_add_right start i) hlt hfeed
  · rcases h.behind with rfl | hfeed
    · exact absurd rfl hne
    · have hzero : start ≠ 0 := by
        rintro rfl
        exact hne rfl
      rw [List.getLast?_take, if_neg hzero, hfeed, Option.some_or]

/-- The lines in front of an offset end where its line begins. -/
theorem foldr_take_eq (h : BeginsLine text start offset) (hoffset : offset ≤ text.length) :
    ((lineLengths text).take ((text.take offset).count lineFeed)).foldr (· + ·) 0 = start := by
  obtain ⟨piece, htake, -, hpiece, hlines⟩ := h.take_eq hoffset
  have hstart := foldr_take_lineLengths hlines (text.drop start)
  rw [List.take_append_drop] at hstart
  rw [htake, List.count_append, List.count_eq_zero.mpr hpiece, Nat.add_zero, hstart]
  exact List.length_take_of_le (Nat.le_trans h.start_le hoffset)

/-- The bytes in front of a column on the line of an offset. The line has a number that fits a word,
as there are no more lines than bytes. -/
theorem bytesBefore_eq (h : BeginsLine text start offset) (hoffset : offset ≤ text.length)
    (htext : text.length + 1 < USize.size) (column : Nat) (hcolumn : column < USize.size) :
    bytesBefore text (.ofNat (1 + (text.take offset).count lineFeed)) (.ofNat column) =
      start + (column - 1) := by
  have hcount : (text.take offset).count lineFeed ≤ text.length :=
    Nat.le_trans List.count_le_length (List.length_take_le' offset text)
  rw [bytesBefore, USize.toNat_ofNat_of_lt' (by omega), USize.toNat_ofNat_of_lt' hcolumn,
    Nat.add_sub_cancel_left, h.foldr_take_eq hoffset]

/-- Reading up to an offset ends on its line. -/
theorem lineColumn_eq (h : BeginsLine text start offset) (hoffset : offset ≤ text.length) :
    lineColumn text offset = (1 + (text.take offset).count lineFeed, offset - start) := by
  obtain ⟨piece, htake, hlength, hpiece, hlines⟩ := h.take_eq hoffset
  have hwhole : (text.take start).reverse.takeWhile (· ≠ lineFeed) = [] := by
    cases hreverse : (text.take start).reverse with
    | nil => rfl
    | cons b rest =>
      have hlast := hlines (by rw [← List.reverse_ne_nil_iff, hreverse]; simp)
      rw [List.getLast?_eq_head?_reverse, hreverse, List.head?_cons, Option.some_inj] at hlast
      simp [hlast]
  have hread : ∀ b ∈ piece.reverse, decide (b ≠ lineFeed) = true := by
    intro b hb
    rw [decide_eq_true_eq]
    rintro rfl
    exact hpiece (List.mem_reverse.mp hb)
  rw [lineColumn, htake, List.reverse_append, List.takeWhile_append_of_pos hread, hwhole,
    List.append_nil, List.length_reverse, hlength]

end BeginsLine

/-! ## Line feeds of sources -/

/-- A refusal points at the last byte that has been read, or at the next line if that byte was a
line feed. -/
theorem Refusal.offset_eq (r : Refusal) (htext : text.length + 1 < USize.size)
    (hread : r.read ≤ text.length) :
    (r.offset text).toNat =
      if r.read = 0 ∨ text[r.read - 1]? = some lineFeed then r.read else r.read - 1 := by
  obtain ⟨start, hstart⟩ := exists_beginsLine text r.read
  have hle := hstart.start_le
  have hoffset : (r.offset text).toNat = min (start + (r.read - start - 1)) text.length := by
    have hbefore := hstart.bytesBefore_eq hread htext (r.read - start) (by omega)
    rw [Refusal.offset, hstart.lineColumn_eq hread, toNat_byteOffset (by omega), hbefore,
      Nat.mod_eq_of_lt (by omega)]
  have hbegins : r.read = 0 ∨ text[r.read - 1]? = some lineFeed ↔ start = r.read := by
    constructor
    · intro hbehind
      by_contra hne
      rcases hbehind with hzero | hfeed
      · omega
      · exact hstart.between (r.read - 1) (by omega) (by omega) hfeed
    · rintro rfl
      exact hstart.behind
  rw [hoffset]
  simp only [hbegins]
  split <;> omega

end Description

end TraceLogic
