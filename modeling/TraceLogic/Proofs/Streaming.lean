import TraceLogic.Logic.Problem
import Mathlib.Data.List.Basic

/-!
# Writing to a sink that fills up

A sink takes what fits of each piece that is written to it, and the first piece that does not fit is
the last one. What a sink has taken in the end, and whether everything fitted, depends only on the
bytes of the pieces together: `Sink.writeAll_eq`. So it makes no difference how a text is divided
into pieces, some of which may be empty, nor where the sink is full.
-/

namespace TraceLogic

/-! ## The bytes of texts -/

/-- The bytes of texts, one after the other. -/
def bytesOf (texts : List String) : List UInt8 := texts.flatMap (fun text => text.toUTF8.toList)

/-- The loop appends the bytes from an index on to those it has collected. -/
theorem toList_loop_eq (bytes : ByteArray) (i : Nat) (before : List UInt8) :
    ByteArray.toList.loop bytes i before = before.reverse ++ bytes.data.toList.drop i := by
  fun_induction ByteArray.toList.loop bytes i before with
  | case1 i before hi ih =>
    have hlength : i < bytes.data.toList.length := by simpa using hi
    rw [ih, List.drop_eq_getElem_cons hlength]
    simp [ByteArray.get!, hi]
  | case2 i before hi =>
    have hlength : bytes.data.toList.length ≤ i := by simpa using hi
    rw [List.drop_eq_nil_of_le hlength, List.append_nil]

/-- The bytes of an array in the order of their indices. -/
theorem toList_eq_data (bytes : ByteArray) : bytes.toList = bytes.data.toList := by
  rw [ByteArray.toList, toList_loop_eq]
  rfl

/-- The bytes of two texts, one after the other. -/
theorem toList_toUTF8_append (s t : String) :
    (s ++ t).toUTF8.toList = s.toUTF8.toList ++ t.toUTF8.toList := by
  simp [toList_eq_data, String.toByteArray_append]

/-- The bytes of joined texts are those of the texts. -/
theorem toList_toUTF8_join (texts : List String) :
    (String.join texts).toUTF8.toList = bytesOf texts := by
  induction texts with
  | nil => simp [bytesOf, toList_eq_data]
  | cons text texts ih =>
    rw [String.join_cons, toList_toUTF8_append, ih]
    rfl

namespace Sink

/-- A sink takes bytes in parts as it takes them at once. -/
theorem take_take (s : Sink) (bytes more : List UInt8) :
    (s.take bytes).take more = s.take (bytes ++ more) := by
  simp [take, List.take_append, Nat.sub_sub]

/-- Bytes for which there is room are all taken. -/
theorem take_of_le {room : Nat} {bytes : List UInt8} (h : bytes.length ≤ room) :
    take { room } bytes = ⟨room - bytes.length, bytes⟩ := by
  simp [take, List.take_of_length_le h]

/-- Bytes for which there is not enough room fill the sink. -/
theorem take_of_lt {room : Nat} {bytes : List UInt8} (h : room < bytes.length) :
    take { room } bytes = ⟨0, bytes.take room⟩ := by
  have hroom : room - bytes.length = 0 := by omega
  simp [take, hroom]

/-- A sink takes as many bytes as fit, in whatever pieces they come. -/
theorem writeAll_eq (s : Sink) (texts : List String) :
    s.writeAll texts = (decide ((bytesOf texts).length ≤ s.room), s.take (bytesOf texts)) := by
  induction texts generalizing s with
  | nil => simp [writeAll, bytesOf, take]
  | cons text texts ih =>
    have hbytes : bytesOf (text :: texts) = text.toUTF8.toList ++ bytesOf texts := rfl
    rw [writeAll, hbytes, List.length_append]
    generalize text.toUTF8.toList = first
    by_cases hfits : first.length ≤ s.room
    · have hroom : (s.take first).room = s.room - first.length := rfl
      have hrest : (bytesOf texts).length ≤ s.room - first.length ↔
          first.length + (bytesOf texts).length ≤ s.room := by omega
      simp only [hfits, if_true, ih, hroom, hrest, take_take]
    · have hfull : s.take first = s.take (first ++ bytesOf texts) := by
        have hroom : s.room - first.length = 0 := by omega
        have hall : s.room - (first.length + (bytesOf texts).length) = 0 := by omega
        simp [take, List.take_append, hroom, hall]
      have hmore : ¬first.length + (bytesOf texts).length ≤ s.room := by omega
      simp only [hfits, hmore, if_false, decide_false, hfull]

end Sink

namespace Problem

/-- The text of a problem with a goal is written as far as there is room for it. -/
theorem writeTo_eq {p : Problem} {v : Vocabulary} {text : String} (h : p.print v = .ok text)
    (reason : String) (s : Sink) :
    p.writeTo v reason s =
      (if text.toUTF8.toList.length ≤ s.room then none else some (.sinkFailed reason),
        s.take text.toUTF8.toList) := by
  unfold print at h
  cases hlines : p.lines v with
  | error fault => simp [hlines, Except.map] at h
  | ok ls =>
    obtain rfl : unlines ls = text := by simpa [hlines, Except.map] using h
    have hbytes : (unlines ls).toUTF8.toList = bytesOf (ls.map (· ++ "\n")) :=
      toList_toUTF8_join _
    rw [writeTo, hlines, hbytes]
    simp only [Sink.writeAll_eq]
    by_cases hfits : (bytesOf (ls.map (· ++ "\n"))).length ≤ s.room
    · simp only [hfits, decide_true, if_true]
    · simp only [hfits, decide_false, if_false]

/-- A problem without a goal is not written at all. The text of a problem with a goal is written to
the end if there is room for it. If not, the sink takes the bytes that there is room for, and it
fails. The same is taken if the text comes in other pieces. -/
theorem writeTo_takes_first_bytes (p : Problem) (v : Vocabulary) (reason : String) (room : Nat) :
    (p.conjecture = none →
      p.writeTo v reason { room } = (some .missingConjecture, { room, taken := [] })) ∧
    (p.conjecture ≠ none →
      ∃ text, p.print v = .ok text ∧
        (text.toUTF8.toList.length ≤ room →
          p.writeTo v reason { room } =
            (none, ⟨room - text.toUTF8.toList.length, text.toUTF8.toList⟩)) ∧
        (room < text.toUTF8.toList.length →
          p.writeTo v reason { room } =
            (some (.sinkFailed reason), ⟨0, text.toUTF8.toList.take room⟩)) ∧
        ∀ pieces, String.join pieces = text →
          Sink.writeAll { room } pieces =
            ((p.writeTo v reason { room }).1.isNone, (p.writeTo v reason { room }).2)) := by
  refine ⟨fun hnone => by simp [writeTo, lines, hnone], fun hsome => ?_⟩
  obtain ⟨goal, hgoal⟩ := Option.ne_none_iff_exists'.mp hsome
  obtain ⟨ls, -, hprint⟩ := exists_lines v hgoal
  refine ⟨unlines ls, hprint, fun hfits => ?_, fun hfull => ?_, ?_⟩
  · rw [writeTo_eq hprint, if_pos hfits, Sink.take_of_le hfits]
  · rw [writeTo_eq hprint, if_neg (Nat.not_le.mpr hfull), Sink.take_of_lt hfull]
  · intro pieces hpieces
    rw [Sink.writeAll_eq, writeTo_eq hprint, ← hpieces, toList_toUTF8_join]
    by_cases hfits : (bytesOf pieces).length ≤ room
    · simp only [hfits, decide_true, if_true, Option.isNone_none]
    · simp only [hfits, decide_false, if_false, Option.isNone_some]

/-- A problem whose text has a character of two bytes. -/
def accentedProblem : Problem where
  conjecture := some (.predicate ⟨"é", [], .bool, false⟩ [])

/-- The sink is full after the first byte of the character. -/
theorem writeTo_accentedProblem :
    accentedProblem.conjecture ≠ none ∧ ∃ text, accentedProblem.print .initial = .ok text ∧
      56 < text.toUTF8.toList.length ∧
      accentedProblem.writeTo .initial "limit reached" { room := 56 } =
        (some (.sinkFailed "limit reached"), ⟨0, text.toUTF8.toList.take 56⟩) := by
  have hgoal : accentedProblem.conjecture ≠ none := by simp [accentedProblem]
  obtain ⟨text, hprint, -, hcut, -⟩ :=
    (writeTo_takes_first_bytes accentedProblem .initial "limit reached" 56).2 hgoal
  have hlong : ((accentedProblem.print .initial).toOption.all
      fun text => decide (56 < text.toByteArray.size)) = true := by decide +kernel
  rw [hprint] at hlong
  have hlength : 56 < text.toUTF8.toList.length := by
    simpa [Except.toOption, toList_eq_data] using hlong
  exact ⟨hgoal, text, hprint, hlength, hcut hlength⟩

end Problem

end TraceLogic
