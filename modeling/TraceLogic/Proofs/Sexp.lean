import Mathlib.Data.List.Basic
import Mathlib.Tactic.Tauto

/-!
# S-expressions

The solver reads its text as a sequence of S-expressions. `Sexp.tokensFrom` divides a text into
words and parentheses and passes over blanks and comments, where a comment runs from a semicolon to
the next line feed; `Sexp.readAll` puts the tokens together. String literals and quoted symbols are
refused.

Two facts carry all proofs about texts. What stands on a line is read apart from what follows the
line (`tokensFrom_line`), and `Reads` says what a piece of a line is read as whenever the word at
its end is over.
-/

namespace TraceLogic

/-- A word, or a list in parentheses. -/
inductive Sexp
  | atom (text : String)
  | list (parts : List Sexp)

namespace Sexp

/-- What a text is made of, blanks and comments apart. -/
inductive Token
  | opening
  | closing
  | word (text : String)
deriving DecidableEq

/-- Whether a character ends a word. -/
def isDelimiter (c : Char) : Bool :=
  c.isWhitespace || c = '(' || c = ')' || c = ';' || c = '"' || c = '|'

/-- Letters and digits belong to words. -/
theorem isDelimiter_of_isAlphanum {c : Char} (h : c.isAlphanum = true) : isDelimiter c = false := by
  rw [← Bool.not_eq_true]
  intro hc
  have hall : " \t\r\n();\"|".toList.all (fun d => !d.isAlphanum) = true := by decide
  have hmem : c ∈ " \t\r\n();\"|".toList := by
    simpa [isDelimiter, Char.isWhitespace, or_assoc] using hc
  have hc := List.all_eq_true.mp hall c hmem
  rw [h] at hc
  cases hc

/-- Whether a text is read as a single word. -/
def IsWord (text : String) : Prop :=
  text ≠ "" ∧ ∀ c ∈ text.toList, isDelimiter c = false

-- characters are a finite type, so that an instance for all members of a list might try them all
instance (text : String) : Decidable (IsWord text) :=
  decidable_of_iff
    (text.toList.isEmpty = false ∧ text.toList.all (fun c => !isDelimiter c) = true)
    (by simp [IsWord])

/-- Two words make a word. -/
theorem IsWord.append {s t : String} (hs : IsWord s) (ht : IsWord t) : IsWord (s ++ t) := by
  refine ⟨fun h => hs.1 (String.append_eq_empty_iff.mp h).1, ?_⟩
  rw [String.toList_append]
  exact List.forall_mem_append.mpr ⟨hs.2, ht.2⟩

/-- A numeral is a word. -/
theorem isWord_repr (n : Nat) : IsWord n.repr := by
  refine ⟨by simp, fun c hc => ?_⟩
  rw [Nat.toList_repr] at hc
  have hdigit := Nat.isDigit_of_mem_toDigits (by decide) (by decide) hc
  exact isDelimiter_of_isAlphanum (by rw [Char.isAlphanum, hdigit, Bool.or_true])

/-- The word with the given letters, of which the last one comes first, before other tokens. -/
def endWord (letters : List Char) (ts : List Token) : List Token :=
  if letters.isEmpty then ts else .word (String.ofList letters.reverse) :: ts

mutual

/-- The tokens of a text, in a word of which some letters have been read, the last one first. -/
def tokensFrom (letters : List Char) : List Char → Option (List Token)
  | [] => some (endWord letters [])
  | c :: cs =>
    if c.isWhitespace then (tokensFrom [] cs).map (endWord letters)
    else if c = '(' then (tokensFrom [] cs).map (fun ts => endWord letters (.opening :: ts))
    else if c = ')' then (tokensFrom [] cs).map (fun ts => endWord letters (.closing :: ts))
    else if c = ';' then (tokensAfterComment cs).map (endWord letters)
    else if c = '"' || c = '|' then none
    else tokensFrom (c :: letters) cs

/-- The tokens after the comment that a text starts in. -/
def tokensAfterComment : List Char → Option (List Token)
  | [] => some []
  | c :: cs => if c = '\n' then tokensFrom [] cs else tokensAfterComment cs

end

/-- Puts tokens together. The lists that are still open come innermost first, and each list has its
last part first. -/
def parse : List (List Sexp) → List Sexp → List Token → Option (List Sexp)
  | [], done, [] => some done.reverse
  | _ :: _, _, [] => none
  | outer, done, .word text :: ts => parse outer (.atom text :: done) ts
  | outer, done, .opening :: ts => parse (done :: outer) [] ts
  | before :: outer, done, .closing :: ts => parse outer (.list done.reverse :: before) ts
  | [], _, .closing :: _ => none

/-- The S-expressions that a text consists of. -/
def readAll (text : String) : Option (List Sexp) :=
  (tokensFrom [] text.toList).bind (parse [] [])

mutual

/-- The tokens of an S-expression. -/
def tokens : Sexp → List Token
  | .atom text => [.word text]
  | .list parts => .opening :: (tokensOf parts ++ [.closing])

/-- The tokens of several S-expressions. -/
def tokensOf : List Sexp → List Token
  | [] => []
  | e :: es => tokens e ++ tokensOf es

end

/-- The tokens of two sequences of S-expressions. -/
@[simp]
theorem tokensOf_append (es fs : List Sexp) :
    tokensOf (es ++ fs) = tokensOf es ++ tokensOf fs := by
  induction es with
  | nil => rfl
  | cons e es ih => rw [List.cons_append, tokensOf, tokensOf, ih, List.append_assoc]

mutual

/-- The tokens of an S-expression are put together to that S-expression. -/
theorem parse_tokens (outer : List (List Sexp)) (done : List Sexp) (ts : List Token) :
    (e : Sexp) → parse outer done (e.tokens ++ ts) = parse outer (e :: done) ts
  | .atom text => by rw [tokens, List.singleton_append, parse]
  | .list parts => by
    have hclose := parse_tokensOf (done :: outer) [] (.closing :: ts) parts
    rw [tokens, List.cons_append, List.append_assoc, List.singleton_append, parse, hclose, parse,
      List.append_nil, List.reverse_reverse]

/-- The tokens of several S-expressions are put together one after the other. -/
theorem parse_tokensOf (outer : List (List Sexp)) (done : List Sexp) (ts : List Token) :
    (es : List Sexp) →
      parse outer done (tokensOf es ++ ts) = parse outer (es.reverse ++ done) ts
  | [] => rfl
  | e :: es => by
    rw [tokensOf, List.append_assoc, parse_tokens outer done (tokensOf es ++ ts) e,
      parse_tokensOf outer (e :: done) ts es, List.reverse_cons, List.append_assoc,
      List.singleton_append]

end

/-- A text is read as the S-expressions whose tokens it has. -/
theorem readAll_of_tokens {text : String} {es : List Sexp}
    (h : tokensFrom [] text.toList = some (tokensOf es)) : readAll text = some es := by
  have hparse := parse_tokensOf [] [] [] es
  rw [List.append_nil, List.append_nil, parse, List.reverse_reverse] at hparse
  rw [readAll, h, Option.bind_some, hparse]

/-! ## Lines -/

/-- The word that ends comes before all later tokens. -/
theorem endWord_append (letters : List Char) (ts us : List Token) :
    endWord letters ts ++ us = endWord letters (ts ++ us) := by
  unfold endWord
  split <;> rfl

/-- A line feed ends words and comments: what follows it is read on its own. The induction is over
the line, for both states of the reader at once. -/
theorem tokens_line (line rest : List Char) :
    (∀ letters, tokensFrom letters (line ++ '\n' :: rest) =
      (tokensFrom letters line).bind fun ts => (tokensFrom [] rest).map (ts ++ ·)) ∧
    tokensAfterComment (line ++ '\n' :: rest) =
      (tokensAfterComment line).bind fun ts => (tokensFrom [] rest).map (ts ++ ·) := by
  induction line with
  | nil =>
    refine ⟨fun letters => ?_, ?_⟩
    · have hblank : '\n'.isWhitespace = true := rfl
      simp only [List.nil_append, tokensFrom, hblank, if_true, Option.bind_some, endWord_append]
    · simp [tokensAfterComment]
  | cons c line ih =>
    obtain ⟨ihtokens, ihcomment⟩ := ih
    -- what is put in front of the tokens after a character stays in front
    have hmap (x : Option (List Token)) (put : List Token → List Token)
        (hput : ∀ ts us, put ts ++ us = put (ts ++ us)) :
        (x.bind fun ts => (tokensFrom [] rest).map (ts ++ ·)).map put =
          (x.map put).bind fun ts => (tokensFrom [] rest).map (ts ++ ·) := by
      cases x <;> simp [Option.map_map, Function.comp_def, hput]
    refine ⟨fun letters => ?_, ?_⟩
    · simp only [List.cons_append, tokensFrom, ihtokens, ihcomment]
      split
      · exact hmap _ _ fun ts us => endWord_append letters ts us
      split
      · exact hmap _ _ fun ts us => endWord_append letters _ us
      split
      · exact hmap _ _ fun ts us => endWord_append letters _ us
      split
      · exact hmap _ _ fun ts us => endWord_append letters ts us
      split <;> rfl
    · simp only [List.cons_append, tokensAfterComment, ihtokens, ihcomment]
      split <;> rfl

/-- What stands on a line is read apart from what follows the line. -/
theorem tokensFrom_line {line rest : List Char} {ts : List Token}
    (h : tokensFrom [] line = some ts) :
    tokensFrom [] (line ++ '\n' :: rest) = (tokensFrom [] rest).map (ts ++ ·) := by
  rw [(tokens_line line rest).1, h, Option.bind_some]

/-- A comment without a line feed runs to the end of its text. -/
theorem tokensAfterComment_of_not_mem {text : List Char} (h : '\n' ∉ text) :
    tokensAfterComment text = some [] := by
  induction text with
  | nil => rfl
  | cons c text ih =>
    rw [List.mem_cons, not_or] at h
    rw [tokensAfterComment, if_neg (Ne.symm h.1), ih h.2]

/-- What stands behind a semicolon on its line is read as nothing. -/
theorem tokensFrom_comment {text : List Char} (h : '\n' ∉ text) :
    tokensFrom [] (';' :: text) = some [] := by
  have hcomment := tokensAfterComment_of_not_mem h
  simp [tokensFrom, hcomment, endWord, Char.isWhitespace]

/-- Blanks in front of a text make no difference. -/
theorem tokensFrom_indented (n : Nat) (text : List Char) :
    tokensFrom [] (List.replicate n ' ' ++ text) = tokensFrom [] text := by
  induction n with
  | zero => rfl
  | succ n ih =>
    have hword : endWord [] = id := rfl
    rw [List.replicate_succ, List.cons_append, tokensFrom, if_pos (by decide), ih, hword,
      Option.map_id_apply]

/-! ## Pieces of a line -/

/-- Whether a text starts with a character that ends a word, if it starts with any. -/
def StartsApart (text : List Char) : Prop := ∀ c ∈ text.head?, isDelimiter c = true

/-- Whether a piece of a text is read as the given tokens in front of anything that ends a word. -/
def Reads (text : List Char) (ts : List Token) : Prop :=
  ∀ rest, StartsApart rest → tokensFrom [] (text ++ rest) = (tokensFrom [] rest).map (ts ++ ·)

namespace Reads

variable {a b : List Char} {ts us : List Token}

/-- A piece on its own is read as its tokens. -/
theorem tokensFrom_eq (h : Reads a ts) : tokensFrom [] a = some ts := by
  have hend := h [] (by simp [StartsApart])
  simpa [tokensFrom, endWord] using hend

/-- An empty piece is read as no tokens. -/
theorem nil : Reads [] [] := by
  intro rest _
  simp

/-- Two pieces are read one after the other if the second one ends words. -/
theorem append (ha : Reads a ts) (hb : Reads b us) (hapart : StartsApart b) :
    Reads (a ++ b) (ts ++ us) := by
  intro rest hrest
  have hnext : StartsApart (b ++ rest) := by
    cases b with
    | nil => exact hrest
    | cons c b => exact hapart
  rw [List.append_assoc, ha _ hnext, hb rest hrest, Option.map_map]
  simp [Function.comp_def]

/-- A piece that starts with a delimiter ends words. -/
theorem startsApart_cons {c : Char} (hc : isDelimiter c = true) : StartsApart (c :: a) := by
  simpa [StartsApart] using hc

/-- A blank before a piece is read as nothing. -/
theorem blank (h : Reads a ts) : Reads (' ' :: a) ts := by
  intro rest hrest
  have hword : endWord [] = id := rfl
  rw [List.cons_append, tokensFrom, if_pos (by decide), h rest hrest, hword, Option.map_id_apply]

/-- A bracket that opens a list before a piece. -/
theorem opening (h : Reads a ts) : Reads ('(' :: a) (.opening :: ts) := by
  intro rest hrest
  rw [List.cons_append, tokensFrom, if_neg (by decide), if_pos rfl, h rest hrest, Option.map_map]
  rfl

/-- A bracket that closes a list before a piece. -/
theorem closing (h : Reads a ts) : Reads (')' :: a) (.closing :: ts) := by
  intro rest hrest
  rw [List.cons_append, tokensFrom, if_neg (by decide), if_neg (by decide), if_pos rfl,
    h rest hrest, Option.map_map]
  rfl

/-- A blank divides two pieces of a text. -/
theorem spaced (ha : Reads a ts) (hb : Reads b us) : Reads (a ++ ' ' :: b) (ts ++ us) :=
  ha.append hb.blank (startsApart_cons (by decide))

/-- A piece between two brackets. -/
theorem parenthesized (h : Reads a ts) :
    Reads ('(' :: (a ++ [')'])) (.opening :: (ts ++ [.closing])) :=
  (h.append nil.closing (startsApart_cons (by decide))).opening

/-- What ends a word is read as it is without the word in front. -/
theorem tokensFrom_of_startsApart {rest : List Char} (h : StartsApart rest) (letters : List Char) :
    tokensFrom letters rest = (tokensFrom [] rest).map (endWord letters) := by
  cases rest with
  | nil => rfl
  | cons c rest =>
    have hc : isDelimiter c = true := h c rfl
    simp only [isDelimiter, Bool.or_eq_true, decide_eq_true_eq] at hc
    simp only [tokensFrom, Bool.or_eq_true, decide_eq_true_eq]
    split_ifs
    · rw [Option.map_map]; rfl
    · rw [Option.map_map]; rfl
    · rw [Option.map_map]; rfl
    · rw [Option.map_map]; rfl
    · rfl
    · tauto

/-- The letters of a word are collected up to its end. The induction is over the letters that are
still to be read. -/
theorem tokensFrom_letters {word rest : List Char} (hword : ∀ c ∈ word, isDelimiter c = false)
    (hrest : StartsApart rest) (letters : List Char) :
    tokensFrom letters (word ++ rest) =
      (tokensFrom [] rest).map (endWord (word.reverse ++ letters)) := by
  induction word generalizing letters with
  | nil => exact tokensFrom_of_startsApart hrest letters
  | cons c word ih =>
    obtain ⟨hc, hword⟩ := List.forall_mem_cons.mp hword
    simp only [isDelimiter, Bool.or_eq_false_iff, decide_eq_false_iff_not] at hc
    obtain ⟨⟨⟨⟨⟨hblank, hopen⟩, hclose⟩, hcomment⟩, hquote⟩, hbar⟩ := hc
    rw [List.cons_append, tokensFrom, hblank, if_neg (by decide), if_neg hopen, if_neg hclose,
      if_neg hcomment, if_neg (by simp [hquote, hbar]), ih hword, List.reverse_cons,
      List.append_assoc, List.singleton_append]

/-- A word is read as itself. -/
theorem word {text : String} (h : IsWord text) : Reads text.toList [.word text] := by
  intro rest hrest
  have hend : endWord (text.toList.reverse ++ []) = ([.word text] ++ ·) := by
    funext ts
    have hne : text.toList ≠ [] := by simpa using h.1
    simp [endWord, hne]
  rw [tokensFrom_letters h.2 hrest, hend]

end Reads

end Sexp

end TraceLogic
