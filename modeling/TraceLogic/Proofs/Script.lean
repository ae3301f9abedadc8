import TraceLogic.Logic.Problem
import TraceLogic.Proofs.Sexp

/-!
# The commands of a problem

The solver reads the text of a problem as a sequence of commands, which `Problem.commands` lists: an
option, the declarations of the vocabulary, the assertions and two questions. The S-expression of a
formula has no labels, and a junction of one part is that part.

`Problem.readAll_print` says that the text is read as these commands, whatever the labels and the
indentation are, as long as every name is a word.
-/

namespace TraceLogic

open Sexp

/-! ## Terms -/

namespace Term

/-- The S-expression of a symbol without arguments. A negative literal is the negation of its
magnitude. -/
def constantSexp (f : Symbol) : Sexp :=
  match f.interpreted, f.printedName.toList with
  | true, '-' :: d :: ds => .list [.atom "-", .atom (String.ofList (d :: ds))]
  | _, _ => .atom f.printedName

mutual

/-- The S-expression of a term. -/
def sexp : Term → Sexp
  | .var f => .atom f.name
  | .app f [] => constantSexp f
  | .app f (t :: ts) => .list (.atom f.printedName :: sexp t :: sexps ts)

/-- The S-expressions of terms. -/
def sexps : List Term → List Sexp
  | [] => []
  | t :: ts => sexp t :: sexps ts

end

mutual

/-- Whether all names in a term are words. -/
def Readable : Term → Prop
  | .var f => IsWord f.name
  | .app f ts => IsWord f.name ∧ AllReadable ts

/-- Whether all names in terms are words. -/
def AllReadable : List Term → Prop
  | [] => True
  | t :: ts => Readable t ∧ AllReadable ts

end

/-- The operators of the solver are words. -/
theorem isWord_printedName {f : Symbol} (h : IsWord f.name) : IsWord f.printedName := by
  have hoperator : ∀ op, Symbol.operator? f.name = some op → IsWord op := by
    intro op
    unfold Symbol.operator?
    split <;> rintro ⟨⟩ <;> decide
  unfold Symbol.printedName
  split
  · cases hop : Symbol.operator? f.name with
    | none => exact h
    | some op => exact hoperator op hop
  · exact h

/-- The text of a constant, in which a minus is set apart from the digits of a number. -/
theorem reads_printConstant {f : Symbol} (h : IsWord f.name) :
    Reads (printConstant f).toList (constantSexp f).tokens := by
  have hname := isWord_printedName h
  unfold printConstant
  split
  · rename_i d ds hinterpreted hminus
    have hdigits : IsWord (String.ofList (d :: ds)) := by
      refine ⟨by simp, fun c hc => hname.2 c ?_⟩
      rw [String.toList_ofList] at hc
      rw [hminus]
      exact List.mem_cons_of_mem _ hc
    have hword : IsWord "-" := by decide
    have hall := ((Reads.word hword).spaced (Reads.word hdigits)).parenthesized
    simpa [constantSexp, hinterpreted, hminus, tokens, tokensOf] using hall
  · rename_i hother
    have hatom : constantSexp f = .atom f.printedName := by
      unfold constantSexp
      split
      · exact absurd ‹_› (hother _ _ ‹_›)
      · rfl
    rw [hatom]
    exact .word hname

/-- Arguments are kept apart from what they follow by a blank. -/
theorem startsApart_printRest (ts : List Term) : StartsApart (printRest ts).toList := by
  cases ts with
  | nil => simp [printRest, StartsApart]
  | cons t ts => simp [printRest, StartsApart, isDelimiter, Char.isWhitespace]

mutual

/-- The text of a term is read as its S-expression. -/
theorem reads_print : (t : Term) → t.Readable → Reads t.print.toList t.sexp.tokens
  | .var _, h => .word h
  | .app _ [], h => reads_printConstant h.1
  | .app f (t :: ts), h => by
    have hargs := (reads_print t h.2.1).append (reads_printRest ts h.2.2) (startsApart_printRest ts)
    have hall := ((Reads.word (isWord_printedName h.1)).spaced hargs).parenthesized
    simpa [print, sexp, tokens, tokensOf] using hall

/-- The text of further arguments is read as their S-expressions. -/
theorem reads_printRest : (ts : List Term) → AllReadable ts →
    Reads (printRest ts).toList (tokensOf (sexps ts))
  | [], _ => .nil
  | t :: ts, h => by
    have hall := ((reads_print t h.1).append (reads_printRest ts h.2)
      (startsApart_printRest ts)).blank
    simpa [printRest, sexps, tokensOf] using hall

end

end Term

/-! ## Formulas -/

namespace Formula

/-- The S-expression of a variable that a quantifier binds. -/
def binderSexp (b : Symbol) : Sexp := .list [.atom b.name, .atom b.range.name]

mutual

/-- The S-expression of a formula. -/
def sexp : Formula → Sexp
  | .equal s t => .list [.atom "=", s.sexp, t.sexp]
  | .distinct s t => .list [.atom "not", .list [.atom "=", s.sexp, t.sexp]]
  | .predicate p ts => Term.sexp (.app p ts)
  | .negation f => .list [.atom "not", sexp f]
  | .implication f g => .list [.atom "=>", sexp f, sexp g]
  | .junction .all [] => .atom "true"
  | .junction .any [] => .atom "false"
  | .junction _ [f] => sexp f
  | .junction .all (f :: g :: fs) => .list (.atom "and" :: sexp f :: sexps (g :: fs))
  | .junction .any (f :: g :: fs) => .list (.atom "or" :: sexp f :: sexps (g :: fs))
  | .quantified .all binders f => .list [.atom "forall", .list (binders.map binderSexp), sexp f]
  | .quantified .some binders f => .list [.atom "exists", .list (binders.map binderSexp), sexp f]
  | .labelled _ f => sexp f

/-- The S-expressions of formulas. -/
def sexps : List Formula → List Sexp
  | [] => []
  | f :: fs => sexp f :: sexps fs

end

mutual

/-- Whether all names in a formula are words. -/
def Readable : Formula → Prop
  | .equal s t => s.Readable ∧ t.Readable
  | .distinct s t => s.Readable ∧ t.Readable
  | .predicate p ts => IsWord p.name ∧ Term.AllReadable ts
  | .negation f => Readable f
  | .implication f g => Readable f ∧ Readable g
  | .junction _ fs => AllReadable fs
  | .quantified _ binders f =>
    (∀ b ∈ binders, IsWord b.name ∧ IsWord b.range.name) ∧ Readable f
  | .labelled _ f => Readable f

/-- Whether all names in formulas are words. -/
def AllReadable : List Formula → Prop
  | [] => True
  | f :: fs => Readable f ∧ AllReadable fs

end

/-- The bound variables of a quantifier are read one by one. -/
theorem reads_binderList {binders : List Symbol}
    (h : ∀ b ∈ binders, IsWord b.name ∧ IsWord b.range.name) :
    Reads (binderList binders).toList (tokensOf (binders.map binderSexp)) := by
  induction binders with
  | nil => exact .nil
  | cons b binders ih =>
    obtain ⟨⟨hname, hsort⟩, hrest⟩ := List.forall_mem_cons.mp h
    have hapart : StartsApart (binderList binders).toList := by
      cases binders <;> simp [binderList, StartsApart, isDelimiter]
    have hfirst := ((Reads.word hname).spaced (Reads.word hsort)).parenthesized
    have hall := hfirst.append (ih hrest) hapart
    simpa [binderList, binderSexp, tokens, tokensOf] using hall

/-- The text of an equation is read as its S-expression. -/
theorem reads_equal {s t : Term} (hs : s.Readable) (ht : t.Readable) :
    Reads ("(= " ++ s.print ++ " " ++ t.print ++ ")").toList (sexp (.equal s t)).tokens := by
  have hword : IsWord "=" := by decide
  have hsides := (Term.reads_print s hs).spaced (Term.reads_print t ht)
  have hall := ((Reads.word hword).spaced hsides).parenthesized
  simpa [sexp, tokens, tokensOf] using hall

end Formula

/-! ## Lines -/

/-- No line of a text has a line feed. -/
theorem not_mem_of_mem_lineList {cs line : List Char} (h : line ∈ lineList cs) : '\n' ∉ line := by
  fun_induction lineList cs generalizing line with
  | case1 => cases h
  | case2 cs ih =>
    rcases List.mem_cons.mp h with rfl | h
    · simp
    · exact ih h
  | case3 cs ih =>
    rcases List.mem_cons.mp h with rfl | h
    · simp
    · exact ih h
  | case4 c cs _ hc ih =>
    have hne : '\n' ≠ c := fun heq => hc heq.symm
    cases hlines : lineList cs with
    | nil =>
      rw [hlines] at h
      obtain rfl := List.mem_singleton.mp h
      simpa using hne
    | cons first rest =>
      rw [hlines] at h
      rcases List.mem_cons.mp h with rfl | h
      · have hfirst : '\n' ∉ first := ih (hlines ▸ List.mem_cons_self)
        simp [hne, hfirst]
      · exact ih (hlines ▸ List.mem_cons_of_mem _ h)

/-- Whether lines are read as the given tokens in front of any other text. -/
def ReadsLines (ls : List String) (ts : List Token) : Prop :=
  ∀ rest, tokensFrom [] ((Problem.unlines ls).toList ++ rest) =
    (tokensFrom [] rest).map (ts ++ ·)

namespace ReadsLines

variable {ls ms : List String} {ts us : List Token} {n : Nat} {text : String}

/-- No lines are read as no tokens. -/
theorem nil : ReadsLines [] [] := by
  intro rest
  simp [Problem.unlines]

/-- Lines after lines are read as the tokens of both. -/
theorem append (h : ReadsLines ls ts) (h' : ReadsLines ms us) :
    ReadsLines (ls ++ ms) (ts ++ us) := by
  intro rest
  have hsplit : (Problem.unlines (ls ++ ms)).toList =
      (Problem.unlines ls).toList ++ (Problem.unlines ms).toList := by
    simp [Problem.unlines, String.toList_join]
  rw [hsplit, List.append_assoc, h, h', Option.map_map]
  simp [Function.comp_def]

/-- A single line is read apart from what follows it. -/
theorem line (h : tokensFrom [] text.toList = some ts) : ReadsLines [text] ts := by
  intro rest
  have htext : (Problem.unlines [text]).toList ++ rest = text.toList ++ '\n' :: rest := by
    simp [Problem.unlines]
  rw [htext, tokensFrom_line h]

/-- A list may go on over the end of a line. -/
theorem pair {first second : String}
    (h : tokensFrom [] (first ++ "\n" ++ second).toList = some ts) :
    ReadsLines [first, second] ts := by
  have hjoin : Problem.unlines [first, second] = Problem.unlines [first ++ "\n" ++ second] := by
    simp [Problem.unlines, String.append_assoc]
  intro rest
  rw [hjoin]
  exact line h rest

/-- A line of code is read as its piece, however far it is indented. -/
theorem code (h : Reads text.toList ts) : ReadsLines [(Line.code n text).print] ts := by
  apply line
  rw [Line.print, Line.indented, String.toList_append, String.toList_ofList, tokensFrom_indented]
  exact h.tokensFrom_eq

/-- A comment of one line is read as nothing. -/
theorem comment (h : '\n' ∉ text.toList) : ReadsLines [(Line.comment n text).print] [] := by
  apply line
  have hcomment : '\n' ∉ ' ' :: text.toList := by simpa using h
  rw [Line.print, Line.indented, String.toList_append, String.toList_ofList, tokensFrom_indented,
    String.toList_append]
  exact tokensFrom_comment hcomment

/-- Labels are read as nothing. -/
theorem label (n : Nat) (text : String) :
    ReadsLines (((textLines text).map (.comment n)).map Line.print) [] := by
  have hlines : ∀ line ∈ textLines text, '\n' ∉ line.toList := by
    intro line hline
    obtain ⟨cs, hcs, rfl⟩ := List.mem_map.mp hline
    rw [String.toList_ofList]
    exact not_mem_of_mem_lineList hcs
  generalize textLines text = lines at hlines
  induction lines with
  | nil => exact nil
  | cons line lines ih =>
    obtain ⟨hline, hlines⟩ := List.forall_mem_cons.mp hlines
    exact (comment hline).append (ih hlines)

/-- Lines between one that opens a list and one that closes it. -/
theorem enclosed (h : ReadsLines ls ts) (n : Nat) {opening : String} {before : List Token}
    (hopening : Reads opening.toList before) :
    ReadsLines ((Line.code n opening).print :: (ls ++ [(Line.code n ")").print]))
      (before ++ (ts ++ [.closing])) :=
  (code hopening).append (h.append (code Reads.nil.closing))

end ReadsLines

namespace Formula

/-- A junction of no formulas is the constant that leaves the others as they are. -/
theorem sexp_junction_nil (op : Junction) :
    sexp (.junction op []) = .atom (junctionUnit op) := by
  cases op <;> rfl

/-- A junction of one formula is that formula. -/
theorem sexp_junction_singleton (op : Junction) (f : Formula) :
    sexp (.junction op [f]) = sexp f := by
  cases op <;> rfl

/-- A junction of several formulas is a list that starts with its operator. -/
theorem sexp_junction_cons (op : Junction) (f g : Formula) (fs : List Formula) :
    sexp (.junction op (f :: g :: fs)) =
      .list (.atom (junctionOperator op) :: sexp f :: sexps (g :: fs)) := by
  cases op <;> rfl

/-- A quantified formula is a list of three, for either quantifier. -/
theorem sexp_quantified (q : Quantifier) (binders : List Symbol) (f : Formula) :
    sexp (.quantified q binders f) =
      .list [.atom (quantifierWord q), .list (binders.map binderSexp), sexp f] := by
  cases q <;> rfl

/-- The line on which a list starts with a word. -/
theorem reads_opening (word : String) (h : IsWord word) :
    Reads ("(" ++ word).toList [.opening, .word word] := by
  simpa using (Reads.word h).opening

/-- The line on which a quantifier starts, with the variables that it binds. -/
theorem reads_quantifier (q : Quantifier) {binders : List Symbol}
    (h : ∀ b ∈ binders, IsWord b.name ∧ IsWord b.range.name) :
    Reads ("(" ++ quantifierWord q ++ " (" ++ binderList binders ++ ")").toList
      ([.opening, .word (quantifierWord q)] ++ (Sexp.list (binders.map binderSexp)).tokens) := by
  have hword : IsWord (quantifierWord q) := by cases q <;> decide
  have hall := ((Reads.word hword).spaced (reads_binderList h).parenthesized).opening
  simpa [tokens] using hall

mutual

/-- The lines of a formula are read as its S-expression, at every indentation. -/
theorem readsLines_layout (n : Nat) : (f : Formula) → f.Readable →
    ReadsLines (Problem.formulaLines n f) f.sexp.tokens
  | .equal _ _, h => .code (reads_equal h.1 h.2)
  | .distinct s t, h => by
    have hword : IsWord "not" := by decide
    have hall := ((Reads.word hword).spaced (reads_equal h.1 h.2)).parenthesized
    refine ReadsLines.code (n := n) ?_
    simpa [sexp, tokens, tokensOf] using hall
  | .predicate p ts, h => .code (Term.reads_print (.app p ts) h)
  | .negation f, h => by
    have hopen := reads_opening "not" (by decide)
    have hall := (readsLines_layout (n + indentStep) f h).enclosed n hopen
    simpa [Problem.formulaLines, layout, sexp, tokens, tokensOf] using hall
  | .implication f g, h => by
    have hopen := reads_opening "=>" (by decide)
    have hparts := (readsLines_layout (n + indentStep) f h.1).append
      (readsLines_layout (n + indentStep) g h.2)
    have hall := hparts.enclosed n hopen
    simpa [Problem.formulaLines, layout, sexp, tokens, tokensOf] using hall
  | .junction op [], _ => by
    have hword : IsWord (junctionUnit op) := by cases op <;> decide
    rw [sexp_junction_nil]
    exact .code (.word hword)
  | .junction op [f], h => by
    rw [sexp_junction_singleton]
    exact readsLines_layout n f h.1
  | .junction op (f :: g :: fs), h => by
    have hopen := reads_opening (junctionOperator op) (by cases op <;> decide)
    have hparts := (readsLines_layout (n + indentStep) f h.1).append
      (readsLines_layoutParts (n + indentStep) (g :: fs) h.2)
    have hall := hparts.enclosed n hopen
    rw [sexp_junction_cons]
    simpa [Problem.formulaLines, layout, tokens, tokensOf] using hall
  | .quantified q binders f, h => by
    have hall := (readsLines_layout (n + indentStep) f h.2).enclosed n (reads_quantifier q h.1)
    rw [sexp_quantified]
    simpa [Problem.formulaLines, layout, tokens, tokensOf] using hall
  | .labelled text f, h => by
    have hall := (ReadsLines.label n text).append (readsLines_layout n f h)
    simpa [Problem.formulaLines, layout, sexp] using hall

/-- The lines of formulas that stand one below the other. -/
theorem readsLines_layoutParts (n : Nat) : (fs : List Formula) → AllReadable fs →
    ReadsLines ((layoutParts n fs).map (·.print)) (tokensOf (sexps fs))
  | [], _ => .nil
  | f :: fs, h => by
    have hall := (readsLines_layout n f h.1).append (readsLines_layoutParts n fs h.2)
    simpa [Problem.formulaLines, layoutParts, sexps, tokensOf] using hall

end

end Formula

/-! ## Problems -/

/-- A command of the solver's language. -/
inductive Command
  | produceCores
  | declareSort (s : SortSymbol)
  | defineOrder
  | declareFun (f : Symbol)
  | assertion (name : String) (f : Formula)
  | assertNot (f : Formula)
  | checkSat
  | getUnsatCore

namespace Command

/-- The S-expression of a command. -/
def sexp : Command → Sexp
  | produceCores => .list [.atom "set-option", .atom ":produce-unsat-cores", .atom "true"]
  | declareSort s =>
    if s = .time then
      .list [.atom "declare-datatypes", .list [.list [.atom "Time", .atom "0"]],
        .list [.list [.list [.atom "zero"],
          .list [.atom "s", .list [.atom "p", .atom "Time"]]]]]
    else .list [.atom "declare-sort", .atom s.name, .atom "0"]
  | defineOrder =>
    .list [.atom "define-fun-rec", .atom "Sub",
      .list [.list [.atom "a", .atom "Time"], .list [.atom "b", .atom "Time"]], .atom "Bool",
      .list [.atom "and", .list [.list [.atom "_", .atom "is", .atom "s"], .atom "b"],
        .list [.atom "or", .list [.atom "=", .atom "a", .list [.atom "p", .atom "b"]],
          .list [.atom "Sub", .atom "a", .list [.atom "p", .atom "b"]]]]]
  | declareFun f =>
    .list [.atom "declare-fun", .atom f.name, .list (f.domain.map fun s => .atom s.name),
      .atom f.range.name]
  | assertion name f =>
    .list [.atom "assert", .list [.atom "!", f.sexp, .atom ":named", .atom name]]
  | assertNot f => .list [.atom "assert-not", f.sexp]
  | checkSat => .list [.atom "check-sat"]
  | getUnsatCore => .list [.atom "get-unsat-core"]

end Command

/-- The commands that declare a sort. The order of iterations is defined after their datatype. -/
def SortSymbol.commands (s : SortSymbol) : List Command :=
  if s.isBuiltin then []
  else if s = .time then [.declareSort s, .defineOrder]
  else [.declareSort s]

/-- Whether all names in a vocabulary are words. -/
structure Vocabulary.Readable (v : Vocabulary) : Prop where
  sorts : ∀ s ∈ v.sorts, IsWord s.name
  symbols : ∀ f ∈ v.symbols, IsWord f.name ∧ ∀ s ∈ f.range :: f.domain, IsWord s.name

namespace Problem

/-- The commands that assert formulas under numbered names. -/
def namedAssertions (stem : String) (first : Nat) (fs : List Formula) : List Command :=
  (fs.zipIdx first).map fun e => .assertion (stem ++ e.2.repr) e.1

/-- The commands of a problem over a vocabulary that has a goal. -/
def commands (p : Problem) (v : Vocabulary) (goal : Formula) : List Command :=
  [.produceCores] ++ v.sorts.flatMap (·.commands) ++
    (v.symbols.filter (fun f => !f.interpreted)).map .declareFun ++
    namedAssertions "axiom" 0 p.axioms ++ namedAssertions "lemma" 0 p.lemmas ++
    [.assertNot goal, .checkSat, .getUnsatCore]

/-- The formulas of a problem. -/
def formulas (p : Problem) : List Formula := p.axioms ++ p.lemmas ++ p.conjecture.toList

end Problem

/-- Whether lines are read as the given commands in front of any other text. -/
def ReadsCommands (ls : List String) (cs : List Command) : Prop :=
  ReadsLines ls (tokensOf (cs.map Command.sexp))

namespace ReadsCommands

/-- No lines are read as no commands. -/
theorem nil : ReadsCommands [] [] := ReadsLines.nil

/-- Lines after lines are read as the commands of both. -/
theorem append {ls ms : List String} {cs ds : List Command} (h : ReadsCommands ls cs)
    (h' : ReadsCommands ms ds) : ReadsCommands (ls ++ ms) (cs ++ ds) := by
  have hall := ReadsLines.append h h'
  rwa [← tokensOf_append, ← List.map_append] at hall

/-- Lines that are made item by item are read as commands that are made item by item. -/
theorem flatMap {α : Type} {lines : α → List String} {commands : α → List Command} {as : List α}
    (h : ∀ a ∈ as, ReadsCommands (lines a) (commands a)) :
    ReadsCommands (as.flatMap lines) (as.flatMap commands) := by
  induction as with
  | nil => exact nil
  | cons a as ih =>
    obtain ⟨ha, has⟩ := List.forall_mem_cons.mp h
    exact ha.append (ih has)

end ReadsCommands

/-- The declaration of a sort. Integers and truth values need none, and time comes with its
order. -/
theorem SortSymbol.readsCommands_declaration {s : SortSymbol} (h : IsWord s.name) :
    ReadsCommands s.declaration s.commands := by
  unfold declaration commands
  split
  · exact .nil
  split
  · rename_i htime
    subst htime
    have hdatatype : ReadsCommands
        ["(declare-datatypes ((Time 0)) (( (zero) (s (p Time)) )) )"] [.declareSort .time] :=
      ReadsLines.line (by decide +kernel)
    have horder : ReadsCommands
        ["(define-fun-rec Sub ((a Time) (b Time)) Bool",
          "   (and ((_ is s) b) (or (= a (p b)) (Sub a (p b)))))"] [.defineOrder] :=
      ReadsLines.pair (by decide +kernel)
    exact hdatatype.append horder
  · rename_i htime
    have hdeclare : IsWord "declare-sort" := by decide
    have hzero : IsWord "0" := by decide
    have hall := ((Reads.word hdeclare).spaced
      ((Reads.word h).spaced (Reads.word hzero))).parenthesized
    apply ReadsLines.line
    simpa [Command.sexp, htime, tokens, tokensOf] using hall.tokensFrom_eq

/-- Sorts that are divided by blanks. -/
theorem Symbol.reads_sortList {sorts : List SortSymbol} (h : ∀ s ∈ sorts, IsWord s.name) :
    Reads (sortList sorts).toList (tokensOf (sorts.map fun s => .atom s.name)) := by
  induction sorts with
  | nil => exact .nil
  | cons s sorts ih =>
    obtain ⟨hs, hsorts⟩ := List.forall_mem_cons.mp h
    cases sorts with
    | nil => exact .word hs
    | cons t sorts =>
      have hall := (Reads.word hs).spaced (ih hsorts)
      simpa [sortList, tokens, tokensOf] using hall

/-- The declaration of a symbol that the solver does not know yet. -/
theorem Symbol.readsCommands_declaration {f : Symbol} (hname : IsWord f.name)
    (hsorts : ∀ s ∈ f.range :: f.domain, IsWord s.name) (hfree : f.interpreted = false) :
    ReadsCommands f.declaration [.declareFun f] := by
  obtain ⟨hrange, hdomain⟩ := List.forall_mem_cons.mp hsorts
  have hdeclare : IsWord "declare-fun" := by decide
  have hlist := (reads_sortList hdomain).parenthesized
  have hall := ((Reads.word hdeclare).spaced
    ((Reads.word hname).spaced (hlist.spaced (Reads.word hrange)))).parenthesized
  rw [declaration, hfree]
  apply ReadsLines.line
  simpa [Command.sexp, tokens, tokensOf] using hall.tokensFrom_eq

namespace Problem

/-- Interpreted symbols are not declared. -/
theorem readsCommands_symbols {symbols : List Symbol}
    (h : ∀ f ∈ symbols, IsWord f.name ∧ ∀ s ∈ f.range :: f.domain, IsWord s.name) :
    ReadsCommands (symbols.flatMap (·.declaration))
      ((symbols.filter (fun f => !f.interpreted)).map .declareFun) := by
  induction symbols with
  | nil => exact .nil
  | cons f symbols ih =>
    obtain ⟨⟨hname, hsorts⟩, hrest⟩ := List.forall_mem_cons.mp h
    cases hf : f.interpreted with
    | true => simpa [hf, Symbol.declaration] using ih hrest
    | false =>
      have hall := (Symbol.readsCommands_declaration hname hsorts hf).append (ih hrest)
      simpa [hf] using hall

/-- A named assertion is read as one command. -/
theorem readsCommands_assertion {name : String} (hname : IsWord name) {f : Formula}
    (hf : f.Readable) : ReadsCommands (assertion name f) [.assertion name f] := by
  have hblank : ReadsLines [""] [] := .line rfl
  have hassert : ReadsLines ["(assert"] [.opening, .word "assert"] := .line (by decide +kernel)
  have hnote : ReadsLines [" (!"] [.opening, .word "!"] := .line (by decide +kernel)
  have hend : ReadsLines [" :named " ++ name ++ "))"]
      [.word ":named", .word name, .closing, .closing] := by
    have hnamed : IsWord ":named" := by decide
    have hclose := (Reads.word hname).append Reads.nil.closing.closing
      (Reads.startsApart_cons (by decide))
    have hall := ((Reads.word hnamed).spaced hclose).blank
    exact .line (by simpa using hall.tokensFrom_eq)
  have hall := hblank.append (hassert.append (hnote.append
    ((Formula.readsLines_layout Formula.indentStep f hf).append hend)))
  simpa [ReadsCommands, assertion, Command.sexp, tokens, tokensOf] using hall

/-- Assertions are read one by one, each named by the stem and its index. -/
theorem readsCommands_assertions (stem : String) (hstem : IsWord stem) {fs : List Formula}
    (hfs : ∀ f ∈ fs, f.Readable) (i : Nat) :
    ReadsCommands (assertions stem i fs) (namedAssertions stem i fs) := by
  induction fs generalizing i with
  | nil => exact .nil
  | cons f fs ih =>
    obtain ⟨hf, hfs⟩ := List.forall_mem_cons.mp hfs
    exact (readsCommands_assertion (hstem.append (isWord_repr i)) hf).append (ih hfs (i + 1))

/-- The negated goal is read as one command, the two questions to the solver follow. -/
theorem readsCommands_question {goal : Formula} (h : goal.Readable) :
    ReadsCommands (["", "(assert-not"] ++ formulaLines Formula.indentStep goal ++ [")"] ++
      ["(check-sat)", "(get-unsat-core)"]) [.assertNot goal, .checkSat, .getUnsatCore] := by
  have hopen : ReadsLines ["", "(assert-not"] [.opening, .word "assert-not"] :=
    .pair (by decide +kernel)
  have hclose : ReadsLines [")"] [.closing] := .line (by decide +kernel)
  have hasks : ReadsCommands ["(check-sat)", "(get-unsat-core)"] [.checkSat, .getUnsatCore] :=
    ReadsLines.pair (by decide +kernel)
  have hall := ((hopen.append (Formula.readsLines_layout Formula.indentStep goal h)).append
    hclose).append hasks
  simpa [ReadsCommands, Command.sexp, tokens, tokensOf] using hall

/-- The lines of a problem are read as its commands. -/
theorem readsCommands_lines {p : Problem} {v : Vocabulary} {goal : Formula} {ls : List String}
    (hgoal : p.conjecture = some goal) (hv : v.Readable) (hp : ∀ f ∈ p.formulas, f.Readable)
    (hls : p.lines v = .ok ls) : ReadsCommands ls (p.commands v goal) := by
  have haxioms : ∀ f ∈ p.axioms, f.Readable := fun f hf => hp f (by simp [formulas, hf])
  have hlemmas : ∀ f ∈ p.lemmas, f.Readable := fun f hf => hp f (by simp [formulas, hf])
  have hquestion := readsCommands_question (hp goal (by simp [formulas, hgoal]))
  have hoption : ReadsCommands ["(set-option :produce-unsat-cores true)"] [.produceCores] :=
    ReadsLines.line (by decide +kernel)
  have hsorts := ReadsCommands.flatMap fun s hs =>
    SortSymbol.readsCommands_declaration (hv.sorts s hs)
  have hall := ((((hoption.append hsorts).append (readsCommands_symbols hv.symbols)).append
    (readsCommands_assertions "axiom" (by decide) haxioms 0)).append
    (readsCommands_assertions "lemma" (by decide) hlemmas 0)).append hquestion
  simp only [lines, hgoal, Except.ok.injEq] at hls
  subst hls
  simpa [commands] using hall

/-- The text of lines is read as the commands that the lines are read as. -/
theorem readAll_unlines {ls : List String} {cs : List Command} (h : ReadsCommands ls cs) :
    readAll (unlines ls) = some (cs.map Command.sexp) := by
  have hall := h []
  rw [List.append_nil] at hall
  exact readAll_of_tokens (by simpa [tokensFrom, endWord] using hall)

/-- The text of a problem with a goal is read as the commands of the problem, whatever the labels
of its formulas are. -/
theorem readAll_print {p : Problem} {v : Vocabulary} {goal : Formula}
    (hgoal : p.conjecture = some goal) (hv : v.Readable) (hp : ∀ f ∈ p.formulas, f.Readable) :
    ∃ text, p.print v = .ok text ∧ readAll text = some ((p.commands v goal).map Command.sexp) := by
  obtain ⟨ls, hls, hprint⟩ := exists_lines v hgoal
  exact ⟨unlines ls, hprint, readAll_unlines (readsCommands_lines hgoal hv hp hls)⟩

/-- A vocabulary with sorts of every kind. -/
def labelledVocabulary : Vocabulary where
  sorts := [.int, .bool, .time, .trace]
  symbols := [⟨"i", [.time, .trace], .int, false⟩, ⟨"t1", [], .trace, false⟩,
    ⟨"-7", [], .int, true⟩]

/-- A problem with a label that reads like code if its line breaks are not kept apart. -/
def labelledProblem : Problem where
  axioms :=
    [.labelled "not ; (done\n\"or| )" (.quantified .all [.bound "it" .time]
      (.distinct (.app ⟨"i", [.time, .trace], .int, false⟩
        [.var (.bound "it" .time), .app ⟨"t1", [], .trace, false⟩ []])
        (.app ⟨"-7", [], .int, true⟩ [])))]
  conjecture := some (.junction .any [])

/-- A problem that is read as its commands although a label has a line break and unbalanced
brackets. -/
theorem readAll_print_labelledProblem :
    labelledProblem.conjecture = some (.junction .any []) ∧ labelledVocabulary.Readable ∧
    (∀ f ∈ labelledProblem.formulas, f.Readable) ∧
    ∃ text, labelledProblem.print labelledVocabulary = .ok text ∧
      readAll text = some
        ((labelledProblem.commands labelledVocabulary (.junction .any [])).map Command.sexp) := by
  have hgoal : labelledProblem.conjecture = some (.junction .any []) := rfl
  have hv : labelledVocabulary.Readable := ⟨by decide, by decide⟩
  have hp : ∀ f ∈ labelledProblem.formulas, f.Readable := by
    simp only [formulas, labelledProblem, List.nil_append, Option.toList_some, List.append_nil,
      List.cons_append, List.forall_mem_cons, Formula.Readable, Formula.AllReadable, Term.Readable,
      Term.AllReadable, List.not_mem_nil, false_implies, implies_true, and_true]
    decide
  exact ⟨hgoal, hv, hp, readAll_print hgoal hv hp⟩

end Problem

end TraceLogic
