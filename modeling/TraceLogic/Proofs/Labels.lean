import TraceLogic.Proofs.Script

/-!
# Labels are comments

A label has no part in what a formula says: two formulas are the same if they are equal without
their labels. In the text of a formula the labels are the lines that start with a semicolon, and
nothing else is on these lines. So a text from which they are deleted is the text of the formula
without labels, and what has been deleted are the lines of the labels.

Both facts about texts are facts about `Formula.layout`, where comments and code are told apart; the
lines of a layout are found again in the text because no line has a line feed in it.
-/

namespace TraceLogic

namespace Formula

/-! ## Sameness -/

/-- A formula without its label has none, however many there were. -/
theorem label?_unlabelled : (f : Formula) → f.unlabelled.label? = none
  | .labelled _ f => label?_unlabelled f
  | .equal _ _ | .distinct _ _ | .predicate _ _ | .negation _ | .implication _ _ | .junction _ _
  | .quantified _ _ _ => rfl

/-- Taking the label off changes nothing once all labels are erased. -/
theorem erase_unlabelled : (f : Formula) → f.unlabelled.erase = f.erase
  | .labelled _ f => erase_unlabelled f
  | .equal _ _ | .distinct _ _ | .predicate _ _ | .negation _ | .implication _ _ | .junction _ _
  | .quantified _ _ _ => rfl

/-- What is known about formulas without a label at their top goes for all formulas. -/
theorem agree_unlabelled_iff {f : Formula}
    (h : ∀ g : Formula, g.label? = none → (agree f g = true ↔ f.erase = g.erase)) (g : Formula) :
    agree f g.unlabelled = true ↔ f.erase = g.erase := by
  rw [h _ g.label?_unlabelled, erase_unlabelled]

mutual

/-- A formula says the same as one without a label at its top if they are equal without any. -/
theorem agree_iff : (f g : Formula) → g.label? = none → (agree f g = true ↔ f.erase = g.erase)
  | .labelled _ f, g, hg => agree_iff f g hg
  | .equal _ _, g, hg => by cases g <;> simp_all [agree, erase, label?]
  | .distinct _ _, g, hg => by cases g <;> simp_all [agree, erase, label?]
  | .predicate _ _, g, hg => by cases g <;> simp_all [agree, erase, label?]
  | .negation f, g, hg => by
    have hbody := agree_unlabelled_iff (agree_iff f)
    cases g <;> simp_all [agree, erase, label?]
  | .implication f f', g, hg => by
    have hpremise := agree_unlabelled_iff (agree_iff f)
    have hconclusion := agree_unlabelled_iff (agree_iff f')
    cases g <;> simp_all [agree, erase, label?]
  | .junction _ fs, g, hg => by
    have hparts := agreeParts_iff fs
    cases g <;> simp_all [agree, erase, label?]
  | .quantified _ _ f, g, hg => by
    have hbody := agree_unlabelled_iff (agree_iff f)
    cases g <;> simp_all [agree, erase, label?, and_assoc]

/-- Formulas agree apart from labels if and only if they are the same without them. -/
theorem agreeParts_iff : (fs gs : List Formula) →
    (agreeParts fs gs = true ↔ eraseParts fs = eraseParts gs)
  | [], gs => by cases gs <;> simp [agreeParts, eraseParts]
  | f :: fs, [] => by simp [agreeParts, eraseParts]
  | f :: fs, g :: gs => by
    have hfirst := agree_unlabelled_iff (agree_iff f) g
    simp [agreeParts, eraseParts, hfirst, agreeParts_iff fs gs]

end

/-- Two formulas are the same if they are equal without their labels. -/
theorem same_iff_erase_eq (f g : Formula) : f.same g = true ↔ f.erase = g.erase :=
  agree_unlabelled_iff (agree_iff f) g

end Formula

/-! ## Plain texts -/

/-- Whether a text can neither end a line nor start a comment. -/
def IsPlain (text : String) : Prop := '\n' ∉ text.toList ∧ ';' ∉ text.toList

instance (text : String) : Decidable (IsPlain text) := inferInstanceAs (Decidable (_ ∧ _))

/-- Two plain texts make a plain one. -/
theorem IsPlain.append {s t : String} (hs : IsPlain s) (ht : IsPlain t) : IsPlain (s ++ t) := by
  simp only [IsPlain, String.toList_append, List.mem_append, not_or]
  exact ⟨⟨hs.1, ht.1⟩, hs.2, ht.2⟩

namespace Term

mutual

/-- The names in the text of a term. -/
def names : Term → List String
  | .var f => [f.name]
  | .app f ts => f.name :: namesOf ts

/-- The names in the text of several terms. -/
def namesOf : List Term → List String
  | [] => []
  | t :: ts => names t ++ namesOf ts

end

/-- A symbol of a plain name is printed plainly, also as an operator. -/
theorem isPlain_printedName {f : Symbol} (h : IsPlain f.name) : IsPlain f.printedName := by
  have hoperator : ∀ op, Symbol.operator? f.name = some op → IsPlain op := by
    intro op
    unfold Symbol.operator?
    split <;> rintro ⟨⟩ <;> decide
  unfold Symbol.printedName
  split
  · cases hop : Symbol.operator? f.name with
    | none => exact h
    | some op => exact hoperator op hop
  · exact h

/-- A symbol without arguments is printed plainly, also in brackets. -/
theorem isPlain_printConstant {f : Symbol} (h : IsPlain f.name) : IsPlain (printConstant f) := by
  have hname := isPlain_printedName h
  unfold printConstant
  split
  · rename_i d ds _ hminus
    have hdigits : IsPlain (String.ofList (d :: ds)) := by
      rw [IsPlain, hminus] at hname
      rw [IsPlain, String.toList_ofList]
      exact ⟨fun hd => hname.1 (List.mem_cons_of_mem _ hd),
        fun hd => hname.2 (List.mem_cons_of_mem _ hd)⟩
    exact (IsPlain.append (by decide) hdigits).append (by decide)
  · exact hname

mutual

/-- A term of plain names is printed plainly. -/
theorem isPlain_print : (t : Term) → (∀ name ∈ t.names, IsPlain name) → IsPlain t.print
  | .var _, h => h _ List.mem_cons_self
  | .app _ [], h => isPlain_printConstant (h _ List.mem_cons_self)
  | .app f (t :: ts), h => by
    obtain ⟨hname, hargs⟩ := List.forall_mem_cons.mp h
    obtain ⟨hfirst, hrest⟩ := List.forall_mem_append.mp hargs
    have hopening : IsPlain "(" := by decide
    have hblank : IsPlain " " := by decide
    have hhead := (hopening.append (isPlain_printedName hname)).append hblank
    exact ((hhead.append (isPlain_print t hfirst)).append (isPlain_printRest ts hrest)).append
      (by decide)

/-- The arguments of a term of plain names are printed plainly. -/
theorem isPlain_printRest : (ts : List Term) → (∀ name ∈ namesOf ts, IsPlain name) →
    IsPlain (printRest ts)
  | [], _ => by decide
  | t :: ts, h => by
    obtain ⟨hfirst, hrest⟩ := List.forall_mem_append.mp h
    exact (IsPlain.append (by decide) (isPlain_print t hfirst)).append (isPlain_printRest ts hrest)

end

end Term

/-! ## Layouts -/

namespace Line

/-- The text of a comment. -/
def comment? : Line → Option String
  | comment _ text => some text
  | code _ _ => none

/-- A comment has its text. -/
@[simp]
theorem comment?_comment (n : Nat) (text : String) : (comment n text).comment? = some text := rfl

/-- A line of code is no comment. -/
@[simp]
theorem comment?_code (n : Nat) (text : String) : (code n text).comment? = none := rfl

/-- Whether a line is a single line of text that is a comment only if it is meant to be one. -/
def Plain : Line → Prop
  | comment _ text => '\n' ∉ text.toList
  | code _ text => IsPlain text

end Line

namespace Formula

mutual

/-- The labels of a formula and of all its parts. -/
def labels : Formula → List String
  | .equal _ _ => []
  | .distinct _ _ => []
  | .predicate _ _ => []
  | .negation f => labels f
  | .implication f g => labels f ++ labels g
  | .junction _ fs => labelsOfParts fs
  | .quantified _ _ f => labels f
  | .labelled text f => text :: labels f

/-- The labels of several formulas and of all their parts. -/
def labelsOfParts : List Formula → List String
  | [] => []
  | f :: fs => labels f ++ labelsOfParts fs

end

mutual

/-- The names in the text of a formula: those of its symbols, and the sorts of the variables that it
binds. -/
def names : Formula → List String
  | .equal s t => s.names ++ t.names
  | .distinct s t => s.names ++ t.names
  | .predicate p ts => Term.names (.app p ts)
  | .negation f => names f
  | .implication f g => names f ++ names g
  | .junction _ fs => namesOfParts fs
  | .quantified _ binders f => binders.flatMap (fun b => [b.name, b.range.name]) ++ names f
  | .labelled _ f => names f

/-- The names in the text of several formulas. -/
def namesOfParts : List Formula → List String
  | [] => []
  | f :: fs => names f ++ namesOfParts fs

end

mutual

/-- Nothing is left to label once the labels are erased. -/
theorem labels_erase : (f : Formula) → f.erase.labels = []
  | .equal _ _ => rfl
  | .distinct _ _ => rfl
  | .predicate _ _ => rfl
  | .negation f => labels_erase f
  | .implication f g => by simp [erase, labels, labels_erase f, labels_erase g]
  | .junction _ fs => labels_eraseParts fs
  | .quantified _ _ f => labels_erase f
  | .labelled _ f => labels_erase f

/-- Nothing is left to label in parts once their labels are erased. -/
theorem labels_eraseParts : (fs : List Formula) → labelsOfParts (eraseParts fs) = []
  | [] => rfl
  | f :: fs => by simp [eraseParts, labelsOfParts, labels_erase f, labels_eraseParts fs]

end

mutual

/-- Without its comments, a layout is that of the formula without labels. -/
theorem filter_layout (n : Nat) : (f : Formula) →
    (layout n f).filter (·.comment?.isNone) = layout n f.erase
  | .equal _ _ => rfl
  | .distinct _ _ => rfl
  | .predicate _ _ => rfl
  | .negation f => by simp [layout, erase, List.filter_cons, filter_layout _ f]
  | .implication f g => by
    simp [layout, erase, List.filter_cons, filter_layout _ f, filter_layout _ g]
  | .junction _ [] => rfl
  | .junction _ [f] => by simp [layout, erase, eraseParts, filter_layout n f]
  | .junction _ (f :: g :: fs) => by
    have hparts := filter_layoutParts (n + indentStep) (g :: fs)
    rw [eraseParts] at hparts
    simp [layout, erase, eraseParts, List.filter_cons, filter_layout _ f, hparts]
  | .quantified _ _ f => by simp [layout, erase, List.filter_cons, filter_layout _ f]
  | .labelled text f => by
    have hlabel : ((textLines text).map (Line.comment n)).filter (·.comment?.isNone) = [] := by
      simp [List.filter_eq_nil_iff]
    rw [layout, List.filter_append, hlabel, filter_layout n f]
    rfl

/-- Without the comments, parts are laid out as they are without their labels. -/
theorem filter_layoutParts (n : Nat) : (fs : List Formula) →
    (layoutParts n fs).filter (·.comment?.isNone) = layoutParts n (eraseParts fs)
  | [] => rfl
  | f :: fs => by
    simp [layoutParts, eraseParts, filter_layout n f, filter_layoutParts n fs]

end

mutual

/-- The comments of a layout are the lines of the labels. -/
theorem comments_layout (n : Nat) : (f : Formula) →
    (layout n f).filterMap Line.comment? = f.labels.flatMap textLines
  | .equal _ _ => rfl
  | .distinct _ _ => rfl
  | .predicate _ _ => rfl
  | .negation f => by simp [layout, labels, List.filterMap_cons, comments_layout _ f]
  | .implication f g => by
    simp [layout, labels, List.filterMap_cons, comments_layout _ f, comments_layout _ g]
  | .junction _ [] => rfl
  | .junction _ [f] => by simp [layout, labels, labelsOfParts, comments_layout n f]
  | .junction _ (f :: g :: fs) => by
    have hparts := comments_layoutParts (n + indentStep) (g :: fs)
    rw [labelsOfParts] at hparts
    simp [layout, labels, labelsOfParts, List.filterMap_cons, comments_layout _ f, hparts]
  | .quantified _ _ f => by simp [layout, labels, List.filterMap_cons, comments_layout _ f]
  | .labelled text f => by
    have hlabel : ((textLines text).map (Line.comment n)).filterMap Line.comment? =
        textLines text := by
      simp [List.filterMap_map, Function.comp_def]
    rw [layout, List.filterMap_append, hlabel, comments_layout n f]
    rfl

/-- The comments in the layout of parts are the lines of their labels, in order. -/
theorem comments_layoutParts (n : Nat) : (fs : List Formula) →
    (layoutParts n fs).filterMap Line.comment? = (labelsOfParts fs).flatMap textLines
  | [] => rfl
  | f :: fs => by
    simp [layoutParts, labelsOfParts, comments_layout n f, comments_layoutParts n fs]

end

/-- Every formula has a line, even if its label is empty. -/
theorem layout_ne_nil (n : Nat) : (f : Formula) → layout n f ≠ []
  | .equal _ _ => by simp [layout]
  | .distinct _ _ => by simp [layout]
  | .predicate _ _ => by simp [layout]
  | .negation _ => by simp [layout]
  | .implication _ _ => by simp [layout]
  | .junction _ [] => by simp [layout]
  | .junction _ [f] => layout_ne_nil n f
  | .junction _ (_ :: _ :: _) => by simp [layout]
  | .quantified _ _ _ => by simp [layout]
  | .labelled _ f => by simp [layout, layout_ne_nil n f]

/-- Both sides of an equation are printed plainly between plain texts. -/
theorem isPlain_sides {s t : Term} (h : ∀ name ∈ s.names ++ t.names, IsPlain name)
    {opening closing : String} (hopening : IsPlain opening) (hclosing : IsPlain closing) :
    IsPlain (opening ++ s.print ++ " " ++ t.print ++ closing) := by
  obtain ⟨hs, ht⟩ := List.forall_mem_append.mp h
  have hblank : IsPlain " " := by decide
  have hfirst := (hopening.append (Term.isPlain_print s hs)).append hblank
  exact (hfirst.append (Term.isPlain_print t ht)).append hclosing

/-- Variables of plain names and sorts are listed plainly. -/
theorem isPlain_binderList {binders : List Symbol}
    (h : ∀ name ∈ binders.flatMap (fun b => [b.name, b.range.name]), IsPlain name) :
    IsPlain (binderList binders) := by
  induction binders with
  | nil => decide
  | cons b binders ih =>
    rw [List.flatMap_cons, List.forall_mem_append] at h
    obtain ⟨hb, hbinders⟩ := h
    have hname : IsPlain b.name := hb _ (by simp)
    have hsort : IsPlain b.range.name := hb _ (by simp)
    have hopening : IsPlain "(" := by decide
    have hblank : IsPlain " " := by decide
    have hfirst := ((hopening.append hname).append hblank).append hsort
    rw [binderList, List.map_cons, String.join_cons]
    exact (hfirst.append (by decide)).append (ih hbinders)

/-- Plain lines stay plain between an opening and a closing one. -/
theorem plain_enclosed {ls : List Line} (hls : ∀ line ∈ ls, line.Plain) (n : Nat) {opening : String}
    (hopening : IsPlain opening) :
    ∀ line ∈ Line.code n opening :: (ls ++ [.code n ")"]), line.Plain := by
  have hclosing : (Line.code n ")").Plain := show IsPlain ")" by decide
  refine List.forall_mem_cons.mpr ⟨hopening, List.forall_mem_append.mpr ⟨hls, ?_⟩⟩
  exact List.forall_mem_singleton.mpr hclosing

/-- The lines of a label are single lines, whatever the label is. -/
theorem plain_label (n : Nat) (text : String) :
    ∀ line ∈ (textLines text).map (Line.comment n), line.Plain := by
  intro line hline
  obtain ⟨row, hrow, rfl⟩ := List.mem_map.mp hline
  obtain ⟨cs, hcs, rfl⟩ := List.mem_map.mp hrow
  rw [Line.Plain, String.toList_ofList]
  exact not_mem_of_mem_lineList hcs

mutual

/-- Labels and plain names make single lines, which are comments if they are meant to be. -/
theorem plain_layout (n : Nat) : (f : Formula) → (∀ name ∈ f.names, IsPlain name) →
    ∀ line ∈ layout n f, line.Plain
  | .equal _ _, h => List.forall_mem_singleton.mpr (isPlain_sides h (by decide) (by decide))
  | .distinct _ _, h => List.forall_mem_singleton.mpr (isPlain_sides h (by decide) (by decide))
  | .predicate p ts, h => List.forall_mem_singleton.mpr (Term.isPlain_print (.app p ts) h)
  | .negation f, h => plain_enclosed (plain_layout _ f h) n (by decide)
  | .implication f g, h => by
    obtain ⟨hf, hg⟩ := List.forall_mem_append.mp h
    have hparts := List.forall_mem_append.mpr ⟨plain_layout (n + indentStep) f hf,
      plain_layout (n + indentStep) g hg⟩
    simpa [layout] using plain_enclosed hparts n (show IsPlain "(=>" by decide)
  | .junction op [], _ => by
    have hunit : IsPlain (junctionUnit op) := by cases op <;> decide
    exact List.forall_mem_singleton.mpr hunit
  | .junction _ [f], h => plain_layout n f (List.forall_mem_append.mp h).1
  | .junction op (f :: g :: fs), h => by
    obtain ⟨hf, hrest⟩ := List.forall_mem_append.mp h
    have hoperator : IsPlain ("(" ++ junctionOperator op) := by cases op <;> decide
    have hparts := List.forall_mem_append.mpr ⟨plain_layout (n + indentStep) f hf,
      plain_layoutParts (n + indentStep) (g :: fs) hrest⟩
    simpa [layout] using plain_enclosed hparts n hoperator
  | .quantified q binders f, h => by
    obtain ⟨hbinders, hf⟩ := List.forall_mem_append.mp h
    have hword : IsPlain ("(" ++ quantifierWord q ++ " (") := by cases q <;> decide
    have hopening := (hword.append (isPlain_binderList hbinders)).append
      (show IsPlain ")" by decide)
    simpa [layout] using plain_enclosed (plain_layout (n + indentStep) f hf) n hopening
  | .labelled text f, h =>
    List.forall_mem_append.mpr ⟨plain_label n text, plain_layout n f h⟩

/-- Parts of plain names are laid out in plain lines. -/
theorem plain_layoutParts (n : Nat) : (fs : List Formula) →
    (∀ name ∈ namesOfParts fs, IsPlain name) → ∀ line ∈ layoutParts n fs, line.Plain
  | [], _ => List.forall_mem_nil _
  | f :: fs, h => by
    obtain ⟨hf, hfs⟩ := List.forall_mem_append.mp h
    exact List.forall_mem_append.mpr ⟨plain_layout n f hf, plain_layoutParts n fs hfs⟩

end

end Formula

/-! ## Texts -/

/-- The lines of a text, which line feeds divide. -/
def rows (text : String) : List String := (text.toList.splitOn '\n').map String.ofList

/-- Whether the first character of a line that is not a blank is a semicolon. -/
def opensComment (row : String) : Bool := (row.toList.dropWhile (· = ' ')).head? = some ';'

/-- A text without the lines that are comments. -/
def deleteComments (text : String) : String :=
  "\n".intercalate ((rows text).filter (fun row => !opensComment row))

/-- A line without the blanks in front of it. -/
def unindented (row : String) : String := String.ofList (row.toList.dropWhile (· = ' '))

/-- The lines of a text that are comments. -/
def commentsOf (text : String) : List String := (rows text).filter opensComment

/-- Lines that have been put together are found again, as there are no line feeds in them. -/
theorem rows_intercalate {lines : List String} (hne : lines ≠ [])
    (h : ∀ line ∈ lines, '\n' ∉ line.toList) : rows ("\n".intercalate lines) = lines := by
  have hsplit := List.splitOn_intercalate '\n' (List.forall_mem_map.mpr h)
    (show lines.map String.toList ≠ [] by simpa using hne)
  rw [rows, String.toList_intercalate]
  simp [hsplit]

namespace Line

/-- Indenting puts blanks in front. -/
theorem toList_indented (n : Nat) (text : String) :
    (indented n text).toList = List.replicate n ' ' ++ text.toList := by
  rw [indented, String.toList_append, String.toList_ofList]

/-- Indentation is passed over. -/
theorem dropWhile_indented (n : Nat) (text : String) :
    (indented n text).toList.dropWhile (· = ' ') = text.toList.dropWhile (· = ' ') := by
  have hblanks : ∀ c ∈ List.replicate n ' ', decide (c = ' ') = true := by simp
  rw [toList_indented, List.dropWhile_append_of_pos hblanks]

/-- Indenting adds no line feed. -/
theorem not_mem_indented (n : Nat) {text : String} (h : '\n' ∉ text.toList) :
    '\n' ∉ (indented n text).toList := by
  simp [toList_indented, h]

/-- A plain line is printed as a single line. -/
theorem not_mem_print {line : Line} (h : line.Plain) : '\n' ∉ line.print.toList := by
  cases line with
  | comment n text =>
    have htext : '\n' ∉ text.toList := h
    exact not_mem_indented n (by simpa using htext)
  | code n text => exact not_mem_indented n h.1

/-- A line of a layout looks like a comment if it is one. -/
theorem opensComment_print {line : Line} (h : line.Plain) :
    opensComment line.print = line.comment?.isSome := by
  cases line with
  | comment n text => simp [opensComment, print, dropWhile_indented]
  | code n text =>
    have hcode : ((text.toList.dropWhile (· = ' ')).head?) ≠ some ';' := by
      intro hhead
      exact h.2 ((List.dropWhile_suffix _).subset (List.mem_of_head? hhead))
    simpa [opensComment, print, dropWhile_indented] using hcode

/-- Without the blanks in front, a comment is its text after a semicolon. -/
theorem unindented_print_comment (n : Nat) (text : String) :
    unindented (comment n text).print = "; " ++ text := by
  rw [unindented, print, dropWhile_indented, ← String.toList_inj]
  simp

/-- The comments among the lines of a layout. -/
theorem filter_opensComment {ls : List Line} (h : ∀ line ∈ ls, line.Plain) :
    ((ls.map (·.print)).filter opensComment).map unindented =
      (ls.filterMap comment?).map ("; " ++ ·) := by
  induction ls with
  | nil => rfl
  | cons line ls ih =>
    obtain ⟨hline, hls⟩ := List.forall_mem_cons.mp h
    have hopens := opensComment_print hline
    cases line with
    | comment n text => simp [hopens, unindented_print_comment, ih hls]
    | code n text => simp [hopens, List.filterMap_cons, ih hls]

end Line

namespace Formula

/-- The lines of a formula's text are the lines of its layout. -/
theorem rows_print {f : Formula} (h : ∀ name ∈ f.names, IsPlain name) (n : Nat) :
    rows (f.print n) = (layout n f).map (·.print) := by
  have hplain := plain_layout n f h
  refine rows_intercalate (by simpa using layout_ne_nil n f) ?_
  exact List.forall_mem_map.mpr fun line hline => Line.not_mem_print (hplain line hline)

/-- Without comments, the text of a formula is that of the formula without labels. -/
theorem deleteComments_print {f : Formula} (h : ∀ name ∈ f.names, IsPlain name) (n : Nat) :
    deleteComments (f.print n) = f.erase.print n := by
  have hplain := plain_layout n f h
  have hcode : (layout n f).filter (fun line => !opensComment line.print) = layout n f.erase := by
    rw [← filter_layout]
    refine List.filter_congr fun line hline => ?_
    rw [Line.opensComment_print (hplain line hline), Option.not_isSome]
  rw [deleteComments, rows_print h, List.filter_map, print]
  exact congrArg (fun ls : List Line => "\n".intercalate (ls.map (·.print))) hcode

/-- The comments in the text of a formula are the lines of its labels. -/
theorem commentsOf_print {f : Formula} (h : ∀ name ∈ f.names, IsPlain name) (n : Nat) :
    (commentsOf (f.print n)).map unindented = (f.labels.flatMap textLines).map ("; " ++ ·) := by
  rw [commentsOf, rows_print h, Line.filter_opensComment (plain_layout n f h), comments_layout]

/-- Labels are comments and nothing else. They have no part in whether formulas are the same. If no
name of a formula ends a line or starts a comment, then deleting the comments from its text leaves
the text of the formula without labels, and what is deleted are the lines of the labels. -/
theorem labels_are_comments :
    (∀ f g : Formula, f.same g = true ↔ f.erase = g.erase) ∧
    (∀ f : Formula, f.erase.labels = []) ∧
    ∀ (f : Formula) (n : Nat), (∀ name ∈ f.names, IsPlain name) →
      deleteComments (f.print n) = f.erase.print n ∧
      (commentsOf (f.print n)).map unindented = (f.labels.flatMap textLines).map ("; " ++ ·) ∧
      (commentsOf (f.print n)).length = (f.labels.flatMap textLines).length := by
  refine ⟨same_iff_erase_eq, labels_erase, fun f n h => ?_⟩
  have hcomments := commentsOf_print h n
  refine ⟨deleteComments_print h n, hcomments, ?_⟩
  simpa using congrArg List.length hcomments

/-- Labels on a junction of one part and on the part, with several lines, one of which looks like
code and one of which is empty. -/
def labelledFormula : Formula :=
  .labelled "outer\r\n  (not" (.junction .any [.labelled "\ninner;" (.junction .all
    [.labelled "" (.predicate ⟨"p", [], .bool, false⟩ []),
      .quantified .some [.bound "it" .time] (.junction .any [])])])

/-- The sample has labels at several depths, one of them with several lines. -/
theorem labelledFormula_comments :
    (∀ name ∈ labelledFormula.names, IsPlain name) ∧
    deleteComments (labelledFormula.print 2) = labelledFormula.erase.print 2 ∧
    (commentsOf (labelledFormula.print 2)).length = 4 := by
  have hplain : ∀ name ∈ labelledFormula.names, IsPlain name := by decide
  obtain ⟨hdelete, -, hlength⟩ := labels_are_comments.2.2 labelledFormula 2 hplain
  have hfour : (labelledFormula.labels.flatMap textLines).length = 4 := by decide +kernel
  exact ⟨hplain, hdelete, hlength.trans hfour⟩

end Formula

end TraceLogic
