import EntityScript.Proofs.Lexemes

/-! Statements with all the freedom that their layout has: blanks, blank lines and comments between
them, quoted words, keywords in capitals, and blocks glued to what stands before them. Skipping a
statement ends where the statement ends, `skipStatement_front`. For what stands inside blocks this
asks for one thing more: if a bare operand of an `if` has two slashes in it, no brace may follow on
its line, since the search for the closing brace takes the rest of that line for a comment. -/

namespace EntityScript.Reading

/-- A command with its arguments, up to the end of its line. -/
structure Line where
  first : Lexeme
  arguments : List Argument
  last : LineEnd
  tidy : first.Tidy ∧ ∀ a ∈ arguments, a.lexeme.Tidy
  spaced : first.Fits (Argument.written arguments ++ last.text) ∧ Argument.Spaced arguments last.text
  notIf : Text.lowercase (String.ofList first.chars) ≠ "if"
  notElse : Text.lowercase (String.ofList first.chars) ≠ "else"

def Line.text (l : Line) : List Char := l.first.chars ++ (Argument.written l.arguments ++ l.last.text)

/-- Operands whose bare words have no quotes and no braces in them. -/
structure TidyTest extends Test where
  tidy : ∀ a ∈ toTest.operands, a.lexeme.Tidy

def Test.hasSlashes (t : Test) : Bool := t.operands.any (·.lexeme.hasSlashes)

/-- A statement, with what stands before it. -/
inductive Layout
  | line (gap : List Filler) (line : Line)
  | block (gap : List Filler) (body : List Layout) (last : List Filler)
  | guarded (gap : List Filler) (word : Spelling "if") (test : TidyTest) (branch : Layout)
  | choice (gap : List Filler) (word : Spelling "if") (test : TidyTest) (branch : Layout)
    (last : List Filler) (otherwise : Spelling "else") (other : Layout)

namespace Layout

def endsLine : Layout → Bool
  | line .. => true
  | block .. => false
  | guarded _ _ _ branch => branch.endsLine
  | choice _ _ _ _ _ _ other => other.endsLine

def isOpen : Layout → Bool
  | line .. => false
  | block .. => false
  | guarded .. => true
  | choice _ _ _ _ _ _ other => other.isOpen

def ending (t : Layout) : List Filler := if t.endsLine then [newLine] else []

mutual

def front : Layout → List Char
  | line gap l => Filler.text gap ++ l.text
  | block gap body last => Filler.text gap ++ '{' :: (written body ++ (Filler.text last ++ ['}']))
  | guarded gap word test branch => Filler.text gap ++ (word.chars ++ (test.text ++ front branch))
  | choice gap word test branch last otherwise other =>
    Filler.text gap ++ (word.chars ++ (test.text ++ (front branch ++
      (Filler.text (branch.ending ++ last) ++ (otherwise.chars ++ front other)))))

def written : List Layout → List Char
  | [] => []
  | t :: more => front t ++ (Filler.text t.ending ++ written more)

end

mutual

/-- Words end before what follows them, and every `else` belongs to the nearest `if`. -/
def LaidOut : Layout → Prop
  | line .. => True
  | block _ body _ => AllLaidOut body
  | guarded _ _ test branch => test.right.lexeme.Fits branch.front ∧ LaidOut branch
  | choice _ _ test branch _ _ other =>
    test.right.lexeme.Fits branch.front ∧ StopsWord other.front ∧ branch.isOpen = false ∧
      LaidOut branch ∧ LaidOut other

def AllLaidOut : List Layout → Prop
  | [] => True
  | t :: more => LaidOut t ∧ AllLaidOut more

end

/-- A brace stands on the first line of the statement. -/
def bracesAhead : Layout → Bool
  | line .. => false
  | block gap .. => !Filler.breaks gap
  | guarded gap _ _ branch => !Filler.breaks gap && branch.bracesAhead
  | choice gap _ _ branch _ _ _ => !Filler.breaks gap && branch.bracesAhead

mutual

/-- No brace follows two slashes of an operand on their line. -/
def Clear : Layout → Prop
  | line .. => True
  | block _ body _ => AllClear body
  | guarded _ _ test branch => (test.hasSlashes = true → branch.bracesAhead = false) ∧ Clear branch
  | choice _ _ test branch _ _ other =>
    (test.hasSlashes = true → branch.bracesAhead = false) ∧ Clear branch ∧ Clear other

def AllClear : List Layout → Prop
  | [] => True
  | t :: more => Clear t ∧ AllClear more

end

def ClearInside : Layout → Prop
  | line .. => True
  | block _ body _ => AllClear body
  | guarded _ _ _ branch => branch.ClearInside
  | choice _ _ _ branch _ _ other => branch.ClearInside ∧ other.ClearInside

end Layout

variable {rest : List Char}

/-- Behind a gap in a comment the comment goes on, unless its line has ended. -/
theorem dropBlock_afterWords_gap (slashes : Bool) (gap : List Filler) (n : Nat) (cs : List Char) :
    dropBlock (.afterWords slashes) n (Filler.text gap ++ cs) =
      dropBlock (.afterWords (slashes && !Filler.breaks gap)) n cs := by
  cases slashes with
  | false => exact dropBlock_gap gap n cs
  | true =>
    induction gap with
    | nil => rfl
    | cons f gap ih =>
      rw [Filler.text_cons]
      cases f with
      | comment text h =>
        have hbreak : '\n' ∉ '/' :: '/' :: text := by simpa using h
        have hchars : (Filler.comment text h).chars ++ (Filler.text gap ++ cs) =
            '/' :: '/' :: text ++ '\n' :: (Filler.text gap ++ cs) := by simp [Filler.chars]
        rw [hchars]
        exact (dropBlock_comment_append hbreak n _).trans (dropBlock_gap gap n cs)
      | blank b =>
        have hbreaks : Filler.breaks (.blank b :: gap) = (b.char == '\n' || Filler.breaks gap) := rfl
        rw [hbreaks]
        by_cases hb : b.char = '\n'
        · have hgap : dropBlock .comment n (b.char :: (Filler.text gap ++ cs)) = dropBlock .code n cs := by
            rw [hb]
            exact dropBlock_gap gap n cs
          rw [hb]
          exact hgap
        · have hb' : (b.char == '\n') = false := by simpa using hb
          have hnone : '\n' ∉ [b.char] := by simpa using Ne.symm hb
          have hskip := dropBlock_comment_append hnone n (Filler.text gap ++ cs)
          rw [hb', Bool.false_or, ← ih]
          exact hskip

/-- A comment goes no further than its line. -/
theorem dropBlock_comment_line {text : List Char} (h : '\n' ∉ text) (hrest : AtBreak rest) (n : Nat) :
    dropBlock .comment n (text ++ rest) = dropBlock .code n rest :=
  (dropBlock_comment_append h n rest).trans (dropBlock_comment_of_atBreak hrest n)

namespace Line

theorem noBreak (l : Line) : '\n' ∉ l.text := by
  simp only [text, List.mem_append, not_or]
  exact ⟨l.first.noBreak, Argument.noBreak_written _, l.last.noBreak⟩

theorem text_append (l : Line) (rest : List Char) :
    l.text ++ rest = l.first.chars ++ (Argument.written l.arguments ++ (l.last.text ++ rest)) := by
  simp [text]

theorem fits (l : Line) (hrest : AtBreak rest) :
    l.first.Fits (Argument.written l.arguments ++ (l.last.text ++ rest)) ∧
      Argument.Spaced l.arguments (l.last.text ++ rest) := by
  obtain ⟨hfirst, harguments⟩ := l.spaced
  refine ⟨?_, harguments.append fun _ => hrest.stopsToken⟩
  rw [← List.append_assoc]
  exact hfirst.append fun _ => hrest.stopsToken

theorem dropBlock_text (l : Line) (hrest : AtBreak rest) (slashes : Bool) (n : Nat) :
    dropBlock (.afterWords slashes) n (l.text ++ rest) = dropBlock .code n rest := by
  cases slashes with
  | true => exact dropBlock_comment_line l.noBreak hrest n
  | false =>
    obtain ⟨hfirst, harguments⟩ := l.fits hrest
    have hlast := l.last.noBreak
    have hwords : '\n' ∉ Argument.written l.arguments ++ l.last.text := by
      simpa using ⟨Argument.noBreak_written _, hlast⟩
    rw [text_append, Inside.afterWords, if_neg Bool.false_ne_true, dropBlock_lexeme l.tidy.1 hfirst]
    cases l.first.hasSlashes with
    | true =>
      rw [← List.append_assoc]
      exact dropBlock_comment_line hwords hrest n
    | false =>
      refine (dropBlock_written l.tidy.2 harguments n).trans ?_
      cases l.arguments.any (·.lexeme.hasSlashes) with
      | true => exact dropBlock_comment_line hlast hrest n
      | false => exact l.last.dropBlock_text hrest n

theorem readCommand_text (l : Line) (hrest : AtBreak rest) :
    l.first.Leads (readCommand (l.text ++ rest)).1 (l.text ++ rest) (readCommand (l.text ++ rest)).2 := by
  rw [text_append]
  exact l.first.leads l.tidy.1 (l.fits hrest).1 l.notIf l.notElse

theorem skipStatement_text (l : Line) (hrest : AtBreak rest) : skipStatement (l.text ++ rest) = rest := by
  have hread := l.readCommand_text hrest
  rw [skipStatement_eq, hread.command]
  dsimp only
  rw [← dropLine_of_onLine hread.onLine]
  exact dropLine_append l.noBreak hrest

end Line

theorem TidyTest.dropBlock_text {t : TidyTest} (h : t.right.lexeme.Fits rest) (slashes : Bool) (n : Nat) :
    dropBlock (.afterWords slashes) n (t.text ++ rest) =
      dropBlock (.afterWords (slashes || t.hasSlashes)) n rest := by
  cases slashes with
  | true => exact dropBlock_comment_append (Argument.noBreak_written _) n rest
  | false => exact dropBlock_written t.tidy (t.spaced.concat h) n

/-- A keyword is passed over wherever it stands. -/
theorem Spelling.dropBlock_chars {word : String} (k : Spelling word) (slashes : Bool) (n : Nat)
    (rest : List Char) :
    dropBlock (.afterWords slashes) n (k.chars ++ rest) = dropBlock (.afterWords slashes) n rest := by
  cases slashes with
  | false => exact dropBlock_quiet k.isQuiet n rest
  | true => exact dropBlock_comment_append k.noBreak n rest

namespace Layout

theorem atBreak_ending {t : Layout} (h : t.endsLine = true) (rest : List Char) :
    AtBreak (Filler.text t.ending ++ rest) := by
  rw [ending, if_pos h]
  intro c hc
  cases hc
  rfl

theorem atBreak_ending_append {t : Layout} (h : t.endsLine = true) (more : List Filler) (rest : List Char) :
    AtBreak (Filler.text (t.ending ++ more) ++ rest) := by
  rw [Filler.text_append, List.append_assoc]
  exact atBreak_ending h _

/-- Behind a test, no brace of the branch comes into a comment that began before the `if` or in the test. -/
theorem bracesAhead_branch {gap : List Filler} {test : TidyTest} {branch : Layout} {slashes : Bool}
    (hbefore : slashes = true → (!Filler.breaks gap && branch.bracesAhead) = false)
    (htest : test.hasSlashes = true → branch.bracesAhead = false)
    (hslashes : ((slashes && !Filler.breaks gap) || test.hasSlashes) = true) : branch.bracesAhead = false := by
  rcases Bool.or_eq_true_iff.1 hslashes with hcomment | hown
  · obtain ⟨hcomment, hgap⟩ := Bool.and_eq_true_iff.1 hcomment
    simpa [hgap] using hbefore hcomment
  · exact htest hown

theorem front_ne_nil (t : Layout) : t.front ≠ [] := by
  cases t with
  | line gap l =>
    rw [front, Line.text]
    exact List.append_ne_nil_of_right_ne_nil _ (List.append_ne_nil_of_left_ne_nil l.first.chars_ne_nil _)
  | block gap body last =>
    rw [front]
    exact List.append_ne_nil_of_right_ne_nil _ (List.cons_ne_nil _ _)
  | guarded gap word test branch =>
    rw [front]
    exact List.append_ne_nil_of_right_ne_nil _ (List.append_ne_nil_of_left_ne_nil (word.nonempty (by decide)) _)
  | choice gap word test branch last otherwise other =>
    rw [front]
    exact List.append_ne_nil_of_right_ne_nil _ (List.append_ne_nil_of_left_ne_nil (word.nonempty (by decide)) _)

section

variable (gap last : List Filler) (word : Spelling "if") (test : TidyTest) (otherwise : Spelling "else")
  (branch other : Layout) (rest : List Char)

theorem front_line (l : Line) : front (.line gap l) ++ rest = Filler.text gap ++ (l.text ++ rest) := by
  rw [front, List.append_assoc]

theorem front_block (body : List Layout) :
    front (.block gap body last) ++ rest =
      Filler.text gap ++ '{' :: (written body ++ (Filler.text last ++ '}' :: rest)) := by
  simp [front]

theorem front_guarded :
    front (.guarded gap word test branch) ++ rest =
      Filler.text gap ++ (word.chars ++ (test.text ++ (front branch ++ rest))) := by
  simp [front]

theorem front_choice :
    front (.choice gap word test branch last otherwise other) ++ rest =
      Filler.text gap ++ (word.chars ++ (test.text ++ (front branch ++
        (Filler.text (branch.ending ++ last) ++ (otherwise.chars ++ (front other ++ rest)))))) := by
  simp [front]

end

theorem readCommand_if (word : Spelling "if") (test : Test) (rest : List Char) :
    readCommand (word.chars ++ (test.text ++ rest)) = ("if", test.text ++ rest) :=
  word.readCommand_chars (by decide) (test.stopsWord_text rest)

theorem readCommand_else {other : Layout} (otherwise : Spelling "else") (h : StopsWord other.front)
    (rest : List Char) : readCommand (otherwise.chars ++ (other.front ++ rest)) = ("else", other.front ++ rest) := by
  refine otherwise.readCommand_chars (by decide) ?_
  obtain ⟨c, more, hfront⟩ := List.exists_cons_of_ne_nil other.front_ne_nil
  rw [hfront] at h ⊢
  exact h

theorem fits_front {x : Lexeme} {branch : Layout} (h : x.Fits branch.front) (rest : List Char) :
    x.Fits (branch.front ++ rest) :=
  h.append fun hnil => absurd hnil branch.front_ne_nil

mutual

/-- A statement leaves as many blocks open as it found, also if it begins in a comment, as long as it
has no brace there. -/
theorem dropBlock_front : (t : Layout) → t.LaidOut → t.Clear → {rest : List Char} →
    (t.endsLine = true → AtBreak rest) → (slashes : Bool) → (slashes = true → t.bracesAhead = false) →
    (n : Nat) → dropBlock (.afterWords slashes) n (t.front ++ rest) = dropBlock .code n rest
  | line gap l, _, _, rest, hrest, slashes, _, n => by
    rw [front_line, dropBlock_afterWords_gap, l.dropBlock_text (hrest rfl)]
  | block gap body last, hlaid, hclear, rest, _, slashes, hahead, n => by
    have hover : (slashes && !Filler.breaks gap) = false := by
      cases slashes with
      | false => rfl
      | true => exact hahead rfl
    rw [front_block, dropBlock_afterWords_gap, hover]
    change dropBlock .code (n + 1) _ = _
    rw [dropBlock_written body hlaid hclear, dropBlock_gap]
    rfl
  | guarded gap word test branch, hlaid, hclear, rest, hrest, slashes, hahead, n => by
    obtain ⟨hright, hbranch⟩ := hlaid
    rw [front_guarded, dropBlock_afterWords_gap, word.dropBlock_chars,
      TidyTest.dropBlock_text (fits_front hright rest)]
    exact dropBlock_front branch hbranch hclear.2 hrest _ (bracesAhead_branch hahead hclear.1) n
  | choice gap word test branch last otherwise other, hlaid, hclear, rest, hrest, slashes, hahead, n => by
    obtain ⟨hright, -, -, hbranch, hother⟩ := hlaid
    rw [front_choice, dropBlock_afterWords_gap, word.dropBlock_chars, TidyTest.dropBlock_text (fits_front hright _)]
    rw [dropBlock_front branch hbranch hclear.2.1 (fun h => atBreak_ending_append h last _) _
      (bracesAhead_branch hahead hclear.1) n, dropBlock_gap, dropBlock_quiet otherwise.isQuiet]
    exact dropBlock_front other hother hclear.2.2 hrest false (fun h => nomatch h) n

theorem dropBlock_written : (body : List Layout) → AllLaidOut body → AllClear body → (n : Nat) →
    (rest : List Char) → dropBlock .code n (written body ++ rest) = dropBlock .code n rest
  | [], _, _, n, rest => by rw [written, List.nil_append]
  | t :: more, hlaid, hclear, n, rest => by
    rw [written, List.append_assoc, List.append_assoc]
    refine (dropBlock_front t hlaid.1 hclear.1 (fun h => atBreak_ending h _) false (fun h => nomatch h) n).trans ?_
    rw [dropBlock_gap, dropBlock_written more hlaid.2 hclear.2]

end

/-- What a statement begins with. -/
theorem front_lead (t : Layout) (hrest : t.endsLine = true → AtBreak rest) :
    Lead.of (readCommand (t.front ++ rest)).1 ≠ .closingBrace ∧
      (readCommand (t.front ++ rest)).1 ≠ "else" := by
  cases t with
  | line gap l =>
    have hread := l.readCommand_text (hrest rfl)
    rw [front_line, (Alike.gap gap _).readCommand, hread.command]
    exact ⟨by decide, hread.notElse⟩
  | block gap body last =>
    rw [front_block, (Alike.gap gap _).readCommand, Tree.readCommand_brace (.inl rfl)]
    dsimp only
    exact ⟨by decide, by decide⟩
  | guarded gap word test branch =>
    rw [front_guarded, (Alike.gap gap _).readCommand, readCommand_if]
    dsimp only
    exact ⟨by decide, by decide⟩
  | choice gap word test branch last otherwise other =>
    rw [front_choice, (Alike.gap gap _).readCommand, readCommand_if]
    dsimp only
    exact ⟨by decide, by decide⟩

theorem skipStatement_gap {t : Layout} {gap : List Filler} {cs : List Char}
    (hrest : t.endsLine = true → AtBreak rest) (hfront : t.front ++ rest = Filler.text gap ++ cs) :
    skipStatement (t.front ++ rest) = skipStatement cs := by
  have hlead := (front_lead t hrest).1
  rw [hfront, (Alike.gap gap cs).readCommand] at hlead
  rw [hfront, (Alike.gap gap cs).skipStatement hlead]

theorem skipStatement_if {word : Spelling "if"} {test : Test} (h : test.right.lexeme.Fits rest) :
    skipStatement (word.chars ++ (test.text ++ rest)) =
      let guarded := skipStatement rest
      if elseFollows guarded then skipStatement (readCommand guarded).2 else guarded := by
  rw [skipStatement_eq, readCommand_if]
  dsimp only
  rw [Test.dropOperands_text h]
  rfl

theorem skipStatement_front : (t : Layout) → t.LaidOut → t.ClearInside → {rest : List Char} →
    (t.endsLine = true → AtBreak rest) → (t.isOpen = true → elseFollows rest = false) →
    skipStatement (t.front ++ rest) = rest
  | line gap l, _, _, rest, hrest, _ => by
    rw [skipStatement_gap hrest (front_line gap rest l), l.skipStatement_text (hrest rfl)]
  | block gap body last, hlaid, hclear, rest, hrest, _ => by
    rw [skipStatement_gap hrest (front_block gap last rest body), Tree.skipStatement_brace,
      dropBlock_written body hlaid hclear, dropBlock_gap]
    rfl
  | guarded gap word test branch, hlaid, hclear, rest, hrest, helse => by
    have hnone := helse rfl
    have hbranch := skipStatement_front branch hlaid.2 hclear hrest (fun _ => hnone)
    rw [skipStatement_gap hrest (front_guarded gap word test branch rest),
      skipStatement_if (fits_front hlaid.1 rest), hbranch]
    simp [hnone]
  | choice gap word test branch last otherwise other, hlaid, hclear, rest, hrest, helse => by
    obtain ⟨hright, hstops, hclosed, hbranchLaid, hotherLaid⟩ := hlaid
    have hbranch := skipStatement_front branch hbranchLaid hclear.1
      (fun h => atBreak_ending_append h last (otherwise.chars ++ (other.front ++ rest)))
      (fun h => absurd h (by simp [hclosed]))
    have hother := skipStatement_front other hotherLaid hclear.2 hrest helse
    have hread := (Alike.gap (branch.ending ++ last) _).readCommand.trans (readCommand_else otherwise hstops rest)
    rw [skipStatement_gap hrest (front_choice gap last word test otherwise branch other rest),
      skipStatement_if (fits_front hright _), hbranch]
    dsimp only
    rw [elseFollows, hread, if_pos (by rfl), hother]

/-- Skipping a statement ends where the statement ends, and skipping it as the branch that is not taken
ends there too or behind an `else` that follows. -/
theorem skipStatement_layout (t : Layout) (hlaid : t.LaidOut) (hclear : t.ClearInside) (rest : List Char)
    (hrest : t.endsLine = true → AtBreak rest) (helse : t.isOpen = true → elseFollows rest = false) :
    skipStatement (t.front ++ rest) = rest ∧
      skipGuarded (t.front ++ rest) =
        if (readCommand rest).1 = "else" then (readCommand rest).2 else rest := by
  have hskip := skipStatement_front t hlaid hclear hrest helse
  refine ⟨hskip, ?_⟩
  rw [skipGuarded, hskip, elseFollows]
  simp only [beq_iff_eq]

def nopLine (last : LineEnd) (h : StopsToken last.text := by decide) : Line where
  first := .bare ⟨['n', 'o', 'p'], by decide, by decide, by decide, by decide⟩
  arguments := []
  last := last
  tidy := ⟨by decide, by decide⟩
  spaced := ⟨h, trivial⟩
  notIf := by decide
  notElse := by decide

def bracedEnd : LineEnd := ⟨[' '], isSeparator_blank, some ⟨['{'], by decide⟩⟩

def forked : Layout :=
  .choice [] ⟨['I', 'F'], by decide, by decide⟩
    { left := ⟨[' '], isSeparator_blank, .quoted ['a', '}'] (by decide)⟩
      operator := spacedWord ['=', '=']
      right := ⟨[' '], isSeparator_blank, .quoted [] (by decide)⟩
      apart := by decide
      tidy := by decide
      spaced := by decide }
    (.block [] [.line [newLine] (nopLine bracedEnd)] []) [] .plainElse
    (.block [] [.line [newLine] (nopLine bracedEnd)] [])

theorem skipStatement_forked :
    let text := "IF \"a\x7d\" == \"\"\x7b\nnop //\x7b\n\x7delse\x7b\nnop //\x7b\n\x7d".toList
    skipStatement (text ++ "nop".toList) = "nop".toList ∧ skipGuarded (text ++ "nop".toList) = "nop".toList := by
  intro text
  have hfront : forked.front = text := by decide
  have hlaid : forked.LaidOut := ⟨trivial, by decide, rfl, ⟨trivial, trivial⟩, trivial, trivial⟩
  have hread : (readCommand "nop".toList).1 ≠ "else" := by decide
  obtain ⟨hskip, hguarded⟩ := skipStatement_layout forked hlaid ⟨⟨trivial, trivial⟩, trivial, trivial⟩
    "nop".toList (fun h => nomatch h) (fun h => nomatch h)
  rw [hfront] at hskip hguarded
  rw [if_neg hread] at hguarded
  exact ⟨hskip, hguarded⟩

def slashed : Layout :=
  .block []
    [.guarded [newLine] .plainIf
      { left := spacedWord ['a', '/', '/', 'b']
        operator := spacedWord ['=', '=']
        right := spacedWord ['c']
        apart := by decide
        tidy := by decide
        spaced := by decide }
      (.block [blankSpace] [.line [newLine] (nopLine .bare)] [])]
    [newLine]

/-- The inner brace closes the outer block. -/
theorem skipStatement_slashed :
    slashed.LaidOut ∧ slashed.endsLine = false ∧ slashed.isOpen = false ∧
      slashed.front = "\x7b\nif a//b == c \x7b\nnop\n\x7d\n\x7d".toList ∧
      skipStatement (slashed.front ++ "\nafter\n".toList) = "\n\x7d\nafter\n".toList := by
  have hfront : slashed.front ++ "\nafter\n".toList =
      '{' :: "\nif a//b == c \x7b\nnop\n\x7d\n\x7d\nafter\n".toList := by decide
  refine ⟨⟨⟨by decide, trivial, trivial⟩, trivial⟩, rfl, rfl, by decide, ?_⟩
  rw [hfront, Tree.skipStatement_brace]
  decide

end Layout

end EntityScript.Reading
