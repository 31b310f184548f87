import EntityScript.Text.Lowercase

/-!
Reading script text. A run holds the text that is left to read, and every reader answers what
remains, an ending of what it was given. Words are read within a line and may be quoted; command
words are read across lines and comments, with braces standing alone. Skipping passes over a whole
statement without carrying it out.
-/

namespace EntityScript.Reading

/-- The characters between words. Line breaks are not among them, since they end a line. -/
def isSeparator (c : Char) : Bool :=
  c == ' ' || c == '\t' || c == '\r' || c == '(' || c == ')' || c == ','

def isWordChar (c : Char) : Bool := !isSeparator c && c != '\n'

def isQuotedChar (c : Char) : Bool := c != '"' && c != '\n'

def isCommandChar (c : Char) : Bool := isWordChar c && c != '{' && c != '}'

def atComment : List Char → Bool
  | '/' :: '/' :: _ => true
  | _ => false

structure Token where
  /-- The characters of the word, without quotes. -/
  word : List Char
  /-- The text from the word on, an opening quote included. -/
  start : List Char
  /-- The text after the word. -/
  rest : List Char
deriving DecidableEq, Repr

/-- The text after a closing quote, if it is there. -/
def dropQuote : List Char → List Char
  | '"' :: rest => rest
  | cs => cs

/-- The next word on the line. There is none before a line break, a comment or the end. -/
def nextToken (cs : List Char) : Option Token :=
  match cs.dropWhile isSeparator with
  | [] => none
  | c :: rest =>
    if c = '\n' || atComment (c :: rest) then none
    else if c = '"' then
      some ⟨rest.takeWhile isQuotedChar, c :: rest, dropQuote (rest.dropWhile isQuotedChar)⟩
    else some ⟨c :: rest.takeWhile isWordChar, c :: rest, rest.dropWhile isWordChar⟩

/-- Nothing but separators or a comment is left on the line. -/
def atLineEnd (cs : List Char) : Bool := (nextToken cs).isNone

def dropToken (cs : List Char) : List Char :=
  match nextToken cs with
  | some token => token.rest
  | none => cs

/-- The text from the end of the line on. -/
def dropLine (cs : List Char) : List Char := cs.dropWhile (· != '\n')

/-- The text without separators, line breaks and comments at its start. -/
def dropFiller (inComment : Bool) : List Char → List Char
  | [] => []
  | c :: rest =>
    if c = '\n' then dropFiller false rest
    else if inComment then dropFiller true rest
    else if isSeparator c then dropFiller false rest
    else if atComment (c :: rest) then dropFiller true rest
    else c :: rest

/-- The next command word as it is written, and the text after it. It is empty at the end only. -/
def takeCommand (cs : List Char) : List Char × List Char :=
  match dropFiller false cs with
  | [] => ([], [])
  | c :: rest =>
    if c = '{' || c = '}' then ([c], rest)
    else (c :: rest.takeWhile isCommandChar, rest.dropWhile isCommandChar)

/-- The next command word in lowercase, and the text after it. -/
def readCommand (cs : List Char) : String × List Char :=
  let (word, rest) := takeCommand cs
  (Text.lowercase (String.ofList word), rest)

theorem dropFiller_suffix (inComment : Bool) (cs : List Char) :
    dropFiller inComment cs <:+ cs := by
  induction cs generalizing inComment with
  | nil => simp [dropFiller]
  | cons c cs ih =>
    have hs := List.suffix_cons c cs
    rw [dropFiller]
    split
    · exact (ih _).trans hs
    split
    · exact (ih _).trans hs
    split
    · exact (ih _).trans hs
    split
    · exact (ih _).trans hs
    · exact List.suffix_refl _

theorem dropQuote_suffix (cs : List Char) : dropQuote cs <:+ cs := by
  unfold dropQuote
  split
  · exact List.suffix_cons _ _
  · exact List.suffix_refl _

/-- A word begins where the separators end, and is read up to its quote or to its last character. -/
theorem nextToken_cases {cs : List Char} {token : Token} (h : nextToken cs = some token) :
    ∃ c rest, cs.dropWhile isSeparator = c :: rest ∧ c ≠ '\n' ∧
      (c = '"' ∧ token = ⟨rest.takeWhile isQuotedChar, c :: rest, dropQuote (rest.dropWhile isQuotedChar)⟩ ∨
        c ≠ '"' ∧ token = ⟨c :: rest.takeWhile isWordChar, c :: rest, rest.dropWhile isWordChar⟩) := by
  unfold nextToken at h
  split at h
  · cases h
  · rename_i c rest hc
    split at h
    · cases h
    · rename_i hend
      refine ⟨c, rest, hc, fun hbreak => hend (by simp [hbreak]), ?_⟩
      split at h <;> cases h
      · rename_i hquote
        exact .inl ⟨hquote, rfl⟩
      · rename_i hquote
        exact .inr ⟨hquote, rfl⟩

theorem nextToken_suffix {cs : List Char} {token : Token} (h : nextToken cs = some token) :
    token.rest <:+ token.start ∧ token.start <:+ cs := by
  have hs := List.dropWhile_suffix isSeparator (l := cs)
  obtain ⟨c, rest, hc, -, ⟨-, rfl⟩ | ⟨-, rfl⟩⟩ := nextToken_cases h
  · rw [hc] at hs
    exact ⟨((dropQuote_suffix _).trans (List.dropWhile_suffix _)).trans (List.suffix_cons c rest), hs⟩
  · rw [hc] at hs
    exact ⟨(List.dropWhile_suffix _).trans (List.suffix_cons c rest), hs⟩

theorem nextToken_length_lt {cs : List Char} {token : Token} (h : nextToken cs = some token) :
    token.rest.length < cs.length := by
  have hs := (List.dropWhile_suffix isSeparator (l := cs)).length_le
  obtain ⟨c, rest, hc, -, ⟨-, rfl⟩ | ⟨-, rfl⟩⟩ := nextToken_cases h
  · have hquoted := (List.dropWhile_suffix isQuotedChar (l := rest)).length_le
    have hquote := (dropQuote_suffix (rest.dropWhile isQuotedChar)).length_le
    rw [hc, List.length_cons] at hs
    simp only
    omega
  · have hword := (List.dropWhile_suffix isWordChar (l := rest)).length_le
    rw [hc, List.length_cons] at hs
    simp only
    omega

theorem dropToken_suffix (cs : List Char) : dropToken cs <:+ cs := by
  unfold dropToken
  split
  · rename_i token h
    exact (nextToken_suffix h).1.trans (nextToken_suffix h).2
  · exact List.suffix_refl cs

theorem dropLine_suffix (cs : List Char) : dropLine cs <:+ cs := List.dropWhile_suffix _

theorem takeCommand_suffix (cs : List Char) : (takeCommand cs).2 <:+ cs := by
  have hf := dropFiller_suffix false cs
  unfold takeCommand
  split
  · exact List.nil_suffix
  · rename_i c rest h
    rw [h] at hf
    split
    · exact (List.suffix_cons c rest).trans hf
    · exact ((List.dropWhile_suffix _).trans (List.suffix_cons c rest)).trans hf

/-- A command word is taken from the text, so less of it is left. -/
theorem takeCommand_length_lt {cs : List Char} (h : (takeCommand cs).1 ≠ []) :
    (takeCommand cs).2.length < cs.length := by
  have hf := (dropFiller_suffix false cs).length_le
  unfold takeCommand at h ⊢
  split at h
  · exact absurd rfl h
  · rename_i c rest hc
    rw [hc] at hf
    have hd := (List.dropWhile_suffix isCommandChar (l := rest)).length_le
    simp only [List.length_cons] at hf
    split <;> simp only <;> omega

theorem readCommand_suffix (cs : List Char) : (readCommand cs).2 <:+ cs := takeCommand_suffix cs

theorem readCommand_length_lt {cs : List Char} (h : (readCommand cs).1 ≠ "") :
    (readCommand cs).2.length < cs.length := by
  refine takeCommand_length_lt fun hn => h ?_
  simp only [readCommand, hn]
  rfl

/-- What the characters of a block stand in. -/
inductive Inside
  | code
  | comment
  | quotes
deriving DecidableEq, Repr

/-- The text after the brace that closes a block, with `openBlocks` more blocks open inside it. Braces in
comments and quotes do not count; quotes end with their line. -/
def dropBlock (inside : Inside) (openBlocks : Nat) : List Char → List Char
  | [] => []
  | c :: rest =>
    match inside with
    | .comment => dropBlock (if c = '\n' then .code else .comment) openBlocks rest
    | .quotes => dropBlock (if isQuotedChar c then .quotes else .code) openBlocks rest
    | .code =>
      if atComment (c :: rest) then dropBlock .comment openBlocks rest
      else if c = '"' then dropBlock .quotes openBlocks rest
      else if c = '{' then dropBlock .code (openBlocks + 1) rest
      else if c = '}' then
        match openBlocks with
        | 0 => rest
        | n + 1 => dropBlock .code n rest
      else dropBlock .code openBlocks rest

theorem dropBlock_suffix (inside : Inside) (openBlocks : Nat) (cs : List Char) :
    dropBlock inside openBlocks cs <:+ cs := by
  induction cs generalizing inside openBlocks with
  | nil => simp [dropBlock]
  | cons c cs ih =>
    rw [dropBlock.eq_def]
    have hs := List.suffix_cons c cs
    cases inside with
    | comment => exact (ih _ _).trans hs
    | quotes => exact (ih _ _).trans hs
    | code =>
      simp only
      split
      · exact (ih _ _).trans hs
      split
      · exact (ih _ _).trans hs
      split
      · exact (ih _ _).trans hs
      split
      · split
        · exact hs
        · exact (ih _ _).trans hs
      · exact (ih _ _).trans hs

def elseFollows (cs : List Char) : Bool := (readCommand cs).1 == "else"

inductive Lead
  /-- There is no statement: the text has ended. -/
  | nothing
  /-- There is no statement: the enclosing block ends here. -/
  | closingBrace
  | openingBrace
  /-- The statement is an `if`. -/
  | conditional
  /-- The statement is any other command and ends with its line. -/
  | command
deriving DecidableEq, Repr

def Lead.of (word : String) : Lead :=
  if word = "" then nothing
  else if word = "\x7d" then closingBrace
  else if word = "\x7b" then openingBrace
  else if word = "if" then conditional
  else command

theorem Lead.of_ne_nothing {word : String} (h : Lead.of word ≠ nothing) : word ≠ "" := by
  rintro rfl
  exact h rfl

def dropOperands (cs : List Char) : List Char := dropToken (dropToken (dropToken cs))

theorem dropOperands_suffix (cs : List Char) : dropOperands cs <:+ cs :=
  ((dropToken_suffix _).trans (dropToken_suffix _)).trans (dropToken_suffix _)

/-- Skips a statement. What is left is an ending of the text, which is why the branches of an `if`
are shorter than the `if` itself. -/
def skipToEnding (cs : List Char) : { rest : List Char // rest <:+ cs } :=
  let rest := (readCommand cs).2
  have hrest : rest <:+ cs := readCommand_suffix cs
  match h : Lead.of (readCommand cs).1 with
  | .nothing => ⟨rest, hrest⟩
  | .closingBrace => ⟨cs, List.suffix_refl cs⟩
  | .openingBrace => ⟨dropBlock .code 0 rest, (dropBlock_suffix _ _ _).trans hrest⟩
  | .command => ⟨dropLine rest, (dropLine_suffix rest).trans hrest⟩
  | .conditional =>
    have hlt : rest.length < cs.length :=
      readCommand_length_lt (Lead.of_ne_nothing (by rw [h]; decide))
    have hops : dropOperands rest <:+ rest := dropOperands_suffix rest
    have hguarded : (dropOperands rest).length < cs.length := Nat.lt_of_le_of_lt hops.length_le hlt
    let guarded := skipToEnding (dropOperands rest)
    let branch := (readCommand guarded.1).2
    have hbranch : branch <:+ dropOperands rest := (readCommand_suffix _).trans guarded.2
    have hshorter : branch.length < cs.length := Nat.lt_of_le_of_lt hbranch.length_le hguarded
    if elseFollows guarded.1 then
      let skipped := skipToEnding branch
      ⟨skipped.1, ((skipped.2.trans hbranch).trans hops).trans hrest⟩
    else ⟨guarded.1, (guarded.2.trans hops).trans hrest⟩
termination_by cs.length
decreasing_by
  · exact hguarded
  · exact hshorter

def skipStatement (cs : List Char) : List Char := (skipToEnding cs).1

theorem skipStatement_suffix (cs : List Char) : skipStatement cs <:+ cs := (skipToEnding cs).2

theorem skipStatement_eq (cs : List Char) :
    skipStatement cs =
      match Lead.of (readCommand cs).1 with
      | .nothing => (readCommand cs).2
      | .closingBrace => cs
      | .openingBrace => dropBlock .code 0 (readCommand cs).2
      | .command => dropLine (readCommand cs).2
      | .conditional =>
        let guarded := skipStatement (dropOperands (readCommand cs).2)
        if elseFollows guarded then skipStatement (readCommand guarded).2 else guarded := by
  rw [skipStatement, skipToEnding]
  split
  all_goals rename_i h; simp only [h]
  simp only [skipStatement]
  split
  · rename_i he; simp only [he, if_true]
  · rename_i he; simp only [he]; rfl

def skipGuarded (cs : List Char) : List Char :=
  let rest := skipStatement cs
  if elseFollows rest then (readCommand rest).2 else rest

theorem skipGuarded_suffix (cs : List Char) : skipGuarded cs <:+ cs := by
  unfold skipGuarded
  simp only
  split
  · exact (readCommand_suffix _).trans (skipStatement_suffix cs)
  · exact skipStatement_suffix cs

end EntityScript.Reading
