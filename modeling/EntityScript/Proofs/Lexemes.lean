import EntityScript.Proofs.Headers
import EntityScript.Proofs.Meaning

/-! Words as they are written, bare or between quotes, and the lines they make. The readers of words
find a word where it was written, and leave what was written after it. Skipping a block does not know
of words: two slashes inside a bare word begin a comment for it, `dropBlock_written`. -/

namespace EntityScript.Reading

structure BareWord where
  chars : List Char
  nonempty : chars ≠ []
  wordChars : ∀ c ∈ chars, isWordChar c = true
  unquoted : chars.head? ≠ some '"'
  noComment : atComment chars = false

inductive Lexeme
  | bare (w : BareWord)
  | quoted (text : List Char) (h : ∀ c ∈ text, isQuotedChar c = true)

namespace Lexeme

def word : Lexeme → List Char
  | bare w => w.chars
  | quoted text _ => text

def chars : Lexeme → List Char
  | bare w => w.chars
  | quoted text _ => '"' :: (text ++ ['"'])

/-- A bare word ends where no word goes on, and a quoted one anywhere. -/
def Fits (rest : List Char) : Lexeme → Prop
  | bare _ => StopsToken rest
  | quoted .. => True

def Tidy : Lexeme → Prop
  | bare w => ∀ c ∈ w.chars, c ≠ '"' ∧ c ≠ '{' ∧ c ≠ '}'
  | quoted .. => True

def hasSlashes : Lexeme → Bool
  | bare w => Text.occursIn ['/', '/'] w.chars
  | quoted .. => false

end Lexeme

instance : (rest : List Char) → Decidable (StopsToken rest)
  | [] => isTrue nofun
  | c :: _ => decidable_of_iff (isWordChar c = false) (by simp [StopsToken])

instance : (rest : List Char) → Decidable (StopsWord rest)
  | [] => isTrue nofun
  | c :: _ => decidable_of_iff (isCommandChar c = false) (by simp [StopsWord])

instance (rest : List Char) : (x : Lexeme) → Decidable (x.Fits rest)
  | .bare _ => inferInstanceAs (Decidable (StopsToken rest))
  | .quoted .. => inferInstanceAs (Decidable True)

instance : (x : Lexeme) → Decidable x.Tidy
  | .bare w => inferInstanceAs (Decidable (∀ c ∈ w.chars, c ≠ '"' ∧ c ≠ '{' ∧ c ≠ '}'))
  | .quoted .. => inferInstanceAs (Decidable True)

structure Argument where
  blanks : List Char
  separating : ∀ c ∈ blanks, isSeparator c = true
  lexeme : Lexeme

namespace Argument

def text (a : Argument) : List Char := a.blanks ++ a.lexeme.chars

def written (arguments : List Argument) : List Char := arguments.flatMap text

def Spaced : List Argument → List Char → Prop
  | [], _ => True
  | a :: more, rest => a.lexeme.Fits (written more ++ rest) ∧ Spaced more rest

instance decidableSpaced : (arguments : List Argument) → (rest : List Char) → Decidable (Spaced arguments rest)
  | [], _ => inferInstanceAs (Decidable True)
  | _ :: more, rest =>
    have := decidableSpaced more rest
    inferInstanceAs (Decidable (_ ∧ _))

end Argument

theorem isSeparator_blank : ∀ c ∈ [' '], isSeparator c = true := by decide

theorem blank_newLine : '\n' = '\n' ∨ isSeparator '\n' = true := .inl rfl

def spacedWord (chars : List Char) (nonempty : chars ≠ [] := by decide)
    (wordChars : ∀ c ∈ chars, isWordChar c = true := by decide)
    (unquoted : chars.head? ≠ some '"' := by decide) (noComment : atComment chars = false := by decide) :
    Argument where
  blanks := [' ']
  separating := isSeparator_blank
  lexeme := .bare ⟨chars, nonempty, wordChars, unquoted, noComment⟩

def newLine : Filler := .blank ⟨'\n', blank_newLine⟩

def blankSpace : Filler := .blank ⟨' ', .inr rfl⟩

variable {rest : List Char}

theorem StopsToken.append {more : List Char} (h : StopsToken rest) (hmore : rest = [] → StopsToken more) :
    StopsToken (rest ++ more) := by
  cases rest with
  | nil => exact hmore rfl
  | cons c rest => exact h

theorem StopsWord.append {more : List Char} (h : StopsWord rest) (hmore : rest = [] → StopsWord more) :
    StopsWord (rest ++ more) := by
  cases rest with
  | nil => exact hmore rfl
  | cons c rest => exact h

theorem StopsToken.ne_slash (h : StopsToken rest) : ∀ c ∈ rest.head?, c ≠ '/' := by
  rintro c hc rfl
  exact absurd (h _ hc) (by decide)

/-- No comment begins with a bare word. -/
theorem BareWord.atComment_append (w : BareWord) (h : StopsToken rest) : atComment (w.chars ++ rest) = false :=
  (Reading.atComment_append h.ne_slash w.chars).trans w.noComment

namespace Lexeme

theorem Fits.append {x : Lexeme} {more : List Char} (h : x.Fits rest) (hmore : rest = [] → StopsToken more) :
    x.Fits (rest ++ more) := by
  cases x with
  | bare w => exact StopsToken.append h hmore
  | quoted => trivial

theorem chars_ne_nil (x : Lexeme) : x.chars ≠ [] := by
  cases x with
  | bare w => exact w.nonempty
  | quoted => exact List.cons_ne_nil _ _

theorem noBreak (x : Lexeme) : '\n' ∉ x.chars := by
  cases x with
  | bare w => exact fun h => (ne_break_of_isWordChar (w.wordChars _ h)).1 rfl
  | quoted text h =>
    have htext : '\n' ∉ text := fun hb => absurd (h _ hb) (by decide)
    simpa [chars] using htext

/-- The word is the next one on its line. -/
theorem nextToken_chars (x : Lexeme) (h : x.Fits rest) :
    nextToken (x.chars ++ rest) = some ⟨x.word, x.chars ++ rest, rest⟩ := by
  cases x with
  | quoted text htext =>
    have hstop : ∀ c ∈ ('"' :: rest).head?, isQuotedChar c = false := by simp [isQuotedChar]
    obtain ⟨htake, hdrop⟩ := takeWhile_append_stop htext hstop
    have hsep : ('"' :: (text ++ '"' :: rest)).dropWhile isSeparator = '"' :: (text ++ '"' :: rest) :=
      List.dropWhile_cons_of_neg (by decide)
    simp [nextToken, chars, word, hsep, htake, hdrop, dropQuote, atComment]
  | bare w =>
    obtain ⟨c, more, hchars⟩ := List.exists_cons_of_ne_nil w.nonempty
    have hall : ∀ d ∈ c :: more, isWordChar d = true := hchars ▸ w.wordChars
    obtain ⟨hc, hmore⟩ := List.forall_mem_cons.1 hall
    obtain ⟨hbreak, hsep⟩ := ne_break_of_isWordChar hc
    have hquote : c ≠ '"' := fun h => w.unquoted (by rw [hchars, h]; rfl)
    have hcomment : atComment (c :: (more ++ rest)) = false := by
      rw [← List.cons_append, ← hchars]
      exact w.atComment_append h
    obtain ⟨htake, hdrop⟩ := takeWhile_append_stop hmore h
    have hskip : (c :: (more ++ rest)).dropWhile isSeparator = c :: (more ++ rest) :=
      List.dropWhile_cons_of_neg (by simp [hsep])
    simp only [chars, word, hchars, List.cons_append]
    rw [nextToken, hskip]
    dsimp only
    rw [if_neg (by simp [hbreak, hcomment]), if_neg hquote, htake, hdrop]

end Lexeme

namespace Argument

variable {a : Argument} {arguments more : List Argument}

theorem nextToken_text (h : a.lexeme.Fits rest) :
    nextToken (a.text ++ rest) = some ⟨a.lexeme.word, a.lexeme.chars ++ rest, rest⟩ := by
  have hread := a.lexeme.nextToken_chars h
  have hblanks : (a.blanks ++ (a.lexeme.chars ++ rest)).dropWhile isSeparator =
      (a.lexeme.chars ++ rest).dropWhile isSeparator := List.dropWhile_append_of_pos a.separating
  rw [text, List.append_assoc, nextToken, hblanks, ← hread, nextToken]

theorem dropToken_text (h : a.lexeme.Fits rest) : dropToken (a.text ++ rest) = rest := by
  rw [dropToken, nextToken_text h]

theorem written_cons : written (a :: more) ++ rest = a.text ++ (written more ++ rest) := by
  rw [written, List.flatMap_cons, List.append_assoc, written]

theorem text_ne_nil (a : Argument) : a.text ≠ [] :=
  List.append_ne_nil_of_right_ne_nil _ a.lexeme.chars_ne_nil

theorem Spaced.append {later : List Char} (h : Spaced arguments rest) (hlater : rest = [] → StopsToken later) :
    Spaced arguments (rest ++ later) := by
  induction arguments with
  | nil => trivial
  | cons a arguments ih =>
    refine ⟨?_, ih h.2⟩
    rw [← List.append_assoc]
    exact h.1.append fun hnil => hlater (List.append_eq_nil_iff.1 hnil).2

theorem Spaced.concat {a : Argument} (h : Spaced arguments a.text) (ha : a.lexeme.Fits rest) :
    Spaced (arguments ++ [a]) rest := by
  induction arguments with
  | nil => exact ⟨ha, trivial⟩
  | cons b arguments ih =>
    have hmore : written (arguments ++ [a]) ++ rest = (written arguments ++ a.text) ++ rest := by
      simp [written]
    have hfits : b.lexeme.Fits ((written arguments ++ a.text) ++ rest) :=
      h.1.append fun hnil => absurd (List.append_eq_nil_iff.1 hnil).2 a.text_ne_nil
    exact ⟨hmore ▸ hfits, ih h.2⟩

theorem noBreak_blanks (a : Argument) : '\n' ∉ a.blanks :=
  fun h => absurd (a.separating _ h) (by decide)

theorem noBreak_written (arguments : List Argument) : '\n' ∉ written arguments := by
  intro h
  obtain ⟨a, -, ha⟩ := List.mem_flatMap.1 h
  rcases List.mem_append.1 ha with hblank | hchar
  · exact a.noBreak_blanks hblank
  · exact a.lexeme.noBreak hchar

theorem dropOperands_written {left operator right : Argument} (h : Spaced [left, operator, right] rest) :
    dropOperands (written [left, operator, right] ++ rest) = rest := by
  obtain ⟨hleft, hoperator, hright, -⟩ := h
  rw [dropOperands, written_cons, dropToken_text hleft, written_cons, dropToken_text hoperator, written_cons,
    dropToken_text hright]
  rfl

end Argument

structure Test where
  left : Argument
  operator : Argument
  right : Argument
  apart : left.blanks ≠ []
  spaced : Argument.Spaced [left, operator] right.text

namespace Test

def operands (t : Test) : List Argument := [t.left, t.operator, t.right]

def text (t : Test) : List Char := Argument.written t.operands

variable {t : Test}

theorem dropOperands_text (h : t.right.lexeme.Fits rest) : dropOperands (t.text ++ rest) = rest :=
  Argument.dropOperands_written (t.spaced.concat h)

end Test

theorem Argument.stopsToken_written {a : Argument} (h : a.blanks ≠ []) (more : List Argument) (rest : List Char) :
    StopsToken (written (a :: more) ++ rest) := by
  obtain ⟨c, blanks, hblanks⟩ := List.exists_cons_of_ne_nil h
  have hc : isSeparator c = true := a.separating c (by simp [hblanks])
  intro d hd
  rw [written_cons, text, hblanks] at hd
  cases hd
  simp [isWordChar, hc]

theorem Argument.stopsWord_written {a : Argument} (h : a.blanks ≠ []) (more : List Argument) (rest : List Char) :
    StopsWord (written (a :: more) ++ rest) :=
  (stopsToken_written h more rest).stopsWord

theorem Test.stopsWord_text (t : Test) (rest : List Char) : StopsWord (t.text ++ rest) :=
  Argument.stopsWord_written t.apart _ rest

theorem isQuiet_of_isSeparator {c : Char} (h : isSeparator c = true) : IsQuiet c :=
  (Blank.mk c (.inr h)).isQuiet

theorem dropBlock_comment_append {text : List Char} (h : '\n' ∉ text) (n : Nat) (rest : List Char) :
    dropBlock .comment n (text ++ rest) = dropBlock .comment n rest := by
  have hskip : ∀ c ∈ text, (c != '\n') = true := by
    intro c hc
    rw [bne_iff_ne]
    rintro rfl
    exact h hc
  rw [dropBlock_comment, dropBlock_comment, dropLine, List.dropWhile_append_of_pos hskip, dropLine]

theorem dropBlock_comment_of_atBreak (h : AtBreak rest) (n : Nat) :
    dropBlock .comment n rest = dropBlock .code n rest := by
  rw [dropBlock_comment]
  cases rest with
  | nil => rfl
  | cons c rest =>
    rw [h c rfl]
    rfl

/-- What the text after a word stands in, for a reader who looks for braces. -/
def Inside.afterWords (slashes : Bool) : Inside := if slashes then .comment else .code

theorem dropBlock_bare {chars : List Char} (hword : ∀ c ∈ chars, isWordChar c = true)
    (htidy : ∀ c ∈ chars, c ≠ '"' ∧ c ≠ '{' ∧ c ≠ '}') (hstop : StopsToken rest) (n : Nat) :
    dropBlock .code n (chars ++ rest) =
      dropBlock (.afterWords (Text.occursIn ['/', '/'] chars)) n rest := by
  induction chars with
  | nil => rfl
  | cons c chars ih =>
    have hcomment : atComment (c :: (chars ++ rest)) = atComment (c :: chars) :=
      atComment_append hstop.ne_slash (c :: chars)
    have hprefix : atComment (c :: chars) = ['/', '/'].isPrefixOf (c :: chars) := by
      rw [Bool.eq_iff_iff, atComment_iff, List.isPrefixOf_iff_prefix]
      exact exists_congr fun more => eq_comm
    rw [Text.occursIn, ← hprefix, List.cons_append]
    cases hat : atComment (c :: chars) with
    | true =>
      have hbreak : '\n' ∉ c :: chars := fun h => (ne_break_of_isWordChar (hword _ h)).1 rfl
      rw [dropBlock_of_comment (hcomment.trans hat), ← dropBlock_comment]
      exact dropBlock_comment_append hbreak n rest
    | false =>
      rw [dropBlock_other (hcomment.trans hat) (htidy c List.mem_cons_self),
        ih (fun d hd => hword d (List.mem_cons_of_mem _ hd)) fun d hd => htidy d (List.mem_cons_of_mem _ hd)]
      rfl

theorem dropBlock_lexeme {x : Lexeme} (htidy : x.Tidy) (hfits : x.Fits rest) (n : Nat) :
    dropBlock .code n (x.chars ++ rest) = dropBlock (.afterWords x.hasSlashes) n rest := by
  cases x with
  | bare w => exact dropBlock_bare w.wordChars htidy hfits n
  | quoted text h =>
    have hstop : ∀ c ∈ ('"' :: rest).head?, isQuotedChar c = false := by simp [isQuotedChar]
    obtain ⟨-, hdrop⟩ := takeWhile_append_stop h hstop
    simp only [Lexeme.chars, List.cons_append, List.append_assoc, List.nil_append]
    rw [dropBlock_quote, hdrop]
    rfl

theorem dropBlock_written {arguments : List Argument} (htidy : ∀ a ∈ arguments, a.lexeme.Tidy)
    (hspaced : Argument.Spaced arguments rest) (n : Nat) :
    dropBlock .code n (Argument.written arguments ++ rest) =
      dropBlock (.afterWords (arguments.any (·.lexeme.hasSlashes))) n rest := by
  induction arguments with
  | nil => rfl
  | cons a arguments ih =>
    obtain ⟨ha, harguments⟩ := List.forall_mem_cons.1 htidy
    have hblanks : ∀ c ∈ a.blanks, IsQuiet c := fun c hc => isQuiet_of_isSeparator (a.separating c hc)
    rw [Argument.written_cons, Argument.text, List.append_assoc, dropBlock_quiet hblanks,
      dropBlock_lexeme ha hspaced.1, List.any_cons]
    cases a.lexeme.hasSlashes with
    | true => exact dropBlock_comment_append (Argument.noBreak_written arguments) n rest
    | false => exact ih harguments hspaced.2

namespace Filler

/-- The line ends within the gap. -/
def breaks (gap : List Filler) : Bool :=
  gap.any fun
    | .blank b => b.char == '\n'
    | .comment .. => true

theorem text_append (gap more : List Filler) : text (gap ++ more) = text gap ++ text more :=
  List.flatMap_append ..

theorem text_cons (f : Filler) (gap : List Filler) (cs : List Char) :
    text (f :: gap) ++ cs = f.chars ++ (text gap ++ cs) := by
  rw [text, List.flatMap_cons, List.append_assoc, text]

theorem noBreak_text {gap : List Filler} (h : breaks gap = false) : '\n' ∉ text gap := by
  intro hbreak
  obtain ⟨f, hf, hchars⟩ := List.mem_flatMap.1 hbreak
  have hnone := List.any_eq_false.1 h f hf
  cases f with
  | comment => exact hnone rfl
  | blank b => exact hnone (by simpa using (List.mem_singleton.1 hchars).symm)

/-- If the line ends in the gap, what stands behind the gap comes next from the end of the line. -/
theorem alike_dropLine {gap : List Filler} (h : breaks gap = true) (cs : List Char) :
    Alike (dropLine (text gap ++ cs)) cs := by
  induction gap with
  | nil => cases h
  | cons f gap ih =>
    rw [text_cons]
    have hline : Alike ('\n' :: (text gap ++ cs)) cs :=
      (Alike.blank ⟨'\n', .inl rfl⟩ _).trans (Alike.gap gap cs)
    cases f with
    | comment comment hcomment =>
      have hbreak : '\n' ∉ '/' :: '/' :: comment := by simpa using hcomment
      have hchars : (Filler.comment comment hcomment).chars ++ (text gap ++ cs) =
          '/' :: '/' :: comment ++ '\n' :: (text gap ++ cs) := by simp [chars]
      rw [hchars, dropLine_append hbreak (by simp)]
      exact hline
    | blank b =>
      by_cases hb : b.char = '\n'
      · rw [chars, hb]
        exact hline
      · have hmore : breaks gap = true := by simpa [breaks, hb] using h
        have hskip : dropLine ([b.char] ++ (text gap ++ cs)) = dropLine (text gap ++ cs) :=
          List.dropWhile_cons_of_pos (by simpa using hb)
        rw [chars, hskip]
        exact ih hmore

end Filler

/-- What may stand behind the last word of a line. -/
structure LineEnd where
  blanks : List Char
  separating : ∀ c ∈ blanks, isSeparator c = true
  comment : Option { text : List Char // '\n' ∉ text }

namespace LineEnd

def bare : LineEnd := ⟨[], by decide, none⟩

def text (e : LineEnd) : List Char := e.blanks ++ e.comment.elim [] fun comment => '/' :: '/' :: comment.1

theorem noBreak (e : LineEnd) : '\n' ∉ e.text := by
  have hblanks : '\n' ∉ e.blanks := fun h => absurd (e.separating _ h) (by decide)
  cases hcomment : e.comment with
  | none => simpa [text, hcomment] using hblanks
  | some comment => simpa [text, hcomment] using ⟨hblanks, comment.2⟩

theorem dropBlock_text (e : LineEnd) (hrest : AtBreak rest) (n : Nat) :
    dropBlock .code n (e.text ++ rest) = dropBlock .code n rest := by
  have hblanks : ∀ c ∈ e.blanks, IsQuiet c := fun c hc => isQuiet_of_isSeparator (e.separating c hc)
  rw [text, List.append_assoc, dropBlock_quiet hblanks]
  cases e.comment with
  | none => rfl
  | some comment =>
    have hbreak : '\n' ∉ '/' :: '/' :: comment.1 := by simpa using comment.2
    have hcomment : atComment ('/' :: '/' :: comment.1 ++ rest) = true := rfl
    change dropBlock .code n ('/' :: '/' :: comment.1 ++ rest) = _
    rw [dropBlock_of_comment hcomment, dropLine_append hbreak hrest]

theorem dropLine_text (e : LineEnd) (hrest : AtBreak rest) : dropLine (e.text ++ rest) = rest :=
  dropLine_append e.noBreak hrest

theorem alike (e : LineEnd) (hrest : AtBreak rest) : Alike (e.text ++ rest) rest := by
  have hblanks : ∀ (blanks cs : List Char), (∀ c ∈ blanks, isSeparator c = true) →
      Alike (blanks ++ cs) cs := by
    intro blanks cs h
    induction blanks with
    | nil => exact Eq.refl _
    | cons c blanks ih =>
      obtain ⟨hc, hmore⟩ := List.forall_mem_cons.1 h
      exact (Alike.blank ⟨c, .inr hc⟩ _).trans (ih hmore)
  rw [text, List.append_assoc]
  refine (hblanks _ _ e.separating).trans ?_
  cases e.comment with
  | none => exact Eq.refl _
  | some comment =>
    have hbreak : '\n' ∉ '/' :: '/' :: comment.1 := by simpa using comment.2
    have hcomment : atComment ('/' :: '/' :: comment.1 ++ rest) = true := rfl
    change Alike ('/' :: '/' :: comment.1 ++ rest) rest
    rw [Alike, dropFiller_of_comment hcomment, dropLine_append hbreak hrest]

end LineEnd

structure Spelling (word : String) where
  chars : List Char
  lowercase : Text.lowercase (String.ofList chars) = word
  commandChars : ∀ c ∈ chars, isCommandChar c = true ∧ c ≠ '/' ∧ c ≠ '"'

theorem takeCommand_cons {c : Char} {cs : List Char} (hc : isCommandChar c = true)
    (hcomment : atComment (c :: cs) = false) :
    takeCommand (c :: cs) = (c :: cs.takeWhile isCommandChar, cs.dropWhile isCommandChar) := by
  obtain ⟨hsep, hbreak, hbrace⟩ := isCommandChar_iff.1 hc
  have hfiller : dropFiller false (c :: cs) = c :: cs := by
    rw [dropFiller, if_neg hbreak, if_neg Bool.false_ne_true, if_neg (by simp [hsep]), if_neg (by simp [hcomment])]
  rw [takeCommand, hfiller]
  exact if_neg (by simpa using not_or.1 hbrace)

theorem readCommand_append {chars : List Char} (hne : chars ≠ [])
    (hchars : ∀ c ∈ chars, isCommandChar c = true) (hcomment : atComment (chars ++ rest) = false)
    (hstop : StopsWord rest) :
    readCommand (chars ++ rest) = (Text.lowercase (String.ofList chars), rest) := by
  obtain ⟨c, more, rfl⟩ := List.exists_cons_of_ne_nil hne
  obtain ⟨hc, hmore⟩ := List.forall_mem_cons.1 hchars
  obtain ⟨htake, hdrop⟩ := takeWhile_append_stop hmore hstop
  rw [List.cons_append] at hcomment
  rw [readCommand, List.cons_append, takeCommand_cons hc hcomment, htake, hdrop]

namespace Spelling

def plainIf : Spelling "if" := ⟨['i', 'f'], by decide, by decide⟩

def plainElse : Spelling "else" := ⟨['e', 'l', 's', 'e'], by decide, by decide⟩

variable {word : String} (k : Spelling word)

theorem nonempty (hword : word ≠ "") : k.chars ≠ [] := by
  intro h
  refine hword ?_
  rw [← k.lowercase, h]
  rfl

theorem noBreak : '\n' ∉ k.chars := fun h => absurd (k.commandChars _ h).1 (by decide)

theorem isQuiet : ∀ c ∈ k.chars, IsQuiet c := by
  intro c hc
  obtain ⟨hcommand, hslash, hquote⟩ := k.commandChars c hc
  obtain ⟨-, -, hbrace⟩ := isCommandChar_iff.1 hcommand
  exact ⟨hslash, hquote, not_or.1 hbrace⟩

theorem readCommand_chars (hword : word ≠ "") (hstop : StopsWord rest) :
    readCommand (k.chars ++ rest) = (word, rest) := by
  obtain ⟨c, more, hchars⟩ := List.exists_cons_of_ne_nil (k.nonempty hword)
  have hslash : c ≠ '/' := (k.commandChars c (by simp [hchars])).2.1
  have hcomment : atComment (k.chars ++ rest) = false := by
    rw [hchars]
    exact atComment_of_ne hslash _
  rw [readCommand_append (k.nonempty hword) (fun c hc => (k.commandChars c hc).1) hcomment hstop, k.lowercase]

end Spelling

/-- A word that is no brace and not `if` begins a command. -/
theorem lead_of_noBrace {chars : List Char} (hne : chars ≠ []) (hbrace : ∀ c ∈ chars, ¬IsBrace c)
    (hif : Text.lowercase (String.ofList chars) ≠ "if") :
    Lead.of (Text.lowercase (String.ofList chars)) = .command := by
  have hempty : Text.lowercase (String.ofList chars) ≠ "" := by
    intro h
    rw [Text.lowercase_ofList, ← String.toList_inj, String.toList_ofList] at h
    exact hne (Text.lowerFrom_eq_nil_iff.1 h)
  have hclose : Text.lowercase (String.ofList chars) ≠ "\x7d" := Block.lowercase_noBrace hbrace (.inr rfl)
  have hopen : Text.lowercase (String.ofList chars) ≠ "\x7b" := Block.lowercase_noBrace hbrace (.inl rfl)
  rw [Lead.of, if_neg hempty, if_neg hclose, if_neg hopen, if_neg hif]

structure Lexeme.Leads (x : Lexeme) (word : String) (cs left : List Char) : Prop where
  command : Lead.of word = .command
  notElse : word ≠ "else"
  onLine : OnLine cs left

theorem Lexeme.leads {x : Lexeme} (htidy : x.Tidy) (hfits : x.Fits rest)
    (hif : Text.lowercase (String.ofList x.chars) ≠ "if")
    (helse : Text.lowercase (String.ofList x.chars) ≠ "else") :
    x.Leads (readCommand (x.chars ++ rest)).1 (x.chars ++ rest) (readCommand (x.chars ++ rest)).2 := by
  cases x with
  | bare w =>
    have hbrace : ∀ c ∈ w.chars, ¬IsBrace c := fun c hc => not_or.2 (htidy c hc).2
    have hcommand : ∀ c ∈ w.chars, isCommandChar c = true := by
      intro c hc
      obtain ⟨hbreak, hsep⟩ := ne_break_of_isWordChar (w.wordChars c hc)
      exact isCommandChar_iff.2 ⟨hsep, hbreak, hbrace c hc⟩
    have hread := readCommand_append w.nonempty hcommand (w.atComment_append hfits) (StopsToken.stopsWord hfits)
    have hon : OnLine (w.chars ++ rest) rest := ⟨w.chars, rfl, (Lexeme.bare w).noBreak⟩
    simp only [Lexeme.chars] at hif helse ⊢
    rw [hread]
    exact ⟨lead_of_noBrace w.nonempty hbrace hif, helse, hon⟩
  | quoted text h =>
    simp only [Lexeme.chars, List.cons_append]
    generalize text ++ ['"'] ++ rest = more
    have hcomment : atComment ('"' :: more) = false := atComment_of_ne (by decide) more
    have hread := takeCommand_cons (by decide) hcomment
    have hbrace : ∀ c ∈ '"' :: more.takeWhile isCommandChar, ¬IsBrace c := by
      rw [List.forall_mem_cons]
      exact ⟨by decide, fun c hc => (isCommandChar_iff.1 (List.mem_takeWhile_imp hc)).2.2⟩
    have hfirst : ∀ word : String, word.toList.head? ≠ some '"' →
        Text.lowercase (String.ofList ('"' :: more.takeWhile isCommandChar)) ≠ word := by
      rintro word hword rfl
      rw [Text.lowercase_ofList, Text.lowerFrom_cons_of_isLower (by decide), String.toList_ofList] at hword
      exact hword rfl
    rw [readCommand, hread]
    exact ⟨lead_of_noBrace (List.cons_ne_nil _ _) hbrace (hfirst "if" (by decide)), hfirst "else" (by decide),
      (OnLine.cons (by decide) more).trans (OnLine.dropWhile (by decide) more)⟩

end EntityScript.Reading
