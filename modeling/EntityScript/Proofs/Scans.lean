import EntityScript.Proofs.Line
import Mathlib.Logic.Function.Iterate

/-! Readers as loops that look at one character after another. The relations below
take a loop turn by turn and may go on forever as far as they say; that they relate
every text to one result, and to the result of the reader, is what is proved. Each
turn leaves less text, for comments and quotes because they begin with a character
that does not end them, and for the branches of an `if` because its word is read. -/

namespace EntityScript.Reading

/-- The loop passes over `front`, whose characters satisfy `p`, and stops before `left`. -/
inductive Passes (p : Char → Bool) : List Char → List Char → List Char → Prop
  | atEnd : Passes p [] [] []
  | stopped {c : Char} {cs : List Char} (hc : p c = false) : Passes p (c :: cs) [] (c :: cs)
  | onward {c : Char} {cs front left : List Char} (hc : p c = true) (h : Passes p cs front left) :
    Passes p (c :: cs) (c :: front) left

/-- The loop looks for a command word, and passes over comments up to their line breaks. -/
inductive Seeks : List Char → List Char → Prop
  | atEnd : Seeks [] []
  | atWord {c : Char} {cs : List Char} (hbreak : c ≠ '\n') (hsep : isSeparator c = false)
    (hcomment : atComment (c :: cs) = false) : Seeks (c :: cs) (c :: cs)
  | blank {c : Char} {cs left : List Char} (hc : c = '\n' ∨ isSeparator c = true) (h : Seeks cs left) :
    Seeks (c :: cs) left
  | comment {cs front line left : List Char} (hcomment : atComment cs = true)
    (hline : Passes (· != '\n') cs front line) (h : Seeks line left) : Seeks cs left

inductive Reads : List Char → List Char → List Char → Prop
  | nothing {cs : List Char} (h : Seeks cs []) : Reads cs [] []
  | brace {c : Char} {cs rest : List Char} (h : Seeks cs (c :: rest)) (hc : c = '{' ∨ c = '}') :
    Reads cs [c] rest
  | word {c : Char} {cs rest word left : List Char} (h : Seeks cs (c :: rest))
    (hc : ¬(c = '{' ∨ c = '}')) (hword : Passes isCommandChar (c :: rest) word left) :
    Reads cs word left

inductive Peeks : List Char → Option Token → Prop
  | nothing {cs front : List Char} (h : Passes isSeparator cs front []) : Peeks cs none
  | lineEnd {c : Char} {cs front rest : List Char} (h : Passes isSeparator cs front (c :: rest))
    (hc : c = '\n' ∨ atComment (c :: rest) = true) : Peeks cs none
  | quoted {cs front rest word stop : List Char} (h : Passes isSeparator cs front ('"' :: rest))
    (hword : Passes isQuotedChar rest word stop) :
    Peeks cs (some ⟨word, '"' :: rest, dropQuote stop⟩)
  | word {c : Char} {cs front rest word stop : List Char} (h : Passes isSeparator cs front (c :: rest))
    (hc : ¬(c = '\n' ∨ atComment (c :: rest) = true)) (hquote : c ≠ '"')
    (hword : Passes isWordChar (c :: rest) word stop) : Peeks cs (some ⟨word, c :: rest, stop⟩)

/-- The loop looks for the brace that closes a block, with so many more blocks open inside it. -/
inductive Leaves : Nat → List Char → List Char → Prop
  | atEnd {n : Nat} : Leaves n [] []
  | comment {n : Nat} {cs front line left : List Char} (hcomment : atComment cs = true)
    (hline : Passes (· != '\n') cs front line) (h : Leaves n line left) : Leaves n cs left
  | quotes {n : Nat} {rest word stop left : List Char} (hword : Passes isQuotedChar rest word stop)
    (h : Leaves n stop.tail left) : Leaves n ('"' :: rest) left
  | opened {n : Nat} {rest left : List Char} (h : Leaves (n + 1) rest left) : Leaves n ('{' :: rest) left
  | last {rest : List Char} : Leaves 0 ('}' :: rest) rest
  | closed {n : Nat} {rest left : List Char} (h : Leaves n rest left) : Leaves (n + 1) ('}' :: rest) left
  | other {n : Nat} {c : Char} {rest left : List Char} (hcomment : atComment (c :: rest) = false)
    (hc : c ≠ '"' ∧ c ≠ '{' ∧ c ≠ '}') (h : Leaves n rest left) : Leaves n (c :: rest) left

/-- The three operands of an `if` are passed over, as far as the line has them. -/
inductive Drops : Nat → List Char → List Char → Prop
  | done {cs : List Char} : Drops 0 cs cs
  | token {n : Nat} {cs left : List Char} {token : Token} (h : Peeks cs (some token))
    (hrest : Drops n token.rest left) : Drops (n + 1) cs left
  | nothing {n : Nat} {cs left : List Char} (h : Peeks cs none) (hrest : Drops n cs left) :
    Drops (n + 1) cs left

/-- A statement is skipped, an `if` with the statements it depends on. -/
inductive Skips : List Char → List Char → Prop
  | nothing {cs word rest : List Char} (h : Reads cs word rest)
    (hlead : Lead.of (Text.lowercase (String.ofList word)) = .nothing) : Skips cs rest
  | closingBrace {cs word rest : List Char} (h : Reads cs word rest)
    (hlead : Lead.of (Text.lowercase (String.ofList word)) = .closingBrace) : Skips cs cs
  | block {cs word rest left : List Char} (h : Reads cs word rest)
    (hlead : Lead.of (Text.lowercase (String.ofList word)) = .openingBrace)
    (hblock : Leaves 0 rest left) : Skips cs left
  | line {cs word rest front left : List Char} (h : Reads cs word rest)
    (hlead : Lead.of (Text.lowercase (String.ofList word)) = .command)
    (hline : Passes (· != '\n') rest front left) : Skips cs left
  | guarded {cs word rest operands left next more : List Char} (h : Reads cs word rest)
    (hlead : Lead.of (Text.lowercase (String.ofList word)) = .conditional)
    (hoperands : Drops 3 rest operands) (hguarded : Skips operands left) (hnext : Reads left next more)
    (helse : Text.lowercase (String.ofList next) ≠ "else") : Skips cs left
  | branches {cs word rest operands guarded next branch left : List Char} (h : Reads cs word rest)
    (hlead : Lead.of (Text.lowercase (String.ofList word)) = .conditional)
    (hoperands : Drops 3 rest operands) (hguarded : Skips operands guarded)
    (hnext : Reads guarded next branch) (helse : Text.lowercase (String.ofList next) = "else")
    (hbranch : Skips branch left) : Skips cs left

theorem atComment_iff {cs : List Char} : atComment cs = true ↔ ∃ rest, cs = '/' :: '/' :: rest := by
  constructor
  · intro h
    unfold atComment at h
    split at h
    · exact ⟨_, rfl⟩
    · cases h
  · rintro ⟨rest, rfl⟩
    rfl

/-- A comment begins before its line break, so passing over it leaves less text. -/
theorem dropLine_length_lt {cs : List Char} (h : atComment cs = true) :
    (dropLine cs).length < cs.length := by
  obtain ⟨rest, rfl⟩ := atComment_iff.1 h
  have hs := (dropLine_suffix rest).length_le
  simp only [dropLine, List.length_cons] at hs ⊢
  rw [List.dropWhile_cons_of_pos (by decide), List.dropWhile_cons_of_pos (by decide)]
  omega

theorem dropFiller_comment (cs : List Char) :
    dropFiller true cs = dropFiller false (dropLine cs) := by
  induction cs with
  | nil => rfl
  | cons c cs ih =>
    by_cases hc : c = '\n'
    · subst hc
      simp [dropFiller, dropLine]
    · rw [dropFiller, if_neg hc, if_pos rfl, ih, dropLine, dropLine,
        List.dropWhile_cons_of_pos (by simpa using hc)]

theorem dropFiller_of_comment {cs : List Char} (h : atComment cs = true) :
    dropFiller false cs = dropFiller false (dropLine cs) := by
  obtain ⟨rest, rfl⟩ := atComment_iff.1 h
  rw [← dropFiller_comment]
  simp [dropFiller, isSeparator, atComment]

theorem dropBlock_comment (n : Nat) (cs : List Char) :
    dropBlock .comment n cs = dropBlock .code n (dropLine cs) := by
  induction cs with
  | nil => rfl
  | cons c cs ih =>
    by_cases hc : c = '\n'
    · subst hc
      simp [dropBlock, dropLine, atComment]
    · rw [dropBlock, if_neg hc, ih, dropLine, dropLine,
        List.dropWhile_cons_of_pos (by simpa using hc)]

theorem dropBlock_quotes (n : Nat) (cs : List Char) :
    dropBlock .quotes n cs = dropBlock .code n (cs.dropWhile isQuotedChar).tail := by
  induction cs with
  | nil => rfl
  | cons c cs ih =>
    by_cases hc : isQuotedChar c = true
    · rw [dropBlock, if_pos hc, ih, List.dropWhile_cons_of_pos hc]
    · rw [dropBlock, if_neg hc, List.dropWhile_cons_of_neg hc, List.tail_cons]

theorem dropBlock_of_comment {cs : List Char} (h : atComment cs = true) (n : Nat) :
    dropBlock .code n cs = dropBlock .code n (dropLine cs) := by
  obtain ⟨rest, rfl⟩ := atComment_iff.1 h
  rw [← dropBlock_comment]
  simp [dropBlock, atComment]

theorem dropBlock_quote (n : Nat) (rest : List Char) :
    dropBlock .code n ('"' :: rest) = dropBlock .code n (rest.dropWhile isQuotedChar).tail := by
  rw [← dropBlock_quotes]
  simp [dropBlock, atComment]

theorem dropBlock_other {c : Char} {rest : List Char} (hcomment : atComment (c :: rest) = false)
    (hc : c ≠ '"' ∧ c ≠ '{' ∧ c ≠ '}') (n : Nat) :
    dropBlock .code n (c :: rest) = dropBlock .code n rest := by
  simp [dropBlock, hcomment, hc]

/-- The loop stops on every text, where `List.dropWhile` does. -/
theorem passes_iff {p : Char → Bool} {cs front left : List Char} :
    Passes p cs front left ↔ front = cs.takeWhile p ∧ left = cs.dropWhile p := by
  constructor
  · intro h
    induction h with
    | atEnd => exact ⟨rfl, rfl⟩
    | stopped hc => simp [hc]
    | onward hc _ ih => simp [hc, ih.1, ih.2]
  · rintro ⟨rfl, rfl⟩
    induction cs with
    | nil => exact .atEnd
    | cons c cs ih =>
      by_cases hc : p c = true
      · rw [List.takeWhile_cons_of_pos hc, List.dropWhile_cons_of_pos hc]
        exact .onward hc ih
      · rw [List.takeWhile_cons_of_neg hc, List.dropWhile_cons_of_neg hc]
        exact .stopped (by simpa using hc)

theorem passes (p : Char → Bool) (cs : List Char) :
    Passes p cs (cs.takeWhile p) (cs.dropWhile p) := passes_iff.2 ⟨rfl, rfl⟩

/-- The character that stops the loop is one it does not pass over. -/
theorem Passes.head {p : Char → Bool} {c : Char} {cs front rest : List Char}
    (h : Passes p cs front (c :: rest)) : p c = false :=
  head?_dropWhile (by rw [← (passes_iff.1 h).2]; rfl)

theorem seeks (cs : List Char) : Seeks cs (dropFiller false cs) := by
  match hcs : cs with
  | [] => exact .atEnd
  | c :: rest =>
    by_cases hcomment : atComment (c :: rest) = true
    · have hlt := dropLine_length_lt hcomment
      rw [dropFiller_of_comment hcomment]
      exact .comment hcomment (passes _ _) (seeks (dropLine (c :: rest)))
    by_cases hbreak : c = '\n'
    · rw [dropFiller, if_pos hbreak]
      exact .blank (.inl hbreak) (seeks rest)
    by_cases hsep : isSeparator c = true
    · rw [dropFiller, if_neg hbreak, if_neg (by simp), if_pos hsep]
      exact .blank (.inr hsep) (seeks rest)
    · rw [dropFiller, if_neg hbreak, if_neg (by simp), if_neg hsep, if_neg hcomment]
      exact .atWord hbreak (by simpa using hsep) (by simpa using hcomment)
termination_by cs.length
decreasing_by all_goals subst hcs; simp only [List.length_cons] at *; omega

theorem seeks_iff {cs left : List Char} : Seeks cs left ↔ left = dropFiller false cs := by
  constructor
  · intro h
    induction h with
    | atEnd => rfl
    | atWord hbreak hsep hcomment =>
      rw [dropFiller, if_neg hbreak, if_neg (by simp), if_neg (by simp [hsep]), if_neg (by simp [hcomment])]
    | blank hc _ ih =>
      rw [dropFiller, ih]
      rcases hc with rfl | hsep
      · rw [if_pos rfl]
      · rw [if_neg Bool.false_ne_true, if_pos hsep]
        split <;> rfl
    | comment hcomment hline _ ih =>
      rw [dropFiller_of_comment hcomment, ih, (passes_iff.1 hline).2, dropLine]
  · rintro rfl
    exact seeks cs

/-- The character that stops the search for a word begins one. -/
theorem Seeks.head {cs left : List Char} (h : Seeks cs left) {c : Char} {rest : List Char}
    (hleft : left = c :: rest) : c ≠ '\n' ∧ isSeparator c = false ∧ atComment (c :: rest) = false := by
  induction h with
  | atEnd => cases hleft
  | atWord hbreak hsep hcomment => cases hleft; exact ⟨hbreak, hsep, hcomment⟩
  | blank _ _ ih => exact ih hleft
  | comment _ _ _ ih => exact ih hleft

theorem isCommandChar_of_seeks {c : Char} {cs rest : List Char} (h : Seeks cs (c :: rest))
    (hc : ¬(c = '{' ∨ c = '}')) : isCommandChar c = true := by
  obtain ⟨hbreak, hsep, -⟩ := h.head rfl
  obtain ⟨hopen, hclose⟩ := not_or.1 hc
  simp [isCommandChar, isWordChar, hbreak, hsep, hopen, hclose]

theorem reads (cs : List Char) : Reads cs (takeCommand cs).1 (takeCommand cs).2 := by
  have hs := seeks cs
  cases hd : dropFiller false cs with
  | nil =>
    rw [hd] at hs
    rw [takeCommand, hd]
    exact .nothing hs
  | cons c rest =>
    rw [hd] at hs
    rw [takeCommand, hd]
    dsimp only
    by_cases hc : c = '{' ∨ c = '}'
    · rw [if_pos (by simpa using hc)]
      exact .brace hs hc
    · rw [if_neg (by simpa using hc)]
      exact .word hs hc (.onward (isCommandChar_of_seeks hs hc) (passes _ _))

theorem reads_iff {cs word rest : List Char} : Reads cs word rest ↔ takeCommand cs = (word, rest) := by
  constructor
  · intro h
    unfold takeCommand
    cases h with
    | nothing h => rw [← seeks_iff.1 h]
    | brace h hc => rw [← seeks_iff.1 h]; exact if_pos (by simpa using hc)
    | word h hc hword =>
      have hfirst := isCommandChar_of_seeks h hc
      obtain ⟨rfl, rfl⟩ := passes_iff.1 hword
      rw [← seeks_iff.1 h, List.takeWhile_cons_of_pos hfirst, List.dropWhile_cons_of_pos hfirst]
      exact if_neg (by simpa using hc)
  · intro h
    have hr := reads cs
    rw [h] at hr
    exact hr

theorem peeks (cs : List Char) : Peeks cs (nextToken cs) := by
  have hs := passes isSeparator cs
  unfold nextToken
  cases hd : cs.dropWhile isSeparator with
  | nil =>
    rw [hd] at hs
    exact .nothing hs
  | cons c rest =>
    rw [hd] at hs
    dsimp only
    by_cases hend : c = '\n' ∨ atComment (c :: rest) = true
    · rw [if_pos (by simpa using hend)]
      exact .lineEnd hs hend
    · rw [if_neg (by simpa using hend)]
      by_cases hquote : c = '"'
      · subst hquote
        exact .quoted hs (passes _ _)
      · rw [if_neg hquote]
        refine .word hs hend hquote (.onward ?_ (passes _ _))
        simp [isWordChar, hs.head, (not_or.1 hend).1]

theorem peeks_iff {cs : List Char} {token : Option Token} : Peeks cs token ↔ token = nextToken cs := by
  constructor
  · intro h
    unfold nextToken
    cases h with
    | nothing h => rw [← (passes_iff.1 h).2]
    | lineEnd h hc =>
      rw [← (passes_iff.1 h).2]
      exact (if_pos (by simpa using hc)).symm
    | quoted h hword =>
      obtain ⟨rfl, rfl⟩ := passes_iff.1 hword
      rw [← (passes_iff.1 h).2]
      rfl
    | @word c _ _ rest _ _ h hc hquote hword =>
      have hfirst : isWordChar c = true := by simp [isWordChar, h.head, (not_or.1 hc).1]
      obtain ⟨rfl, rfl⟩ := passes_iff.1 hword
      rw [← (passes_iff.1 h).2, List.takeWhile_cons_of_pos hfirst, List.dropWhile_cons_of_pos hfirst]
      dsimp only
      rw [if_neg (by simpa using hc), if_neg hquote]
  · rintro rfl
    exact peeks cs

theorem dropFiller_dropWhile (cs : List Char) :
    dropFiller false (cs.dropWhile isSeparator) = dropFiller false cs := by
  induction cs with
  | nil => rfl
  | cons c cs ih =>
    cases hsep : isSeparator c with
    | false => rw [List.dropWhile_cons_of_neg (by simp [hsep])]
    | true =>
      rw [List.dropWhile_cons_of_pos hsep, ih]
      simp [dropFiller, hsep]

/-- While words are left on the line, the next command word begins with the next word. -/
theorem dropFiller_of_some {cs : List Char} {token : Token} (h : nextToken cs = some token) :
    dropFiller false cs = token.start := by
  have hpeeks := peeks cs
  rw [h] at hpeeks
  rw [← dropFiller_dropWhile]
  cases hpeeks with
  | quoted hs =>
    rw [← (passes_iff.1 hs).2]
    simp [dropFiller, isSeparator, atComment]
  | @word c _ _ _ _ _ hs hc =>
    obtain ⟨hbreak, hcomment⟩ := not_or.1 hc
    rw [← (passes_iff.1 hs).2]
    simp [dropFiller, hbreak, hs.head, hcomment]

/-- While words are left on the line, the next command word stands there. -/
theorem command_onLine {cs : List Char} {token : Token} (h : nextToken cs = some token) :
    OnLine cs (dropFiller false cs) ∧ OnLine cs (readCommand cs).2 := by
  have hstart : OnLine cs (dropFiller false cs) := dropFiller_of_some h ▸ start_onLine h
  exact ⟨hstart, hstart.trans (readCommand_onLine cs)⟩

theorem leaves (n : Nat) (cs : List Char) : Leaves n cs (dropBlock .code n cs) := by
  match hcs : cs with
  | [] => exact .atEnd
  | c :: rest =>
    by_cases hcomment : atComment (c :: rest) = true
    · have hlt := dropLine_length_lt hcomment
      rw [dropBlock_of_comment hcomment]
      exact .comment hcomment (passes _ _) (leaves n (dropLine (c :: rest)))
    by_cases hquote : c = '"'
    · subst hquote
      have hle := (List.dropWhile_suffix isQuotedChar (l := rest)).length_le
      rw [dropBlock_quote]
      exact .quotes (passes _ _) (leaves n (rest.dropWhile isQuotedChar).tail)
    by_cases hopen : c = '{'
    · subst hopen
      exact .opened (leaves (n + 1) rest)
    by_cases hclose : c = '}'
    · subst hclose
      cases n with
      | zero => exact .last
      | succ n => exact .closed (leaves n rest)
    · have hcode : atComment (c :: rest) = false := by simpa using hcomment
      rw [dropBlock_other hcode ⟨hquote, hopen, hclose⟩]
      exact .other hcode ⟨hquote, hopen, hclose⟩ (leaves n rest)
termination_by cs.length
decreasing_by all_goals subst hcs; simp only [List.length_cons, List.length_tail] at *; omega

theorem leaves_iff {n : Nat} {cs left : List Char} :
    Leaves n cs left ↔ left = dropBlock .code n cs := by
  constructor
  · intro h
    induction h with
    | atEnd => rfl
    | comment hcomment hline _ ih =>
      rw [dropBlock_of_comment hcomment, ih, (passes_iff.1 hline).2, dropLine]
    | quotes hword _ ih => rw [dropBlock_quote, ih, (passes_iff.1 hword).2]
    | opened _ ih => exact ih
    | last => rfl
    | closed _ ih => exact ih
    | other hcomment hc _ ih => rw [dropBlock_other hcomment hc, ih]
  · rintro rfl
    exact leaves n cs

theorem drops (n : Nat) (cs : List Char) : Drops n cs (dropToken^[n] cs) := by
  induction n generalizing cs with
  | zero => exact .done
  | succ n ih =>
    have hp := peeks cs
    rw [Function.iterate_succ_apply]
    cases ht : nextToken cs with
    | none =>
      rw [ht] at hp
      rw [dropToken, ht]
      exact .nothing hp (ih cs)
    | some token =>
      rw [ht] at hp
      rw [dropToken, ht]
      exact .token hp (ih token.rest)

theorem drops_iff {n : Nat} {cs left : List Char} : Drops n cs left ↔ left = dropToken^[n] cs := by
  constructor
  · intro h
    induction h with
    | done => rfl
    | token h _ ih => rw [Function.iterate_succ_apply, dropToken, ← peeks_iff.1 h, ih]
    | nothing h _ ih => rw [Function.iterate_succ_apply, dropToken, ← peeks_iff.1 h, ih]
  · rintro rfl
    exact drops n cs

theorem dropOperands_of_drops {cs left : List Char} (h : Drops 3 cs left) : left = dropOperands cs :=
  drops_iff.1 h

theorem lead_of_reads {cs word rest : List Char} (h : Reads cs word rest) :
    Lead.of (readCommand cs).1 = Lead.of (Text.lowercase (String.ofList word)) ∧
      (readCommand cs).2 = rest := by
  rw [readCommand, reads_iff.1 h]
  exact ⟨rfl, rfl⟩

theorem elseFollows_of_reads {cs word rest : List Char} (h : Reads cs word rest) :
    elseFollows cs = (Text.lowercase (String.ofList word) == "else") := by
  rw [elseFollows, readCommand, reads_iff.1 h]

theorem skips (cs : List Char) : Skips cs (skipStatement cs) := by
  have hr := reads cs
  rw [skipStatement_eq]
  cases hlead : Lead.of (readCommand cs).1 with
  | nothing => exact .nothing hr hlead
  | closingBrace => exact .closingBrace hr hlead
  | openingBrace => exact .block hr hlead (leaves 0 _)
  | command => exact .line hr hlead (passes _ _)
  | conditional =>
    -- both branches come after the word `if`, which is not empty
    have hword : (readCommand cs).1 ≠ "" := Lead.of_ne_nothing (by rw [hlead]; decide)
    have hlt := readCommand_length_lt hword
    have hoperands := (dropOperands_suffix (readCommand cs).2).length_le
    have hguarded := (skipStatement_suffix (dropOperands (readCommand cs).2)).length_le
    have hbranch := (readCommand_suffix (skipStatement (dropOperands (readCommand cs).2))).length_le
    have hskips := skips (dropOperands (readCommand cs).2)
    have hnext := reads (skipStatement (dropOperands (readCommand cs).2))
    dsimp only
    by_cases helse : elseFollows (skipStatement (dropOperands (readCommand cs).2)) = true
    · rw [if_pos helse]
      rw [elseFollows_of_reads hnext, beq_iff_eq] at helse
      exact .branches hr hlead (drops 3 _) hskips hnext helse
        (skips (readCommand (skipStatement (dropOperands (readCommand cs).2))).2)
    · rw [if_neg helse]
      rw [elseFollows_of_reads hnext, beq_iff_eq] at helse
      exact .guarded hr hlead (drops 3 _) hskips hnext helse
termination_by cs.length
decreasing_by all_goals omega

theorem skips_iff {cs left : List Char} : Skips cs left ↔ left = skipStatement cs := by
  constructor
  · intro h
    induction h with
    | nothing h hlead => rw [skipStatement_eq, (lead_of_reads h).1, hlead, (lead_of_reads h).2]
    | closingBrace h hlead => rw [skipStatement_eq, (lead_of_reads h).1, hlead]
    | block h hlead hblock =>
      obtain ⟨hof, hrest⟩ := lead_of_reads h
      rw [skipStatement_eq, hof, hlead, leaves_iff.1 hblock, hrest]
    | line h hlead hline =>
      obtain ⟨hof, hrest⟩ := lead_of_reads h
      rw [skipStatement_eq, hof, hlead, (passes_iff.1 hline).2, hrest]
      rfl
    | guarded h hlead hoperands _ hnext helse ih =>
      obtain ⟨hof, hrest⟩ := lead_of_reads h
      rw [skipStatement_eq, hof, hlead]
      dsimp only
      rw [hrest, ← dropOperands_of_drops hoperands, ← ih, if_neg (by simpa [elseFollows_of_reads hnext] using helse)]
    | branches h hlead hoperands _ hnext helse _ ih ihBranch =>
      obtain ⟨hof, hrest⟩ := lead_of_reads h
      rw [skipStatement_eq, hof, hlead]
      dsimp only
      rw [hrest, ← dropOperands_of_drops hoperands, ← ih, if_pos (by simpa [elseFollows_of_reads hnext] using helse), ihBranch,
        (lead_of_reads hnext).2]
  · rintro rfl
    exact skips cs

end EntityScript.Reading
