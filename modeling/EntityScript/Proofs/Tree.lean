import EntityScript.Proofs.Keywords

/-! Statements as trees, and the text they are written as. Nothing in a script marks
where a statement ends, so skipping has to find out, and `skipStatement_front` says
that it does: what it leaves is exactly what was written after the tree. The tree
does not say what its lines and conditions are, only how they are written. -/

namespace EntityScript.Reading

/-- A character that separates words or lines. -/
structure Blank where
  char : Char
  blank : char = '\n' ∨ isSeparator char = true

/-- What may stand between statements: blanks, and comments with the lines they end. -/
inductive Filler
  | blank (b : Blank)
  | comment (text : List Char) (h : '\n' ∉ text)

namespace Filler

def chars : Filler → List Char
  | blank b => [b.char]
  | comment text _ => '/' :: '/' :: (text ++ ['\n'])

def text (gap : List Filler) : List Char := gap.flatMap chars

end Filler

/-- The texts go on alike, but for what stands before the next word. -/
def Alike (cs ds : List Char) : Prop := dropFiller false cs = dropFiller false ds

namespace Alike

variable {cs ds : List Char}

theorem trans {es : List Char} (h₁ : Alike cs ds) (h₂ : Alike ds es) : Alike cs es := Eq.trans h₁ h₂

theorem readCommand (h : Alike cs ds) : readCommand cs = Reading.readCommand ds := by
  rw [Reading.readCommand, Reading.readCommand, takeCommand, takeCommand, h]

theorem elseFollows (h : Alike cs ds) : elseFollows cs = Reading.elseFollows ds := by
  rw [Reading.elseFollows, Reading.elseFollows, h.readCommand]

theorem skipStatement (h : Alike cs ds) (hlead : Lead.of (Reading.readCommand ds).1 ≠ .closingBrace) :
    skipStatement cs = Reading.skipStatement ds := by
  rw [skipStatement_eq cs, skipStatement_eq ds, h.readCommand]
  generalize Lead.of (Reading.readCommand ds).1 = lead at *
  cases lead with
  | closingBrace => exact absurd rfl hlead
  | _ => rfl

theorem blank (b : Blank) (cs : List Char) : Alike (b.char :: cs) cs := by
  rw [Alike, dropFiller]
  rcases b.blank with hb | hb
  · rw [if_pos hb]
  · rw [if_neg Bool.false_ne_true, if_pos hb]
    split <;> rfl

theorem filler (f : Filler) (cs : List Char) : Alike (f.chars ++ cs) cs := by
  cases f with
  | blank b => exact Alike.blank b cs
  | comment text h =>
    have hcomment : atComment ('/' :: '/' :: (text ++ '\n' :: cs)) = true := rfl
    have hline : dropLine (text ++ '\n' :: cs) = '\n' :: cs := by
      have hword : ∀ c ∈ text, (c != '\n') = true := by
        intro c hc
        rw [bne_iff_ne]
        rintro rfl
        exact h hc
      exact (takeWhile_append_stop hword (by simp)).2
    have hchars : (Filler.comment text h).chars ++ cs = '/' :: '/' :: (text ++ '\n' :: cs) := by
      simp [Filler.chars]
    rw [Alike, hchars, dropFiller_of_comment hcomment, dropLine, List.dropWhile_cons_of_pos (by decide),
      List.dropWhile_cons_of_pos (by decide)]
    rw [dropLine] at hline
    rw [hline, dropFiller, if_pos rfl]

theorem gap (g : List Filler) (cs : List Char) : Alike (Filler.text g ++ cs) cs := by
  induction g with
  | nil => exact Eq.refl _
  | cons f g ih =>
    rw [Filler.text, List.flatMap_cons, List.append_assoc]
    exact (filler f _).trans ih

end Alike

def IsQuiet (c : Char) : Prop := c ≠ '/' ∧ c ≠ '"' ∧ c ≠ '{' ∧ c ≠ '}'

instance (c : Char) : Decidable (IsQuiet c) := by unfold IsQuiet; infer_instance

theorem dropBlock_quiet {cs : List Char} (h : ∀ c ∈ cs, IsQuiet c) (n : Nat) (rest : List Char) :
    dropBlock .code n (cs ++ rest) = dropBlock .code n rest := by
  induction cs with
  | nil => rfl
  | cons c cs ih =>
    obtain ⟨⟨hslash, hquiet⟩, hcs⟩ := List.forall_mem_cons.1 h
    rw [List.cons_append, dropBlock_other (atComment_of_ne hslash _) hquiet, ih hcs]

theorem Blank.isQuiet (b : Blank) : IsQuiet b.char := by
  have hnot : ∀ c, ¬(c = '\n' ∨ isSeparator c = true) → b.char ≠ c := by
    intro c hc he
    exact hc (he ▸ b.blank)
  exact ⟨hnot _ (by decide), hnot _ (by decide), hnot _ (by decide), hnot _ (by decide)⟩

theorem dropBlock_blank (b : Blank) (n : Nat) (cs : List Char) :
    dropBlock .code n (b.char :: cs) = dropBlock .code n cs :=
  dropBlock_other (atComment_of_ne b.isQuiet.1 cs) b.isQuiet.2 n

theorem dropLine_append {text rest : List Char} (htext : '\n' ∉ text)
    (hrest : ∀ c ∈ rest.head?, c = '\n') : dropLine (text ++ rest) = rest := by
  have hword : ∀ c ∈ text, (c != '\n') = true := by
    intro c hc
    rw [bne_iff_ne]
    rintro rfl
    exact htext hc
  refine (takeWhile_append_stop hword fun c hc => ?_).2
  rw [hrest c hc]
  rfl

theorem dropBlock_gap (g : List Filler) (n : Nat) (cs : List Char) :
    dropBlock .code n (Filler.text g ++ cs) = dropBlock .code n cs := by
  induction g with
  | nil => rfl
  | cons f g ih =>
    rw [Filler.text, List.flatMap_cons, List.append_assoc]
    cases f with
    | blank b => exact (dropBlock_blank b n _).trans ih
    | comment text h =>
      have hnone : '\n' ∉ '/' :: '/' :: text := by simpa using h
      have hchars : (Filler.comment text h).chars = ('/' :: '/' :: text) ++ ['\n'] := rfl
      have hcomment : ∀ ds, atComment ('/' :: '/' :: ds) = true := fun ds => rfl
      rw [hchars, List.append_assoc, List.cons_append, List.cons_append, dropBlock_of_comment (hcomment _),
        ← List.cons_append, ← List.cons_append, dropLine_append hnone (by simp)]
      have hbreak : ∀ c ∈ ['\n'], IsQuiet c := by decide
      exact (dropBlock_quiet hbreak n _).trans ih

def AtBreak (rest : List Char) : Prop := ∀ c ∈ rest.head?, c = '\n'

/-- How line commands and conditions are written. A line command is a statement that ends with its
line, and a condition is what stands between an `if` and the statement it guards. -/
structure Writing (α β : Type) where
  line : α → List Char
  condition : β → List Char
  line_lead : ∀ a rest, AtBreak rest → Lead.of (readCommand (line a ++ rest)).1 = .command
  line_notElse : ∀ a rest, AtBreak rest → (readCommand (line a ++ rest)).1 ≠ "else"
  line_rest : ∀ a rest, AtBreak rest → dropLine (readCommand (line a ++ rest)).2 = rest
  line_quiet : ∀ a rest, AtBreak rest → ∀ n,
    dropBlock .code n (line a ++ rest) = dropBlock .code n rest
  condition_stops : ∀ c rest, StopsWord (condition c ++ rest)
  condition_operands : ∀ c (b : Blank) rest,
    dropOperands (condition c ++ b.char :: rest) = b.char :: rest
  condition_quiet : ∀ c (b : Blank) rest n,
    dropBlock .code n (condition c ++ b.char :: rest) = dropBlock .code n (b.char :: rest)

/-- Statements built of line commands of type `α` and conditions of type `β`, each with what stands
before it. -/
inductive Tree (α β : Type)
  | line (gap : List Filler) (command : α)
  | block (gap : List Filler) (body : List (Tree α β)) (last : List Filler)
  | guarded (gap : List Filler) (condition : β) (after : Blank) (branch : Tree α β)
  | choice (gap : List Filler) (condition : β) (after : Blank) (branch : Tree α β)
    (last : List Filler) (afterElse : Blank) (other : Tree α β)

def ifWord : List Char := ['i', 'f']

def elseWord : List Char := ['e', 'l', 's', 'e']

namespace Tree

variable {α β : Type}

/-- The statement ends with a line, and not with a brace. -/
def endsLine : Tree α β → Bool
  | line .. => true
  | block .. => false
  | guarded _ _ _ branch => branch.endsLine
  | choice _ _ _ _ _ _ other => other.endsLine

/-- An `else` after the statement would belong to it. -/
def isOpen : Tree α β → Bool
  | line .. => false
  | block .. => false
  | guarded .. => true
  | choice _ _ _ _ _ _ other => other.isOpen

mutual

/-- Every `else` belongs to the nearest `if`. -/
def WellPaired : Tree α β → Prop
  | line .. => True
  | block _ body _ => AllPaired body
  | guarded _ _ _ branch => WellPaired branch
  | choice _ _ _ branch _ _ other => branch.isOpen = false ∧ WellPaired branch ∧ WellPaired other

def AllPaired : List (Tree α β) → Prop
  | [] => True
  | t :: more => WellPaired t ∧ AllPaired more

end

def ending (t : Tree α β) : List Char := if t.endsLine then ['\n'] else []

mutual

/-- The statement as it is written, up to the end of its last line. -/
def front (w : Writing α β) : Tree α β → List Char
  | line gap command => Filler.text gap ++ w.line command
  | block gap body last => Filler.text gap ++ '{' :: (written w body ++ (Filler.text last ++ ['}']))
  | guarded gap condition after branch =>
    Filler.text gap ++ (ifWord ++ (w.condition condition ++ after.char :: front w branch))
  | choice gap condition after branch last afterElse other =>
    Filler.text gap ++ (ifWord ++ (w.condition condition ++ after.char ::
      (front w branch ++ (branch.ending ++ (Filler.text last ++
        (elseWord ++ afterElse.char :: front w other))))))

def written (w : Writing α β) : List (Tree α β) → List Char
  | [] => []
  | t :: more => front w t ++ (t.ending ++ written w more)

end

variable {w : Writing α β}

theorem atBreak_ending {t : Tree α β} (h : t.endsLine = true) (rest : List Char) :
    AtBreak (t.ending ++ rest) := by
  rw [ending, if_pos h]
  intro c hc
  cases hc
  rfl

theorem ending_alike (t : Tree α β) (rest : List Char) : Alike (t.ending ++ rest) rest := by
  unfold ending
  split
  · exact Alike.blank ⟨'\n', .inl rfl⟩ rest
  · exact Eq.refl _

theorem dropBlock_ending (t : Tree α β) (n : Nat) (rest : List Char) :
    dropBlock .code n (t.ending ++ rest) = dropBlock .code n rest := by
  unfold ending
  split
  · exact dropBlock_blank ⟨'\n', .inl rfl⟩ n rest
  · rfl

theorem Blank.stops (b : Blank) (rest : List Char) : StopsWord (b.char :: rest) := by
  intro c hc
  cases hc
  rcases b.blank with hb | hb
  · rw [hb]
    rfl
  · simp [isCommandChar, isWordChar, hb]

theorem readCommand_if (condition : β) (rest : List Char) :
    readCommand (ifWord ++ (w.condition condition ++ rest)) = ("if", w.condition condition ++ rest) :=
  readCommand_keyword (by decide) (w.condition_stops condition rest)

theorem readCommand_else (b : Blank) (rest : List Char) :
    readCommand (elseWord ++ b.char :: rest) = ("else", b.char :: rest) :=
  readCommand_keyword (by decide) (Blank.stops b rest)

theorem readCommand_brace {c : Char} (hc : c = '{' ∨ c = '}') (rest : List Char) :
    readCommand (c :: rest) = (String.ofList [c], rest) := by
  rcases hc with rfl | rfl <;> simp [readCommand, takeCommand, dropFiller, isSeparator, atComment] <;> rfl

theorem skipStatement_if (condition : β) (b : Blank) (rest : List Char) :
    skipStatement (ifWord ++ (w.condition condition ++ b.char :: rest)) =
      let guarded := skipStatement (b.char :: rest)
      if elseFollows guarded then skipStatement (readCommand guarded).2 else guarded := by
  rw [skipStatement_eq, readCommand_if]
  dsimp only
  rw [w.condition_operands]
  rfl

theorem skipStatement_brace (rest : List Char) : skipStatement ('{' :: rest) = dropBlock .code 0 rest := by
  rw [skipStatement_eq, readCommand_brace (.inl rfl)]
  rfl

section

variable (gap last : List Filler) (condition : β) (after afterElse : Blank) (branch other : Tree α β)
  (rest : List Char)

theorem front_line (command : α) :
    front w (.line gap command) ++ rest = Filler.text gap ++ (w.line command ++ rest) := by
  rw [front, List.append_assoc]

theorem front_block (body : List (Tree α β)) :
    front w (.block gap body last) ++ rest =
      Filler.text gap ++ '{' :: (written w body ++ (Filler.text last ++ '}' :: rest)) := by
  rw [front]
  simp

theorem front_guarded :
    front w (.guarded gap condition after branch) ++ rest =
      Filler.text gap ++ (ifWord ++ (w.condition condition ++ after.char :: (front w branch ++ rest))) := by
  rw [front]
  simp

theorem front_choice :
    front w (.choice gap condition after branch last afterElse other) ++ rest =
      Filler.text gap ++ (ifWord ++ (w.condition condition ++ after.char ::
        (front w branch ++ (branch.ending ++ (Filler.text last ++
          (elseWord ++ afterElse.char :: (front w other ++ rest))))))) := by
  rw [front]
  simp

/-- Behind the branch that is taken the text goes on with `else`. -/
theorem else_ahead :
    readCommand (branch.ending ++ (Filler.text last ++ (elseWord ++ afterElse.char :: rest))) =
      ("else", afterElse.char :: rest) := by
  rw [(ending_alike branch _).readCommand, (Alike.gap last _).readCommand, readCommand_else]

end

/-- What a statement begins with. -/
theorem front_lead (t : Tree α β) {rest : List Char} (hrest : t.endsLine = true → AtBreak rest) :
    Lead.of (readCommand (t.front w ++ rest)).1 ≠ .closingBrace ∧
      (readCommand (t.front w ++ rest)).1 ≠ "else" := by
  cases t with
  | line gap command =>
    rw [front_line, (Alike.gap gap _).readCommand, w.line_lead command rest (hrest rfl)]
    exact ⟨by decide, w.line_notElse command rest (hrest rfl)⟩
  | block gap body last =>
    rw [front_block, (Alike.gap gap _).readCommand, readCommand_brace (.inl rfl)]
    dsimp only
    exact ⟨by decide, by decide⟩
  | guarded gap condition after branch =>
    rw [front_guarded, (Alike.gap gap _).readCommand, readCommand_if]
    dsimp only
    exact ⟨by decide, by decide⟩
  | choice gap condition after branch last afterElse other =>
    rw [front_choice, (Alike.gap gap _).readCommand, readCommand_if]
    dsimp only
    exact ⟨by decide, by decide⟩

/-- Blanks before a statement are skipped with it. -/
theorem skipStatement_alike (t : Tree α β) {cs rest : List Char}
    (hrest : t.endsLine = true → AtBreak rest) (h : Alike cs (t.front w ++ rest)) :
    skipStatement cs = skipStatement (t.front w ++ rest) :=
  h.skipStatement (front_lead t hrest).1

mutual

/-- A statement leaves as many blocks open as it found. -/
theorem dropBlock_front : (t : Tree α β) → {rest : List Char} → (t.endsLine = true → AtBreak rest) →
    (n : Nat) → dropBlock .code n (t.front w ++ rest) = dropBlock .code n rest
  | line gap command, rest, hrest, n => by
    rw [front_line, dropBlock_gap, w.line_quiet command rest (hrest rfl)]
  | block gap body last, rest, _, n => by
    rw [front_block, dropBlock_gap]
    change dropBlock .code (n + 1) _ = _
    rw [dropBlock_written body, dropBlock_gap]
    rfl
  | guarded gap condition after branch, rest, hrest, n => by
    rw [front_guarded, dropBlock_gap, dropBlock_quiet (by decide), w.condition_quiet, dropBlock_blank,
      dropBlock_front branch hrest]
  | choice gap condition after branch last afterElse other, rest, hrest, n => by
    rw [front_choice, dropBlock_gap, dropBlock_quiet (by decide), w.condition_quiet, dropBlock_blank,
      dropBlock_front branch (fun h => atBreak_ending h _), dropBlock_ending, dropBlock_gap,
      dropBlock_quiet (by decide), dropBlock_blank, dropBlock_front other hrest]

theorem dropBlock_written : (body : List (Tree α β)) → (n : Nat) → (rest : List Char) →
    dropBlock .code n (written w body ++ rest) = dropBlock .code n rest
  | [], n, rest => by rw [written, List.nil_append]
  | t :: more, n, rest => by
    rw [written, List.append_assoc, List.append_assoc, dropBlock_front t (fun h => atBreak_ending h _),
      dropBlock_ending, dropBlock_written more]

end

/-- Skipping a statement leaves what was written after it. -/
theorem skipStatement_front : (t : Tree α β) → t.WellPaired → {rest : List Char} →
    (t.endsLine = true → AtBreak rest) → (t.isOpen = true → elseFollows rest = false) →
    skipStatement (t.front w ++ rest) = rest
  | line gap command, _, rest, hrest, _ => by
    have hlead := w.line_lead command rest (hrest rfl)
    rw [front_line, (Alike.gap gap _).skipStatement (by rw [hlead]; decide), skipStatement_eq, hlead]
    exact w.line_rest command rest (hrest rfl)
  | block gap body last, _, rest, hrest, _ => by
    have hlead := (front_lead (w := w) (.block gap body last) hrest).1
    rw [front_block, (Alike.gap gap _).readCommand] at hlead
    rw [front_block, (Alike.gap gap _).skipStatement hlead, skipStatement_brace, dropBlock_written,
      dropBlock_gap]
    rfl
  | guarded gap condition after branch, hpaired, rest, hrest, helse => by
    have hnone := helse rfl
    have hbranch := skipStatement_front branch hpaired hrest (fun _ => hnone)
    have hlead := (front_lead (w := w) (.guarded gap condition after branch) hrest).1
    rw [front_guarded, (Alike.gap gap _).readCommand] at hlead
    rw [front_guarded, (Alike.gap gap _).skipStatement hlead, skipStatement_if,
      skipStatement_alike branch hrest (Alike.blank after _), hbranch]
    simp [hnone]
  | choice gap condition after branch last afterElse other, hpaired, rest, hrest, helse => by
    obtain ⟨hclosed, hbranchPaired, hotherPaired⟩ := hpaired
    have hbreak := fun (h : branch.endsLine = true) => atBreak_ending h
      (Filler.text last ++ (elseWord ++ afterElse.char :: (front w other ++ rest)))
    have hbranch := skipStatement_front branch hbranchPaired hbreak (fun h => absurd h (by simp [hclosed]))
    have hother := skipStatement_front other hotherPaired hrest helse
    have hread := else_ahead last afterElse branch (front w other ++ rest)
    have hlead := (front_lead (w := w) (.choice gap condition after branch last afterElse other) hrest).1
    rw [front_choice, (Alike.gap gap _).readCommand] at hlead
    rw [front_choice, (Alike.gap gap _).skipStatement hlead, skipStatement_if,
      skipStatement_alike branch hbreak (Alike.blank after _), hbranch]
    dsimp only
    rw [elseFollows, hread, if_pos (by rfl),
      skipStatement_alike other hrest (Alike.blank afterElse _), hother]

end Tree

end EntityScript.Reading
