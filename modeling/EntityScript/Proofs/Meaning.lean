import EntityScript.Proofs.Changes
import EntityScript.Proofs.Tree

/-! What statement trees mean, without any text. `walk` goes through a tree by
recursion and carries out its commands on the states that a run keeps; it knows of
no place in a text and no depth of braces. It also counts what the steps of a run
are counted for: commands, comparisons, and each `else` behind a branch taken. -/

namespace EntityScript

namespace Reading

structure Word where
  chars : List Char
  nonempty : chars ≠ []
  plain : ∀ c ∈ chars, isWordChar c = true ∧ IsQuiet c ∧ c ≠ '~'

def Word.text (w : Word) : String := String.ofList w.chars

def spaced (words : List Word) : List Char := words.flatMap fun w => ' ' :: w.chars

end Reading

open Reading

/-- The commands that are carried out where they stand and read a fixed number of words. -/
inductive Action
  | nop
  | accept
  | refuse
  | setMainEvent (event : Word)
  | setStatus (event : Word)
  | setEvent (event on : Word)
  | startTimer (name : Word)
  | stopTimer (name : Word)

structure Condition where
  left : Word
  operator : Word
  right : Word

namespace Run

def valueOf (r : Run) (word : String) (wanted : ValueType) : Value :=
  if Namespace.of word = .system then ((r.systemValue? word).getD (.text "")).toValue
  else Value.ofOperand r.shared.globals r.own.locals word wanted

end Run

namespace Condition

def holds (policy : WrongTypePolicy) (c : Condition) (r : Run) : Bool :=
  match OperatorTable.builtin.get? c.operator.text with
  | none => false
  | some op =>
    let left := r.valueOf c.left.text op.preferred
    let right := r.valueOf c.right.text left.type
    left.type == right.type && (op.apply policy r.world.entities r.owner left right).holds

end Condition

namespace Action

def keyword : Action → List Char
  | nop => "nop".toList
  | accept => "accept".toList
  | refuse => "refuse".toList
  | setMainEvent _ => "setmainevent".toList
  | setStatus _ => "setstatus".toList
  | setEvent .. => "setevent".toList
  | startTimer _ => "starttimer".toList
  | stopTimer _ => "stoptimer".toList

def operands : Action → List Word
  | nop | accept | refuse => []
  | setMainEvent event | setStatus event => [event]
  | setEvent event on => [event, on]
  | startTimer name | stopTimer name => [name]

/-- The command ends the run, with this outcome. -/
def stop? : Action → Option Outcome
  | accept => some .abortAccept
  | refuse => some .abortRefuse
  | _ => none

/-- A script that belongs to no entity has no event `main`. -/
def chooseMain (r : Run) (event : Word) : Run :=
  if r.owner.isNone then r else { r with own := r.own.setMainEvent event.text }

def setStopwatch (r : Run) (name : Word) (stopwatch : Stopwatch) : Run :=
  match Stopwatch.named? name.text with
  | none => r
  | some place => r.updateLeading fun s => s.setStopwatch place stopwatch

def act (r : Run) : Action → Run
  | nop | accept | refuse => r
  | setMainEvent event | setStatus event => chooseMain r event
  | setEvent event on =>
    match standardEvent? (Text.lowercase event.text) with
    | none => r
    | some place =>
      r.updateLeading fun s =>
        s.switchEvent place (["on", "yes", "true", "1"].contains (Text.lowercase on.text))
  | startTimer name => setStopwatch r name (.startedAt r.world.now)
  | stopTimer name => setStopwatch r name {}

end Action

/-- What comes of a statement: how many steps it took, whether it ended the run, and the run. -/
structure Walk where
  steps : Nat
  stop : Option Outcome
  run : Run

namespace Walk

def after (n : Nat) (w : Walk) : Walk := { w with steps := n + w.steps }

def andThen (w : Walk) (more : Run → Walk) : Walk :=
  if w.stop.isSome then w else (more w.run).after w.steps

end Walk

namespace Reading.Tree

variable (policy : WrongTypePolicy)

mutual

def walk : Tree Action Condition → Run → Walk
  | line _ action, r => ⟨1, action.stop?, action.act r⟩
  | block _ body _, r => walkAll body r
  | guarded _ condition _ branch, r =>
    if condition.holds policy r then (walk branch r).after 1 else ⟨1, none, r⟩
  | choice _ condition _ branch _ _ other, r =>
    if condition.holds policy r then ((walk branch r).andThen fun r => ⟨1, none, r⟩).after 1
    else (walk other r).after 1

def walkAll : List (Tree Action Condition) → Run → Walk
  | [], r => ⟨0, none, r⟩
  | t :: more, r => (walk t r).andThen fun r => walkAll more r

end

end Reading.Tree

namespace Reading

variable {words : List Word} {rest : List Char}

def StopsToken (rest : List Char) : Prop := ∀ c ∈ rest.head?, isWordChar c = false

theorem AtBreak.stopsToken (h : AtBreak rest) : StopsToken rest := by
  intro c hc
  rw [h c hc]
  rfl

theorem Blank.stopsToken (b : Blank) (rest : List Char) : StopsToken (b.char :: rest) := by
  intro c hc
  cases hc
  rcases b.blank with hb | hb
  · rw [hb]
    rfl
  · simp [isWordChar, hb]

theorem spaced_stopsToken (h : StopsToken rest) : StopsToken (spaced words ++ rest) := by
  cases words with
  | nil => exact h
  | cons w words =>
    intro c hc
    cases hc
    rfl

theorem StopsToken.stopsWord (h : StopsToken rest) : StopsWord rest := by
  intro c hc
  simp [isCommandChar, h c hc]

theorem spaced_chars : ∀ c ∈ spaced words, c ≠ '\n' ∧ IsQuiet c := by
  intro c hc
  obtain ⟨w, -, hw⟩ := List.mem_flatMap.1 hc
  rcases List.mem_cons.1 hw with rfl | hw
  · exact ⟨by decide, by decide⟩
  · obtain ⟨hword, hquiet, -⟩ := w.plain c hw
    refine ⟨?_, hquiet⟩
    rintro rfl
    exact absurd hword (by decide)

/-- A word is the next one on its line. -/
theorem nextToken_spaced (w : Word) (hrest : StopsToken rest) :
    nextToken (' ' :: (w.chars ++ rest)) = some ⟨w.chars, w.chars ++ rest, rest⟩ := by
  obtain ⟨c, more, hchars⟩ := List.exists_cons_of_ne_nil w.nonempty
  obtain ⟨hc, ⟨hslash, hquote, -, -⟩, -⟩ := w.plain c (by simp [hchars])
  have hall : ∀ d ∈ more, isWordChar d = true := fun d hd => (w.plain d (by simp [hchars, hd])).1
  have hfirst : isSeparator c = false ∧ c ≠ '\n' := by simpa [isWordChar] using hc
  obtain ⟨htake, hdrop⟩ := takeWhile_append_stop hall hrest
  have hdropped : (' ' :: (c :: (more ++ rest))).dropWhile isSeparator = c :: (more ++ rest) := by
    rw [List.dropWhile_cons_of_pos (by decide), List.dropWhile_cons_of_neg (by simp [hfirst.1])]
  rw [hchars, List.cons_append, nextToken, hdropped]
  dsimp only
  rw [if_neg (by simp [hfirst.2, atComment_of_ne hslash]), if_neg hquote, htake, hdrop]

theorem dropToken_spaced (w : Word) (hrest : StopsToken rest) :
    dropToken (' ' :: (w.chars ++ rest)) = rest := by
  rw [dropToken, nextToken_spaced w hrest]

end Reading

namespace Action

theorem keyword_isKeyword (a : Action) : IsKeyword a.keyword := by
  cases a <;> exact of_decide_eq_true rfl

theorem lead_keyword (a : Action) : Lead.of (String.ofList a.keyword) = .command := by
  cases a <;> rfl

theorem keyword_ne_else (a : Action) : String.ofList a.keyword ≠ "else" := by
  cases a <;> exact of_decide_eq_true rfl

theorem readCommand_line (a : Action) (h : AtBreak rest) :
    readCommand (a.keyword ++ spaced a.operands ++ rest) =
      (String.ofList a.keyword, spaced a.operands ++ rest) := by
  rw [List.append_assoc]
  exact readCommand_keyword a.keyword_isKeyword (spaced_stopsToken h.stopsToken).stopsWord

end Action

namespace Condition

def chars (c : Condition) : List Char := spaced [c.left, c.operator, c.right]

theorem chars_append (c : Condition) (rest : List Char) :
    c.chars ++ rest =
      ' ' :: (c.left.chars ++ ' ' :: (c.operator.chars ++ ' ' :: (c.right.chars ++ rest))) := by
  simp [chars, spaced]

theorem stopsToken_cons (w : Word) (rest : List Char) : StopsToken (' ' :: (w.chars ++ rest)) := by
  intro c hc
  cases hc
  rfl

end Condition

def plainWriting : Writing Action Condition where
  line a := a.keyword ++ spaced a.operands
  condition := Condition.chars
  line_lead a rest h := by rw [a.readCommand_line h, a.lead_keyword]
  line_notElse a rest h := by rw [a.readCommand_line h]; exact a.keyword_ne_else
  line_rest a rest h := by
    rw [a.readCommand_line h]
    exact dropLine_append (fun hb => (spaced_chars _ hb).1 rfl) h
  line_quiet a rest _ n := by
    rw [List.append_assoc, dropBlock_quiet, dropBlock_quiet fun c hc => (spaced_chars c hc).2]
    cases a <;> exact of_decide_eq_true rfl
  condition_stops c rest := by
    rw [Condition.chars_append]
    exact (Condition.stopsToken_cons c.left _).stopsWord
  condition_operands c b rest := by
    rw [Condition.chars_append, dropOperands, dropToken_spaced _ (Condition.stopsToken_cons _ _),
      dropToken_spaced _ (Condition.stopsToken_cons _ _), dropToken_spaced _ (b.stopsToken rest)]
  condition_quiet c b rest n := dropBlock_quiet (fun d hd => (spaced_chars d hd).2) n _

end EntityScript
