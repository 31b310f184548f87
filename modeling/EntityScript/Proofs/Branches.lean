import EntityScript.Proofs.Lexemes
import EntityScript.Proofs.Refinement
import EntityScript.Proofs.Words

/-! Which branch of an `if` runs. A branch that is taken is read word by word, and one that is not is
passed over line by line, and so is a command that is refused because the script belongs to no entity.
The two agree on where the branch ends unless an `else` stands on its line. `Fork.after` says for every
layout what comes of the statement. One branch runs, and only one, unless both stand on one line,
`Fork.OneLine`, or the line of a refused branch ends behind the `else`, `Fork.Strays`. -/

namespace EntityScript

open Reading

/-- The commands that read a fixed number of words, with these words, and let the run go on. -/
inductive Simple
  | nop
  | setMainEvent (event : Argument)
  | setEvent (event on : Argument)
  | stopwatch (start : Bool) (name : Argument)

namespace Simple

def keyword : Simple → String
  | nop => "nop"
  | setMainEvent _ => "setmainevent"
  | setEvent .. => "setevent"
  | stopwatch true _ => "starttimer"
  | stopwatch false _ => "stoptimer"

def command : Simple → Command
  | nop => .nop
  | setMainEvent _ => .setMainEvent
  | setEvent .. => .setEvent
  | stopwatch start _ => .stopwatch start

def arguments : Simple → List Argument
  | nop => []
  | setMainEvent event => [event]
  | setEvent event on => [event, on]
  | stopwatch _ name => [name]

/-- The command is passed over with its line, since the script belongs to no entity. -/
def isRefused (a : Simple) (r : Run) : Bool := a.command.needsEntity && r.owner.isNone

def act (r : Run) : Simple → Run
  | nop => r
  | setMainEvent event =>
    if r.owner.isNone then r else { r with own := r.own.setMainEvent (r.filled event.lexeme.word) }
  | setEvent event on =>
    match standardEvent? (Text.lowercase (r.filled event.lexeme.word)) with
    | none => r
    | some place =>
      r.updateLeading fun s => s.switchEvent place
        (["on", "yes", "true", "1"].contains (Text.lowercase (r.filled on.lexeme.word)))
  | stopwatch start name =>
    match Stopwatch.named? (r.filled name.lexeme.word) with
    | none => r
    | some place =>
      r.updateLeading fun s => s.setStopwatch place (if start then .startedAt r.world.now else {})

end Simple

/-- The text is read up to `rest`, and nothing is changed that can be seen. -/
structure Onward (r : Run) (rest : List Char) (s : Run) : Prop where
  rest : s.rest = rest
  calls : s.calls = r.calls
  scene : SameScene r s

variable {r s : Run} {rest : List Char}

theorem Onward.trans {t : Run} {more : List Char} (h₁ : Onward r rest s) (h₂ : Onward s more t) :
    Onward r more t :=
  ⟨h₂.rest, h₂.calls.trans h₁.calls, h₁.scene.trans h₂.scene⟩

theorem SameScene.simple (h : SameScene r s) (a : Simple) : SameScene (a.act r) (a.act s) := by
  cases a with
  | nop => exact h
  | setMainEvent event =>
    simp only [Simple.act, h.owner, h.filled]
    split
    · exact h
    · exact ⟨by rw [h.own], h.master, h.shared, h.world, rfl, h.params, h.sender⟩
  | setEvent event on =>
    simp only [Simple.act, h.filled]
    split
    · exact h
    · exact h.updateLeading _
  | stopwatch start name =>
    simp only [Simple.act, h.filled, h.world]
    split
    · exact h
    · exact h.updateLeading _

namespace Exec

theorem readWord_argument {a : Argument} (hr : r.rest = a.text ++ rest) (hfits : a.lexeme.Fits rest) :
    ∃ s, readWord.run r = (r.filled a.lexeme.word, s) ∧ Onward r rest s := by
  obtain ⟨journal, hrun⟩ := readWord_token (hr ▸ Argument.nextToken_text hfits)
  exact ⟨_, hrun, Run.rest_readTo r rest, rfl, (SameScene.readTo r rest).trans (SameScene.journal _ journal)⟩

theorem Settles.after {more : List Char} {stop : Option Outcome} {target : Run} {result : Outcome × Run}
    (h : Settles s more stop target result) (hon : Onward r rest s) : Settles r more stop target result :=
  ⟨h.rest, h.calls.trans hon.calls, h.scene, h.outcome⟩

theorem runSetMainEvent_argument {event : Argument} (hr : r.rest = event.text ++ rest)
    (hfits : event.lexeme.Fits rest) :
    Settles r rest none { r with own := r.own.setMainEvent (r.filled event.lexeme.word) }
      (runSetMainEvent.run r) := by
  obtain ⟨s, hread, hon⟩ := readWord_argument hr hfits
  have hrun : runSetMainEvent.run r =
      (.success, { s with own := s.own.setMainEvent (r.filled event.lexeme.word) }) :=
    (run_bind_of hread).trans rfl
  rw [hrun]
  obtain ⟨hown, hmaster, hshared, hworld, howner, hparams, hsender⟩ := hon.scene
  refine ⟨?_, hon.calls, ⟨by rw [hown], hmaster, hshared, hworld, howner, hparams, hsender⟩, rfl⟩
  simpa only [Run.rest] using hon.rest

theorem runStopwatch_argument {name : Argument} (start : Bool) (hr : r.rest = name.text ++ rest)
    (hfits : name.lexeme.Fits rest) :
    Settles r rest none ((Simple.stopwatch start name).act r) ((runStopwatch start).run r) := by
  obtain ⟨s, hread, hon⟩ := readWord_argument hr hfits
  rw [runStopwatch, run_bind_of hread, Simple.act]
  cases Stopwatch.named? (r.filled name.lexeme.word) with
  | none => exact ⟨hon.rest, hon.calls, hon.scene.trans (.journal _ _), rfl⟩
  | some place =>
    rw [← hon.scene.world]
    exact Settles.after (updateLeading_settles _ hon.rest hon.scene) hon

theorem runSetEvent_arguments {event on : Argument} (hr : r.rest = event.text ++ (on.text ++ rest))
    (hevent : event.lexeme.Fits (on.text ++ rest)) (hon : on.lexeme.Fits rest) :
    Settles r rest none ((Simple.setEvent event on).act r) (runSetEvent.run r) := by
  obtain ⟨s, hread, hfirst⟩ := readWord_argument hr hevent
  obtain ⟨t, hread', hsecond⟩ := readWord_argument hfirst.rest hon
  have hboth := hfirst.trans hsecond
  have hswitch : readSwitch.run s =
      (["on", "yes", "true", "1"].contains (Text.lowercase (r.filled on.lexeme.word)), t) := by
    rw [readSwitch, run_bind_of hread', hfirst.scene.filled]
    rfl
  rw [runSetEvent, run_bind_of hread, run_bind_of hswitch, Simple.act]
  cases standardEvent? (Text.lowercase (r.filled event.lexeme.word)) with
  | none => exact ⟨hboth.rest, hboth.calls, hboth.scene.trans (.journal _ _), rfl⟩
  | some place => exact Settles.after (updateLeading_settles _ hboth.rest hboth.scene) hboth

end Exec

namespace Simple

variable {table : CommandTable} {policy : WrongTypePolicy}

theorem command_mem (a : Simple) (policy : WrongTypePolicy) :
    (a.keyword, a.command) ∈ CommandTable.language policy := by
  cases a with
  | nop | setMainEvent | setEvent => simp [CommandTable.language, keyword, command]
  | stopwatch start => cases start <;> simp [CommandTable.language, keyword, command]

theorem execute_settles (a : Simple) (hr : r.rest = Argument.written a.arguments ++ rest)
    (hspaced : Argument.Spaced a.arguments rest) (hgo : a.isRefused r = false) :
    Settles r rest none (a.act r) (a.command.execute.run r) := by
  cases a with
  | nop => exact ⟨hr, rfl, .refl r, rfl⟩
  | setMainEvent event =>
    have howner : r.owner.isNone = false := hgo
    rw [act, howner]
    exact Exec.runSetMainEvent_argument (hr.trans Argument.written_cons) hspaced.1
  | setEvent event on =>
    have hevent : event.lexeme.Fits (on.text ++ rest) := by simpa [Argument.written] using hspaced.1
    refine Exec.runSetEvent_arguments (hr.trans ?_) hevent hspaced.2.1
    simp [arguments, Argument.written]
  | stopwatch start name =>
    exact Exec.runStopwatch_argument start (hr.trans Argument.written_cons) hspaced.1

def leaves (a : Simple) (r : Run) (rest : List Char) : List Char :=
  if a.isRefused r then dropLine rest else rest

theorem act_of_isRefused {a : Simple} (h : a.isRefused r = true) : a.act r = r := by
  cases a with
  | setMainEvent event => exact if_pos (Bool.and_eq_true_iff.1 h).2
  | _ => exact absurd h (by simp [isRefused, command, Command.needsEntity])

theorem runWord_settles (a : Simple) (hknows : table.Knows policy)
    (hr : r.rest = Argument.written a.arguments ++ rest) (hspaced : Argument.Spaced a.arguments rest) :
    Settles r (a.leaves r rest) none (a.act r) ((Exec.runWord table a.keyword).run r) := by
  rw [Exec.runWord_run, hknows _ _ (a.command_mem policy), leaves]
  dsimp only
  cases hrefused : a.isRefused r with
  | true =>
    have hpassed : (a.command.needsEntity && r.owner.isNone) = true := hrefused
    rw [if_pos hpassed, if_pos rfl]
    rw [act_of_isRefused hrefused]
    refine ⟨?_, rfl, .moved r _ _, rfl⟩
    change (Run.readTo _ (dropLine r.rest)).rest = _
    rw [hr, Run.rest_readTo]
    exact dropLine_of_onLine ⟨_, rfl, Argument.noBreak_written _⟩
  | false =>
    have hpassed : (a.command.needsEntity && r.owner.isNone) = false := hrefused
    rw [hpassed, if_neg Bool.false_ne_true, if_neg Bool.false_ne_true]
    have hr' : Run.rest { r with command := a.keyword } = Argument.written a.arguments ++ rest := hr
    have hdone := a.execute_settles hr' hspaced hrefused
    have hscene := SameScene.command r a.keyword
    exact ⟨hdone.rest, hdone.calls, (hscene.simple a).trans hdone.scene, hdone.outcome⟩

end Simple

structure Form where
  command : Simple
  word : Spelling command.keyword

namespace Form

def text (f : Form) : List Char := f.word.chars ++ Argument.written f.command.arguments

def Fits (f : Form) (rest : List Char) : Prop :=
  StopsWord (Argument.written f.command.arguments ++ rest) ∧ Argument.Spaced f.command.arguments rest

instance (f : Form) (rest : List Char) : Decidable (f.Fits rest) := by unfold Fits; infer_instance

variable {f : Form}

theorem Fits.append {more : List Char} (h : f.Fits rest) (hmore : rest = [] → StopsToken more) :
    f.Fits (rest ++ more) := by
  refine ⟨?_, h.2.append hmore⟩
  rw [← List.append_assoc]
  exact StopsWord.append h.1 fun hnil => (hmore (List.append_eq_nil_iff.1 hnil).2).stopsWord

theorem namesCommand (f : Form) : NamesCommand f.command.keyword := by
  rcases f with ⟨_ | _ | _ | ⟨_ | _, _⟩, _⟩ <;> dsimp only [Simple.keyword] <;> decide

theorem lead_keyword (f : Form) : Lead.of f.command.keyword = .command ∧ f.command.keyword ≠ "else" := by
  rcases f with ⟨_ | _ | _ | ⟨_ | _, _⟩, _⟩ <;> dsimp only [Simple.keyword] <;> decide

theorem text_ne_nil (f : Form) : f.text ≠ [] :=
  List.append_ne_nil_of_left_ne_nil (f.word.nonempty f.namesCommand.1) _

theorem noBreak (f : Form) : '\n' ∉ f.text := by
  rw [text, List.mem_append, not_or]
  exact ⟨f.word.noBreak, Argument.noBreak_written _⟩

theorem readCommand_text (h : f.Fits rest) :
    readCommand (f.text ++ rest) = (f.command.keyword, Argument.written f.command.arguments ++ rest) := by
  rw [text, List.append_assoc]
  exact f.word.readCommand_chars f.namesCommand.1 h.1

theorem skipStatement_text (h : f.Fits rest) : skipStatement (f.text ++ rest) = dropLine rest := by
  rw [skipStatement_eq, readCommand_text h, f.lead_keyword.1]
  exact dropLine_of_onLine ⟨_, rfl, Argument.noBreak_written _⟩

end Form

/-- The comparison makes sense and holds, its operands with their variables filled in. -/
def Reading.Test.holds (policy : WrongTypePolicy) (r : Run) (t : Test) : Bool :=
  Condition.holdsOf policy r (r.filled t.left.lexeme.word) (r.filled t.operator.lexeme.word)
    (r.filled t.right.lexeme.word)

theorem SameScene.test (h : SameScene r s) (policy : WrongTypePolicy) (t : Test) :
    t.holds policy s = t.holds policy r := by
  simp only [Test.holds, h.filled, Condition.holdsOf_congr h]

namespace Exec

variable {table : CommandTable} {policy : WrongTypePolicy}

theorem runConditional_test (policy : WrongTypePolicy) (t : Test) (hr : r.rest = t.text ++ rest)
    (hfits : t.right.lexeme.Fits rest) :
    Settles r (if t.holds policy r then rest else Reading.skipGuarded rest) none r
      ((runConditional policy).run r) := by
  obtain ⟨hleft, hoperator, hright, -⟩ := t.spaced.concat hfits
  rw [Test.text, Test.operands, Argument.written_cons] at hr
  obtain ⟨s₁, hread₁, hon₁⟩ := readWord_argument hr hleft
  obtain ⟨s₂, hread₂, hon₂⟩ := readWord_argument (hon₁.rest.trans Argument.written_cons) hoperator
  obtain ⟨s₃, hread₃, hon₃⟩ := readWord_argument (hon₂.rest.trans Argument.written_cons) hright
  have hon := hon₁.trans (hon₂.trans hon₃)
  rw [hon₁.scene.filled] at hread₂
  rw [hon₂.scene.filled, hon₁.scene.filled] at hread₃
  rw [runConditional, run_bind_of hread₁, run_bind_of hread₂, run_bind_of hread₃]
  exact Condition.compare_settles policy _ _ _ hon.rest hon.calls hon.scene

theorem runIf_test (hknows : table.Knows policy) (t : Test) (hr : r.rest = t.text ++ rest)
    (hfits : t.right.lexeme.Fits rest) :
    Settles r (if t.holds policy r then rest else Reading.skipGuarded rest) none r
      ((runWord table "if").run r) := by
  have hr' : Run.rest { r with command := "if" } = t.text ++ rest := hr
  have hdone := runConditional_test policy t hr' hfits
  rw [(SameScene.command r "if").test policy t] at hdone
  exact runIf_of_conditional hknows hdone

end Exec

namespace Loop

variable {table : CommandTable} {policy : WrongTypePolicy} {depth : Int} {l : Loop}

/-- The comparison of an `if` takes a step, and leads before the branch or past it. -/
theorem At.tests (hknows : table.Knows policy) {word : Spelling "if"} {t : Test}
    (hfits : t.right.lexeme.Fits rest) (h : At r depth (word.chars ++ (t.text ++ rest)) l) :
    ∃ m, Takes table 1 l m ∧ At r depth (if t.holds policy r then rest else skipGuarded rest) m := by
  have hread := word.readCommand_chars (by decide) (t.stopsWord_text rest)
  have hscene := h.scene.trans (SameScene.readTo l.run (t.text ++ rest))
  have hdone := Settles.of_scene (Exec.runIf_test hknows t (Run.rest_readTo l.run _) hfits) hscene
  rw [hscene.test policy t] at hdone
  exact h.takes hread (by decide) hdone

/-- A command takes a step. -/
theorem At.does (hknows : table.Knows policy) {f : Form} (hfits : f.Fits rest)
    (h : At r depth (f.text ++ rest) l) :
    ∃ m, Takes table 1 l m ∧ At (f.command.act r) depth (f.command.leaves r rest) m := by
  have hscene := h.scene.trans (SameScene.readTo l.run (Argument.written f.command.arguments ++ rest))
  have hdone := Settles.of_scene (f.command.runWord_settles hknows (Run.rest_readTo l.run _) hfits.2)
    (hscene.simple f.command)
  have hleaves : f.command.leaves (l.run.readTo (Argument.written f.command.arguments ++ rest)) rest =
      f.command.leaves r rest := by
    rw [Simple.leaves, Simple.isRefused, hscene.owner]
    rfl
  rw [hleaves] at hdone
  exact h.takes (Form.readCommand_text hfits) f.namesCommand hdone

/-- An `else` takes a step and is passed over with its branch. -/
theorem At.skipsElse (hknows : table.Knows policy) {word : Spelling "else"} (hstop : StopsWord rest)
    (h : At r depth (word.chars ++ rest) l) :
    ∃ m, Takes table 1 l m ∧ At r depth (skipStatement rest) m := by
  have hread := word.readCommand_chars (by decide) hstop
  have hdone := Settles.of_scene (Exec.runElse_settles hknows) (h.scene.trans (SameScene.readTo l.run rest))
  rw [Run.rest_readTo] at hdone
  exact h.takes hread (by decide) hdone

end Loop

/-- An `if` with an `else`, both branches being commands of these. -/
structure Fork where
  word : Spelling "if"
  test : Test
  /-- What stands before the first branch, before the `else` and before the second branch. -/
  gap : List Filler
  first : Form
  beforeElse : List Filler
  otherwise : Spelling "else"
  afterElse : List Filler
  second : Form
  last : LineEnd
  fits : test.right.lexeme.Fits (Filler.text gap ++ first.text) ∧
    first.Fits (Filler.text beforeElse ++ otherwise.chars) ∧
    StopsWord (Filler.text afterElse ++ second.text) ∧ second.Fits last.text

namespace Fork

variable (f : Fork)

def other : List Char := Filler.text f.afterElse ++ (f.second.text ++ f.last.text)

def behind : List Char := Filler.text f.beforeElse ++ (f.otherwise.chars ++ f.other)

def text : List Char :=
  f.word.chars ++ (f.test.text ++ (Filler.text f.gap ++ (f.first.text ++ f.behind)))

/-- All of it from the first branch on stands on one line. -/
def OneLine : Prop := Filler.breaks f.beforeElse = false ∧ Filler.breaks f.afterElse = false

instance : Decidable f.OneLine := by unfold OneLine; infer_instance

/-- A refused first branch takes the `else` on its line with it, and leaves the second branch. -/
def Strays (r : Run) : Prop :=
  f.first.command.isRefused r = true ∧ Filler.breaks f.beforeElse = false ∧ Filler.breaks f.afterElse = true

instance (r : Run) : Decidable (f.Strays r) := by unfold Strays; infer_instance

def after (policy : WrongTypePolicy) (r : Run) : Run :=
  if f.test.holds policy r then
    if f.Strays r then f.second.command.act r else f.first.command.act r
  else if f.OneLine then r
  else f.second.command.act r

def next (policy : WrongTypePolicy) (r : Run) (rest : List Char) : List Char :=
  if f.test.holds policy r = false ∧ f.OneLine ∧ elseFollows rest then (readCommand rest).2 else rest

theorem fits_test (rest : List Char) :
    f.test.right.lexeme.Fits (Filler.text f.gap ++ (f.first.text ++ rest)) := by
  rw [← List.append_assoc]
  exact f.fits.1.append fun hnil => absurd (List.append_eq_nil_iff.1 hnil).2 f.first.text_ne_nil

theorem fits_first (rest : List Char) : f.first.Fits (f.behind ++ rest) := by
  have hbehind : f.behind ++ rest =
      (Filler.text f.beforeElse ++ f.otherwise.chars) ++ (f.other ++ rest) := by simp [behind]
  rw [hbehind]
  exact f.fits.2.1.append fun hnil =>
    absurd (List.append_eq_nil_iff.1 hnil).2 (f.otherwise.nonempty (by decide))

theorem stopsWord_other (rest : List Char) : StopsWord (f.other ++ rest) := by
  have hother : f.other ++ rest =
      (Filler.text f.afterElse ++ f.second.text) ++ (f.last.text ++ rest) := by simp [other]
  rw [hother]
  exact StopsWord.append f.fits.2.2.1 fun hnil => absurd (List.append_eq_nil_iff.1 hnil).2 f.second.text_ne_nil

theorem fits_second (hrest : AtBreak rest) : f.second.Fits (f.last.text ++ rest) :=
  f.fits.2.2.2.append fun _ => hrest.stopsToken

theorem behind_append (rest : List Char) :
    f.behind ++ rest = Filler.text f.beforeElse ++ (f.otherwise.chars ++ (f.other ++ rest)) := by
  simp [behind]

theorem other_append (rest : List Char) :
    f.other ++ rest = Filler.text f.afterElse ++ (f.second.text ++ (f.last.text ++ rest)) := by
  simp [other]

variable {f}

theorem dropLine_behind_of_breaks (h : Filler.breaks f.beforeElse = true) (rest : List Char) :
    Alike (dropLine (f.behind ++ rest)) (f.otherwise.chars ++ (f.other ++ rest)) := by
  rw [behind_append]
  exact Filler.alike_dropLine h _

theorem dropLine_behind (h : Filler.breaks f.beforeElse = false) (rest : List Char) :
    dropLine (f.behind ++ rest) = dropLine (f.other ++ rest) := by
  rw [behind_append, dropLine_of_onLine ⟨_, rfl, Filler.noBreak_text h⟩,
    dropLine_of_onLine ⟨_, rfl, f.otherwise.noBreak⟩]

theorem dropLine_other_of_breaks (h : Filler.breaks f.afterElse = true) (rest : List Char) :
    Alike (dropLine (f.other ++ rest)) (f.second.text ++ (f.last.text ++ rest)) := by
  rw [other_append]
  exact Filler.alike_dropLine h _

theorem dropLine_other (h : Filler.breaks f.afterElse = false) (hrest : AtBreak rest) :
    dropLine (f.other ++ rest) = rest := by
  rw [other_append, dropLine_of_onLine ⟨_, rfl, Filler.noBreak_text h⟩,
    dropLine_of_onLine ⟨_, rfl, f.second.noBreak⟩, f.last.dropLine_text hrest]

theorem skipStatement_gap {g : Form} (hfits : g.Fits rest) (gap : List Filler) :
    skipStatement (Filler.text gap ++ (g.text ++ rest)) = dropLine rest := by
  have hlead : Lead.of (readCommand (g.text ++ rest)).1 ≠ .closingBrace := by
    rw [Form.readCommand_text hfits, g.lead_keyword.1]
    decide
  rw [(Alike.gap gap _).skipStatement hlead, Form.skipStatement_text hfits]

end Fork

namespace Loop

variable {table : CommandTable} {policy : WrongTypePolicy} {depth : Int} {l : Loop} {f : Fork}

/-- The second branch runs. -/
theorem At.second (hknows : table.Knows policy) (hrest : AtBreak rest)
    (h : At r depth (f.second.text ++ (f.last.text ++ rest)) l) :
    ∃ m, Takes table 1 l m ∧ At (f.second.command.act r) depth rest m := by
  obtain ⟨m, htakes, hm⟩ := h.does hknows (f.fits_second hrest)
  refine ⟨m, htakes, ?_⟩
  rw [Simple.leaves] at hm
  split at hm
  · rwa [f.last.dropLine_text hrest] at hm
  · exact hm.alike (f.last.alike hrest)

/-- The second branch is passed over. -/
theorem At.passesSecond (hknows : table.Knows policy) (hrest : AtBreak rest)
    (h : At r depth (f.otherwise.chars ++ (f.other ++ rest)) l) :
    ∃ m, Takes table 1 l m ∧ At r depth rest m := by
  obtain ⟨m, htakes, hm⟩ := h.skipsElse hknows (f.stopsWord_other rest)
  rw [Fork.other_append, Fork.skipStatement_gap (f.fits_second hrest), f.last.dropLine_text hrest] at hm
  exact ⟨m, htakes, hm⟩

/-- The first branch runs, or is refused. -/
theorem At.first (hknows : table.Knows policy) (hrest : AtBreak rest)
    (h : At r depth (Filler.text f.gap ++ (f.first.text ++ (f.behind ++ rest))) l) :
    ∃ n m, Takes table n l m ∧
      At (if f.Strays r then f.second.command.act r else f.first.command.act r) depth rest m := by
  obtain ⟨m, htakes, hm⟩ := (h.alike (Alike.gap _ _)).does hknows (f.fits_first rest)
  rw [Simple.leaves] at hm
  cases hrefused : f.first.command.isRefused r with
  | false =>
    rw [hrefused, if_neg Bool.false_ne_true, Fork.behind_append] at hm
    obtain ⟨next, hpassed, hnext⟩ := (hm.alike (Alike.gap _ _)).passesSecond hknows hrest
    rw [if_neg (by simp [Fork.Strays, hrefused])]
    exact ⟨_, next, htakes.trans hpassed, hnext⟩
  | true =>
    rw [hrefused, if_pos rfl] at hm
    cases hbefore : Filler.breaks f.beforeElse with
    | true =>
      have hahead := hm.alike (Fork.dropLine_behind_of_breaks hbefore rest)
      obtain ⟨next, hpassed, hnext⟩ := hahead.passesSecond hknows hrest
      rw [if_neg (by simp [Fork.Strays, hbefore])]
      exact ⟨_, next, htakes.trans hpassed, hnext⟩
    | false =>
      rw [Fork.dropLine_behind hbefore] at hm
      cases hafter : Filler.breaks f.afterElse with
      | true =>
        have hahead := hm.alike (Fork.dropLine_other_of_breaks hafter rest)
        obtain ⟨next, hsecond, hnext⟩ := hahead.second hknows hrest
        rw [Simple.act_of_isRefused hrefused] at hnext
        rw [if_pos ⟨hrefused, hbefore, hafter⟩]
        exact ⟨_, next, htakes.trans hsecond, hnext⟩
      | false =>
        rw [Fork.dropLine_other hafter hrest] at hm
        rw [if_neg (by simp [Fork.Strays, hafter])]
        exact ⟨_, m, htakes, hm⟩

/-- The first branch is passed over, and the second runs unless it is on the same line. -/
theorem At.skipsFirst (hknows : table.Knows policy) (hrest : AtBreak rest)
    (h : At r depth (skipGuarded (Filler.text f.gap ++ (f.first.text ++ (f.behind ++ rest)))) l) :
    ∃ n m, Takes table n l m ∧ At (if f.OneLine then r else f.second.command.act r) depth
      (if f.OneLine ∧ elseFollows rest then (readCommand rest).2 else rest) m := by
  rw [skipGuarded, Fork.skipStatement_gap (f.fits_first rest)] at h
  cases hbefore : Filler.breaks f.beforeElse with
  | true =>
    have hread : readCommand (dropLine (f.behind ++ rest)) = ("else", f.other ++ rest) :=
      (Fork.dropLine_behind_of_breaks hbefore rest).readCommand.trans
        (f.otherwise.readCommand_chars (by decide) (f.stopsWord_other rest))
    rw [elseFollows, hread, if_pos (by rfl), Fork.other_append] at h
    obtain ⟨m, hsecond, hm⟩ := (h.alike (Alike.gap _ _)).second hknows hrest
    have hline : ¬f.OneLine := by simp [Fork.OneLine, hbefore]
    rw [if_neg hline, if_neg (fun hboth => hline hboth.1)]
    exact ⟨_, m, hsecond, hm⟩
  | false =>
    rw [Fork.dropLine_behind hbefore] at h
    cases hafter : Filler.breaks f.afterElse with
    | true =>
      have hahead := Fork.dropLine_other_of_breaks hafter rest
      have hnone : elseFollows (dropLine (f.other ++ rest)) = false := by
        rw [elseFollows, hahead.readCommand, Form.readCommand_text (f.fits_second hrest)]
        simpa using f.second.lead_keyword.2
      rw [hnone, if_neg Bool.false_ne_true] at h
      obtain ⟨m, hsecond, hm⟩ := (h.alike hahead).second hknows hrest
      have hline : ¬f.OneLine := by simp [Fork.OneLine, hafter]
      rw [if_neg hline, if_neg (fun hboth => hline hboth.1)]
      exact ⟨_, m, hsecond, hm⟩
    | false =>
      have hline : f.OneLine := ⟨hbefore, hafter⟩
      rw [Fork.dropLine_other hafter hrest] at h
      rw [if_pos hline]
      simp only [hline, true_and]
      exact ⟨_, l, .refl l, h⟩

/-- What comes of an `if` with two branches, for every layout and every world. -/
theorem fork_goes (hknows : table.Knows policy) (f : Fork) (hrest : AtBreak rest)
    (h : At r depth (f.text ++ rest) l) :
    ∃ n m, Takes table n l m ∧ At (f.after policy r) depth (f.next policy r rest) m := by
  have htext : f.text ++ rest =
      f.word.chars ++ (f.test.text ++ (Filler.text f.gap ++ (f.first.text ++ (f.behind ++ rest)))) := by
    simp [Fork.text]
  rw [htext] at h
  obtain ⟨m, htakes, hm⟩ := h.tests hknows (f.fits_test _)
  unfold Fork.after Fork.next
  cases hholds : f.test.holds policy r with
  | true =>
    rw [hholds, if_pos rfl] at hm
    obtain ⟨n, next, hbranch, hnext⟩ := hm.first hknows hrest
    have hgoes : ¬(true = false ∧ f.OneLine ∧ elseFollows rest = true) := fun hline => nomatch hline.1
    rw [if_pos rfl, if_neg hgoes]
    exact ⟨_, next, htakes.trans hbranch, hnext⟩
  | false =>
    rw [hholds, if_neg Bool.false_ne_true] at hm
    obtain ⟨n, next, hbranch, hnext⟩ := hm.skipsFirst hknows hrest
    simp only [Bool.false_eq_true, if_false, true_and]
    exact ⟨_, next, htakes.trans hbranch, hnext⟩

/-- One branch of an `if` runs and the other does not, unless both stand on one line behind a comparison
that does not hold, or a refused branch takes the `else` with it; `Fork.after` says what comes of those. -/
theorem fork_runs (hknows : table.Knows policy) (f : Fork) (hrest : AtBreak rest)
    (h : At r depth (f.text ++ rest) l) :
    ∃ n m, Takes table n l m ∧ At (f.after policy r) depth (f.next policy r rest) m ∧
      (¬f.OneLine → ¬f.Strays r →
        At (if f.test.holds policy r then f.first.command.act r else f.second.command.act r) depth rest m) := by
  obtain ⟨n, m, htakes, hm⟩ := fork_goes hknows f hrest h
  refine ⟨n, m, htakes, hm, fun hline hstrays => ?_⟩
  simpa only [Fork.after, Fork.next, hline, hstrays, if_false, false_and, and_false] using hm

end Loop

/-- An event is switched off by the second branch, behind a comparison by an operator that there is not.
The `else` stands on a line of its own or on that of the first branch. -/
def Fork.switching (ownLine : Bool) : Fork where
  word := .plainIf
  test := ⟨spacedWord ['x'], spacedWord ['?'], spacedWord ['y'], by decide, by decide⟩
  gap := [blankSpace]
  first := ⟨.nop, ['n', 'o', 'p'], by decide, by decide⟩
  beforeElse := [if ownLine then newLine else blankSpace]
  otherwise := .plainElse
  afterElse := [blankSpace]
  second :=
    { command := .setEvent (spacedWord ['h', 'i', 't']) (spacedWord ['o', 'f', 'f'])
      word := ⟨['s', 'e', 't', 'e', 'v', 'e', 'n', 't'], by decide, by decide⟩ }
  last := .bare
  fits := by cases ownLine <;> decide

def chooser (ownLine : Bool) : Run where
  script := .ofText "chooser" ""
  place := { rest := (Fork.switching ownLine).text }
  owner := none
  own := .fresh 0
  shared :=
    { globals := .withCapacity 0, timers := .withCapacity 0, random := .ofSeed 0, maxCallDepth := 1 }
  world := {}
  sender := none

theorem chooser_at (ownLine : Bool) :
    Loop.At (chooser ownLine) 0 ((Fork.switching ownLine).text ++ []) (.begin (chooser ownLine) .block) :=
  ⟨rfl, rfl, ⟨rfl, rfl, rfl, rfl, rfl, rfl, rfl⟩, by rw [List.append_nil]; exact Eq.refl _⟩

/-- An `if` by an operator that there is not goes on past its branch. -/
theorem switching_refuses (ownLine : Bool) (policy : WrongTypePolicy) (r : Run) :
    (Fork.switching ownLine).test.holds policy r = false := by
  have hfilled : r.filled ['?'] = "?" := rfl
  have hunknown : OperatorTable.builtin.get? "?" = none := by decide +kernel
  change Condition.holdsOf policy r _ (r.filled ['?']) _ = false
  rw [Condition.holdsOf, hfilled, hunknown]

theorem fork_runs_chooser :
    ∃ n m, Loop.Takes (.builtin .legacy) n (.begin (chooser true) .block) m ∧
      m.run.own.disabled = ({} : EventSet).put 2 true := by
  obtain ⟨n, m, htakes, -, hclean⟩ := Loop.fork_runs (CommandTable.builtin_knows .legacy) (Fork.switching true)
    (by simp [AtBreak]) (chooser_at true)
  have hat := hclean (by decide) (by decide)
  rw [switching_refuses, if_neg Bool.false_ne_true] at hat
  refine ⟨n, m, htakes, ?_⟩
  rw [hat.scene.own]
  decide +kernel

/-- On one line neither branch runs: no command is left to read, and nothing is switched off. -/
theorem fork_skips_chooser :
    ∃ n m, Loop.Takes (.builtin .legacy) n (.begin (chooser false) .block) m ∧
      readCommand m.run.rest = ("", []) ∧ m.run.own.disabled = {} := by
  obtain ⟨n, m, htakes, hat⟩ := Loop.fork_goes (CommandTable.builtin_knows .legacy) (Fork.switching false)
    (by simp [AtBreak]) (chooser_at false)
  rw [Fork.after, Fork.next, switching_refuses] at hat
  refine ⟨n, m, htakes, ?_, ?_⟩
  · exact hat.ahead.readCommand
  · rw [hat.scene.own]
    decide +kernel

end EntityScript
