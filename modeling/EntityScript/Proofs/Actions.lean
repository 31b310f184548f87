import EntityScript.Proofs.Effects
import EntityScript.Proofs.Meaning

/-! Commands and comparisons at their place in a text do what they mean. They read
their own words and leave the text at what was written after them, and what they
change besides is what `Action.act` changes; `SameScene` says that two runs agree in
all that a statement can see. -/

namespace EntityScript

open Reading

structure SameScene (r s : Run) : Prop where
  own : s.own = r.own
  master : s.master = r.master
  shared : s.shared = r.shared
  world : s.world = r.world
  owner : s.owner = r.owner
  params : s.params = r.params
  sender : s.sender = r.sender

namespace SameScene

variable {r s : Run}

theorem refl (r : Run) : SameScene r r := ⟨rfl, rfl, rfl, rfl, rfl, rfl, rfl⟩

theorem trans {t : Run} (h₁ : SameScene r s) (h₂ : SameScene s t) : SameScene r t :=
  ⟨h₂.own.trans h₁.own, h₂.master.trans h₁.master, h₂.shared.trans h₁.shared,
    h₂.world.trans h₁.world, h₂.owner.trans h₁.owner, h₂.params.trans h₁.params,
    h₂.sender.trans h₁.sender⟩

theorem moved (r : Run) (place : Text.Place) (journal : Journal) : SameScene r { r with place, journal } :=
  ⟨rfl, rfl, rfl, rfl, rfl, rfl, rfl⟩

theorem readTo (r : Run) (rest : List Char) : SameScene r (r.readTo rest) := moved r _ _

theorem journal (r : Run) (journal : Journal) : SameScene r { r with journal } := moved r _ journal

theorem command (r : Run) (command : String) : SameScene r { r with command } :=
  ⟨rfl, rfl, rfl, rfl, rfl, rfl, rfl⟩

theorem updateLeading (h : SameScene r s) (change : ScriptState → ScriptState) :
    SameScene (r.updateLeading change) (s.updateLeading change) := by
  unfold Run.updateLeading
  rw [h.master]
  cases r.master with
  | none => exact ⟨by rw [h.own], rfl, h.shared, h.world, h.owner, h.params, h.sender⟩
  | some m => exact ⟨h.own, rfl, h.shared, h.world, h.owner, h.params, h.sender⟩

theorem valueOf (h : SameScene r s) (word : String) (wanted : ValueType) :
    s.valueOf word wanted = r.valueOf word wanted := by
  have hs : s = { r with
      script := s.script, place := s.place, calls := s.calls, command := s.command, journal := s.journal } := by
    obtain ⟨hown, hmaster, hshared, hworld, howner, hparams, hsender⟩ := h
    rw [← hown, ← hmaster, ← hshared, ← hworld, ← howner, ← hparams, ← hsender]
  rw [hs]
  rfl

theorem holds (h : SameScene r s) (policy : WrongTypePolicy) (c : Condition) :
    c.holds policy s = c.holds policy r := by
  simp only [Condition.holds, h.valueOf, h.world, h.owner]

theorem act (h : SameScene r s) (a : Action) : SameScene (a.act r) (a.act s) := by
  have hmain : ∀ event, SameScene (Action.chooseMain r event) (Action.chooseMain s event) := by
    intro event
    unfold Action.chooseMain
    rw [h.owner]
    split
    · exact h
    · exact ⟨by rw [h.own], h.master, h.shared, h.world, rfl, h.params, h.sender⟩
  have hwatch : ∀ name w, SameScene (Action.setStopwatch r name w) (Action.setStopwatch s name w) := by
    intro name w
    unfold Action.setStopwatch
    split
    · exact h
    · exact h.updateLeading _
  cases a with
  | nop | accept | refuse => exact h
  | setMainEvent event | setStatus event => exact hmain event
  | setEvent event on =>
    unfold Action.act
    dsimp only
    split
    · exact h
    · exact h.updateLeading _
  | startTimer name =>
    unfold Action.act
    rw [h.world]
    exact hwatch name _
  | stopTimer name => exact hwatch name _

end SameScene

namespace Exec

/-- A word without tildes stands for itself. -/
theorem expand_plain {word : List Char} (h : '~' ∉ word) (r : Run) :
    (expand word).run r = (String.ofList word, r) := by
  have huncut : ∀ c ∈ word, (c == '~') = false := by
    intro c hc
    rw [beq_eq_false_iff_ne]
    rintro rfl
    exact h hc
  rw [expand, Text.pieces_of_uncut huncut]
  rfl

theorem expand_word (w : Word) (r : Run) : (expand w.chars).run r = (w.text, r) :=
  expand_plain (fun hc => (w.plain _ hc).2.2 rfl) r

/-- The next word of the line is read. -/
theorem readWord_spaced {w : Word} {r : Run} {rest : List Char} (hr : r.rest = ' ' :: (w.chars ++ rest))
    (hrest : StopsToken rest) : readWord.run r = (w.text, r.readTo rest) := by
  rw [readWord_run, hr, nextToken_spaced w hrest]
  exact expand_word w (r.readTo rest)

theorem systemValue_run (name : String) (r : Run) :
    ∃ journal, (systemValue name).run r = ((r.systemValue? name).getD (.text ""), { r with journal }) := by
  simp only [systemValue, StateT.run_bind, StateT.run_get, pure_bind]
  cases r.systemValue? name with
  | some v => exact ⟨r.journal, rfl⟩
  | none => exact ⟨_, rfl⟩

/-- Looking up an operand may report something, and nothing else. -/
theorem resolve_run (word : String) (wanted : ValueType) (r : Run) :
    ∃ journal, (resolve word wanted).run r = (r.valueOf word wanted, { r with journal }) := by
  unfold resolve Run.valueOf
  split
  · obtain ⟨journal, hrun⟩ := systemValue_run word r
    rw [run_bind_of hrun]
    exact ⟨journal, StateT.run_pure _ _⟩
  · exact ⟨r.journal, rfl⟩

end Exec

/-- The run stops with the outcome, if there is one, and goes on otherwise. -/
def Outcome.Fits (outcome : Outcome) : Option Outcome → Prop
  | none => outcome.isAbort = false
  | some o => outcome = o

/-- The text is read up to `rest`, and what can be seen is as in `target`. -/
structure Settles (r : Run) (rest : List Char) (stop : Option Outcome) (target : Run)
    (result : Outcome × Run) : Prop where
  rest : result.2.rest = rest
  calls : result.2.calls = r.calls
  scene : SameScene target result.2
  outcome : result.1.Fits stop

namespace Exec

variable {r : Run} {rest : List Char}

theorem dropLine_spaced {words : List Word} (hrest : AtBreak rest) :
    dropLine (spaced words ++ rest) = rest :=
  dropLine_append (fun hb => (spaced_chars _ hb).1 rfl) hrest

theorem spaced_cons (w : Word) (words : List Word) (rest : List Char) :
    spaced (w :: words) ++ rest = ' ' :: (w.chars ++ (spaced words ++ rest)) := by
  simp [spaced]

theorem spaced_one (w : Word) (rest : List Char) : spaced [w] ++ rest = ' ' :: (w.chars ++ rest) :=
  spaced_cons w [] rest

theorem passOver_settles (d : Diagnostic) {words : List Word} (hr : r.rest = spaced words ++ rest)
    (hrest : AtBreak rest) : Settles r rest none r ((passOver d).run r) where
  rest := by
    change (Run.readTo _ (dropLine r.rest)).rest = rest
    rw [hr, dropLine_spaced hrest, Run.rest_readTo]
  calls := rfl
  scene := .moved r _ _
  outcome := rfl

theorem runSetMainEvent_settles {event : Word} (hr : r.rest = spaced [event] ++ rest)
    (hrest : AtBreak rest) :
    Settles r rest none { r with own := r.own.setMainEvent event.text } (runSetMainEvent.run r) := by
  rw [spaced_one] at hr
  have hrun : runSetMainEvent.run r =
      (.success, { r.readTo rest with own := r.own.setMainEvent event.text }) := by
    rw [runSetMainEvent, run_bind_of (readWord_spaced hr hrest.stopsToken)]
    rfl
  rw [hrun]
  exact ⟨Text.Place.rest_readTo r.place rest, rfl, .moved _ _ _, rfl⟩

theorem updateLeading_settles (change : ScriptState → ScriptState) (hr : r.rest = rest) {target : Run}
    (hscene : SameScene target r) :
    Settles r rest none (target.updateLeading change) (.success, r.updateLeading change) := by
  refine ⟨?_, ?_, hscene.updateLeading change, rfl⟩
  · unfold Run.updateLeading
    split <;> exact hr
  · unfold Run.updateLeading
    split <;> rfl

theorem runStopwatch_settles (start : Bool) {name : Word} (hr : r.rest = spaced [name] ++ rest)
    (hrest : AtBreak rest) :
    Settles r rest none (Action.setStopwatch r name (if start then .startedAt r.world.now else {}))
      ((runStopwatch start).run r) := by
  rw [spaced_one] at hr
  unfold runStopwatch Action.setStopwatch
  rw [run_bind_of (readWord_spaced hr hrest.stopsToken)]
  cases Stopwatch.named? name.text with
  | none => exact ⟨Text.Place.rest_readTo r.place rest, rfl, .moved r _ _, rfl⟩
  | some place =>
    have hs := updateLeading_settles (fun s =>
      s.setStopwatch place (if start then .startedAt r.world.now else {})) (Run.rest_readTo r rest)
      (SameScene.readTo r rest)
    exact ⟨hs.rest, hs.calls, hs.scene, rfl⟩

theorem runSetEvent_spaced {event on : Word} (hr : r.rest = spaced [event, on] ++ rest)
    (hrest : StopsToken rest) :
    runSetEvent.run r = StateT.run (match standardEvent? (Text.lowercase event.text) with
      | none => fail (.unknownEvent (Text.lowercase event.text))
      | some place => do
        modify fun r => r.updateLeading fun s =>
          s.switchEvent place (["on", "yes", "true", "1"].contains (Text.lowercase on.text))
        return .success) (r.readTo rest) := by
  rw [spaced_cons] at hr
  have hr' : (r.readTo (spaced [on] ++ rest)).rest = ' ' :: (on.chars ++ rest) := by
    rw [Run.rest_readTo, spaced_one]
  have hread : (r.readTo (spaced [on] ++ rest)).readTo rest = r.readTo rest := by
    refine Run.readTo_readTo ?_ (List.suffix_append _ _)
    rw [hr]
    exact (List.suffix_append _ _).trans (List.suffix_cons _ _)
  have hswitch : readSwitch.run (r.readTo (spaced [on] ++ rest)) =
      (["on", "yes", "true", "1"].contains (Text.lowercase on.text), r.readTo rest) := by
    rw [readSwitch, run_bind_of (readWord_spaced hr' hrest), hread]
    rfl
  rw [runSetEvent, run_bind_of (readWord_spaced hr (spaced_stopsToken hrest))]
  exact run_bind_of hswitch

theorem runSetEvent_settles {event on : Word} (hr : r.rest = spaced [event, on] ++ rest)
    (hrest : AtBreak rest) : Settles r rest none (Action.act r (.setEvent event on)) (runSetEvent.run r) := by
  rw [runSetEvent_spaced hr hrest.stopsToken, Action.act]
  cases standardEvent? (Text.lowercase event.text) with
  | none => exact ⟨Text.Place.rest_readTo r.place rest, rfl, .moved r _ _, rfl⟩
  | some place =>
    have hs := updateLeading_settles (fun s =>
      s.switchEvent place (["on", "yes", "true", "1"].contains (Text.lowercase on.text)))
      (Run.rest_readTo r rest) (SameScene.readTo r rest)
    exact ⟨hs.rest, hs.calls, hs.scene, rfl⟩

end Exec

namespace Action

open Exec

variable {table : CommandTable} {policy : WrongTypePolicy} {r : Run} {rest : List Char}

def command : Action → Command
  | nop => .nop
  | accept => .stop .abortAccept
  | refuse => .stop .abortRefuse
  | setMainEvent _ | setStatus _ => .setMainEvent
  | setEvent .. => .setEvent
  | startTimer _ => .stopwatch true
  | stopTimer _ => .stopwatch false

theorem command_mem (a : Action) (policy : WrongTypePolicy) :
    (String.ofList a.keyword, a.command) ∈ CommandTable.language policy := by
  cases policy <;> cases a <;> exact of_decide_eq_true rfl

theorem execute_settles (a : Action) (hr : r.rest = spaced a.operands ++ rest) (hrest : AtBreak rest)
    (howner : a.command.needsEntity = true → r.owner.isNone = false) :
    Settles r rest a.stop? (a.act r) (a.command.execute.run r) := by
  cases a with
  | nop | accept | refuse => exact ⟨hr, rfl, SameScene.refl r, rfl⟩
  | setMainEvent event | setStatus event =>
    rw [act, chooseMain, howner rfl]
    exact runSetMainEvent_settles hr hrest
  | setEvent event on => exact runSetEvent_settles hr hrest
  | startTimer name => exact runStopwatch_settles true hr hrest
  | stopTimer name => exact runStopwatch_settles false hr hrest

/-- An action at its place in the text does what it means. -/
theorem runWord_settles (a : Action) (hknows : table.Knows policy)
    (hr : r.rest = spaced a.operands ++ rest) (hrest : AtBreak rest) :
    Settles r rest a.stop? (a.act r) ((runWord table (String.ofList a.keyword)).run r) := by
  rw [runWord_run, hknows _ _ (a.command_mem policy)]
  dsimp only
  cases hpassed : a.command.needsEntity && r.owner.isNone with
  | true =>
    rw [if_pos rfl]
    have hact : a.act r = r ∧ a.stop? = none := by
      have howner := (Bool.and_eq_true_iff.1 hpassed).2
      cases a with
      | setMainEvent event | setStatus event => exact ⟨by rw [act, chooseMain, if_pos howner], rfl⟩
      | _ => exact absurd hpassed (by simp [command, Command.needsEntity])
    rw [hact.1, hact.2]
    exact passOver_settles _ hr hrest
  | false =>
    rw [if_neg Bool.false_ne_true]
    have hr' : Run.rest { r with command := String.ofList a.keyword } = spaced a.operands ++ rest := hr
    have hdone := a.execute_settles hr' hrest (fun hneeds => by simpa [hneeds] using hpassed)
    have hscene := SameScene.command r (String.ofList a.keyword)
    exact ⟨hdone.rest, hdone.calls, (hscene.act a).trans hdone.scene, hdone.outcome⟩

end Action

namespace Condition

open Exec

variable {r : Run} {rest : List Char}

/-- Two values are compared, and the guarded statement is skipped unless the comparison holds. -/
def weigh (policy : WrongTypePolicy) (op : Operator) (left right : String) (l r : Value) :
    Exec Outcome :=
  if l.type ≠ r.type then refuse (.incompatibleTypes left l.type right r.type)
  else do
    let run ← get
    let verdict := op.apply policy run.world.entities run.owner l r
    verdict.complaint.forM report
    if !verdict.holds then Exec.skipGuarded
    return .success

/-- The comparison of two operands by an operator of this name makes sense and holds. -/
def holdsOf (policy : WrongTypePolicy) (r : Run) (left name right : String) : Bool :=
  match OperatorTable.builtin.get? name with
  | none => false
  | some op =>
    let l := r.valueOf left op.preferred
    let r' := r.valueOf right l.type
    l.type == r'.type && (op.apply policy r.world.entities r.owner l r').holds

theorem holdsOf_congr {s : Run} (h : SameScene r s) (policy : WrongTypePolicy) (left name right : String) :
    holdsOf policy s left name right = holdsOf policy r left name right := by
  simp only [holdsOf, h.valueOf, h.world, h.owner]

/-- The comparison makes sense: there is an operator of this name, and the operands are of one type. -/
def isSound (r : Run) (left name right : String) : Bool :=
  match OperatorTable.builtin.get? name with
  | none => false
  | some op =>
    let l := r.valueOf left op.preferred
    l.type == (r.valueOf right l.type).type

def compare (policy : WrongTypePolicy) (left name right : String) : Exec Outcome :=
  match OperatorTable.builtin.get? name with
  | none => refuse (.unknownOperator name)
  | some op => do
    let l ← resolve left op.preferred
    let r ← resolve right l.type
    weigh policy op left right l r

theorem runConditional_run (policy : WrongTypePolicy) (c : Condition) (hr : r.rest = c.chars ++ rest)
    (hrest : StopsToken rest) :
    (runConditional policy).run r =
      (compare policy c.left.text c.operator.text c.right.text).run (r.readTo rest) := by
  rw [chars_append] at hr
  have hfirst : (r.readTo (' ' :: (c.operator.chars ++ ' ' :: (c.right.chars ++ rest)))).rest =
      ' ' :: (c.operator.chars ++ ' ' :: (c.right.chars ++ rest)) := Run.rest_readTo _ _
  have hsecond : (r.readTo (' ' :: (c.right.chars ++ rest))).rest = ' ' :: (c.right.chars ++ rest) :=
    Run.rest_readTo _ _
  have hfirstSuffix : ' ' :: (c.operator.chars ++ ' ' :: (c.right.chars ++ rest)) <:+ r.rest := by
    rw [hr]
    exact (List.suffix_append _ _).trans (List.suffix_cons _ _)
  have hsecondSuffix : ' ' :: (c.right.chars ++ rest) <:+
      ' ' :: (c.operator.chars ++ ' ' :: (c.right.chars ++ rest)) :=
    (List.suffix_append _ _).trans (List.suffix_cons _ _)
  have hthirdSuffix : rest <:+ ' ' :: (c.right.chars ++ rest) :=
    (List.suffix_append _ _).trans (List.suffix_cons _ _)
  rw [runConditional, run_bind_of (readWord_spaced hr (stopsToken_cons _ _)),
    run_bind_of (readWord_spaced hfirst (stopsToken_cons _ _)), Run.readTo_readTo hfirstSuffix hsecondSuffix,
    run_bind_of (readWord_spaced hsecond hrest),
    Run.readTo_readTo (hsecondSuffix.trans hfirstSuffix) hthirdSuffix]
  rfl

/-- Two values are compared without a change to anything but the place and the journal. -/
theorem weigh_run (policy : WrongTypePolicy) (op : Operator) (left right : String) (x y : Value) (s : Run) :
    ∃ journal, (weigh policy op left right x y).run s =
      (if x.type == y.type then .success else .failed,
        { s with
          place :=
            if x.type == y.type && (op.apply policy s.world.entities s.owner x y).holds then s.place
            else s.place.readTo (Reading.skipGuarded s.rest)
          journal }) := by
  unfold weigh
  by_cases htype : x.type = y.type
  · have hreports : ∀ complaint : Option Diagnostic,
        ∃ journal, (complaint.forM report).run s = ((), { s with journal }) := by
      intro complaint
      cases complaint with
      | none => exact ⟨s.journal, rfl⟩
      | some d => exact ⟨_, rfl⟩
    obtain ⟨journal, hreport⟩ :=
      hreports (op.apply policy s.world.entities s.owner x y).complaint
    have hget : (get : Exec Run).run s = (s, s) := rfl
    refine ⟨journal, ?_⟩
    rw [if_neg (not_not.2 htype), run_bind_of hget, run_bind_of hreport, htype, beq_self_eq_true, Bool.true_and]
    cases (op.apply policy s.world.entities s.owner x y).holds <;> rfl
  · have hfalse : (x.type == y.type) = false := by simpa using htype
    rw [if_pos htype, hfalse]
    exact ⟨_, rfl⟩

/-- A comparison changes nothing but the place and the journal. -/
theorem compare_run (policy : WrongTypePolicy) (left name right : String) (s : Run) :
    ∃ journal, (compare policy left name right).run s =
      (if isSound s left name right then .success else .failed,
        { s with
          place :=
            if holdsOf policy s left name right then s.place
            else s.place.readTo (Reading.skipGuarded s.rest)
          journal }) := by
  rw [compare, isSound, holdsOf]
  cases OperatorTable.builtin.get? name with
  | none => exact ⟨_, rfl⟩
  | some op =>
    dsimp only
    obtain ⟨journal₁, hleft⟩ := resolve_run left op.preferred s
    rw [run_bind_of hleft]
    obtain ⟨journal₂, hright⟩ := resolve_run right (s.valueOf left op.preferred).type
      { s with journal := journal₁ }
    rw [run_bind_of hright, (SameScene.journal s journal₁).valueOf]
    exact weigh_run policy op _ _ _ _ { s with journal := journal₂ }

theorem compare_settles (policy : WrongTypePolicy) (left name right : String) {s : Run} (hs : s.rest = rest)
    (hcalls : s.calls = r.calls) (hscene : SameScene r s) :
    Settles r (if holdsOf policy r left name right then rest else Reading.skipGuarded rest) none r
      ((compare policy left name right).run s) := by
  obtain ⟨journal, hrun⟩ := compare_run policy left name right s
  rw [hrun, holdsOf_congr hscene, ← hs]
  refine ⟨?_, hcalls, hscene.trans (.moved s _ _), ?_⟩
  · cases holdsOf policy r left name right with
    | true => rfl
    | false => exact Text.Place.rest_readTo s.place _
  · cases isSound s left name right <;> rfl

/-- The guarded statement of an `if` is skipped unless its comparison holds. -/
theorem runConditional_settles (policy : WrongTypePolicy) (c : Condition)
    (hr : r.rest = c.chars ++ rest) (hrest : StopsToken rest) :
    Settles r (if c.holds policy r then rest else Reading.skipGuarded rest) none r
      ((runConditional policy).run r) := by
  rw [runConditional_run policy c hr hrest]
  exact compare_settles policy c.left.text c.operator.text c.right.text (Run.rest_readTo r rest) rfl
    (SameScene.readTo r rest)

end Condition

namespace Exec

variable {table : CommandTable} {policy : WrongTypePolicy} {r : Run} {rest : List Char}

/-- A run looks the word of an `if` up and has its comparison made. -/
theorem runIf_of_conditional (hknows : table.Knows policy)
    (h : Settles { r with command := "if" } rest none { r with command := "if" }
      ((runConditional policy).run { r with command := "if" })) :
    Settles r rest none r ((runWord table "if").run r) := by
  have hlookup := hknows "if" (.conditional policy) (by simp [CommandTable.language])
  have hrun : (runWord table "if").run r = (runConditional policy).run { r with command := "if" } :=
    runWord_of_lookup hlookup rfl
  rw [hrun]
  exact ⟨h.rest, h.calls, (SameScene.command r "if").trans h.scene, h.outcome⟩

theorem runIf_settles (hknows : table.Knows policy) (c : Condition) (hr : r.rest = c.chars ++ rest)
    (hrest : StopsToken rest) :
    Settles r (if c.holds policy r then rest else Reading.skipGuarded rest) none r
      ((runWord table "if").run r) := by
  have hr' : Run.rest { r with command := "if" } = c.chars ++ rest := hr
  have hdone := Condition.runConditional_settles policy c hr' hrest
  rw [(SameScene.command r "if").holds policy c] at hdone
  exact runIf_of_conditional hknows hdone

/-- An `else` that is met stands behind a branch that was taken, and its statement is skipped. -/
theorem runElse_settles (hknows : table.Knows policy) :
    Settles r (Reading.skipStatement r.rest) none r ((runWord table "else").run r) := by
  have hlookup := hknows "else" .otherwise (by simp [CommandTable.language])
  have hrun : (runWord table "else").run r =
      (.success, Run.readTo { r with command := "else" } (Reading.skipStatement r.rest)) :=
    runWord_of_lookup hlookup rfl
  rw [hrun]
  exact ⟨Text.Place.rest_readTo r.place _, rfl, (SameScene.command r _).trans (.readTo _ _), rfl⟩

end Exec

end EntityScript
