import EntityScript.Proofs.Budget

/-! What commands leave alone. A view shows some part of a run; reading words and reporting
change no view but of the place and the journal, so each command keeps the views of all that it
does not set itself. `Command.Leaves` lists what each command sets, and what holds of one command
holds of a whole run, as `finish_spares` says. -/

namespace EntityScript

variable {α β γ : Type}

structure Silent (view : Run → γ) : Prop where
  journal : ∀ r journal, view { r with journal } = view r

/-- A view that reading on and reporting do not change. -/
structure Aside (view : Run → γ) : Prop extends Silent view where
  place : ∀ r place, view { r with place } = view r

namespace Exec

/-- The part of a run leaves what the view shows as it is. -/
def Spares (view : Run → γ) (m : Exec α) : Prop := ∀ r, view (m.run r).2 = view r

namespace Spares

variable {view : Run → γ}

theorem pure (a : α) : Spares view (pure a : Exec α) := fun _ => rfl

theorem bind {m : Exec α} {f : α → Exec β} (hm : Spares view m) (hf : ∀ a, Spares view (f a)) :
    Spares view (m >>= f) :=
  fun r => (hf _ _).trans (hm r)

theorem get_bind {f : Run → Exec β} (hf : ∀ r, view ((f r).run r).2 = view r) :
    Spares view (get >>= f) :=
  hf

theorem ite {c : Prop} [Decidable c] {m n : Exec α} (hm : Spares view m) (hn : Spares view n) :
    Spares view (if c then m else n) := by
  split
  · exact hm
  · exact hn

end Spares

section Reporting

variable {view : Run → γ} (h : Silent view)
include h

theorem report_spares (d : Diagnostic) : Spares view (report d) := fun r => h.journal r _

theorem note_spares (n : Note) : Spares view (note n) := fun r => h.journal r _

theorem systemValue_spares (name : String) : Spares view (systemValue name) := by
  refine Spares.get_bind fun r => ?_
  split
  · rfl
  · exact (report_spares h _).bind (fun _ => .pure _) r

theorem resolve_spares (word : String) (wanted : ValueType) : Spares view (resolve word wanted) := by
  unfold resolve
  split
  · exact (systemValue_spares h word).bind fun _ => .pure _
  · exact Spares.get_bind fun r => rfl

end Reporting

end Exec

theorem Silent.law {view : Run → γ} (h : Silent view) : Exec.Law fun {α} (m : Exec α) => Exec.Spares view m where
  pure := Exec.Spares.pure
  bind := Exec.Spares.bind
  report := Exec.report_spares h
  resolve := Exec.resolve_spares h

namespace Exec

section Reading

variable {view : Run → γ} (h : Aside view)
include h

theorem continueAt_spares (rest : List Char) : Spares view (continueAt rest) := fun r => h.place r _

theorem readWord_spares : Spares view readWord := by
  refine Spares.get_bind fun r => ?_
  split
  · rfl
  · exact (continueAt_spares h _).bind (fun _ => h.law.expand _) r

theorem readFlags_spares (allowed : List Char) : Spares view (readFlags allowed) := by
  refine Spares.get_bind fun r => ?_
  split
  · rfl
  · split
    · rfl
    · exact (continueAt_spares h _).bind (fun _ => h.law.collectFlags allowed _) r

theorem skipGuarded_spares : Spares view skipGuarded := Spares.get_bind fun r => continueAt_spares h _ r

end Reading

end Exec

theorem Aside.skippingLaw {view : Run → γ} (h : Aside view) :
    Exec.SkippingLaw fun {α} (m : Exec α) => Exec.Spares view m :=
  { h.law with
    readWord := Exec.readWord_spares h
    readFlags := Exec.readFlags_spares h
    skipGuarded := Exec.skipGuarded_spares h
    look := fun _ hf => Exec.Spares.get_bind fun r => hf r r }

namespace Exec

section Commands

variable {view : Run → γ} (h : Aside view)
include h

theorem skipLine_spares : Spares view skipLine := by
  refine Spares.get_bind fun r => ?_
  exact (continueAt_spares h _).bind (fun _ => .ite (.pure _) (.pure _)) r

theorem skipStatement_spares : Spares view skipStatement := Spares.get_bind fun r => continueAt_spares h _ r

theorem passOver_spares (d : Diagnostic) : Spares view (passOver d) :=
  (report_spares h.toSilent d).bind fun _ => Spares.get_bind fun r => continueAt_spares h _ r

theorem runOtherwise_spares : Spares view runOtherwise := (skipStatement_spares h).bind fun _ => .pure _

theorem runSay_spares : Spares view runSay := by
  refine Spares.get_bind fun r => (continueAt_spares h _).bind (fun _ => ?_) r
  exact (h.law.mapM h.law.expand _).bind fun _ => (note_spares h.toSilent _).bind fun _ => .pure _

theorem runProbe_spares : Spares view runProbe :=
  Spares.get_bind fun r => (note_spares h.toSilent _).bind (fun _ => .pure _) r

theorem runJump_spares (hcalls : ∀ r calls, view { r with calls } = view r) (call : Bool) :
    Spares view (runJump call) := by
  have hjump : ∀ label, Spares view (jump label call) := by
    intro label
    refine Spares.get_bind fun r => ?_
    split
    · rfl
    · rename_i position hlabel
      dsimp only
      split
      · exact h.place r _
      · split
        · rfl
        · exact (h.place { r with calls := r.calls.push r.place } _).trans (hcalls r _)
  have hleap : ∀ label, Spares view (leap label call) := by
    intro label
    refine (hjump label).bind fun result => ?_
    cases result with
    | ok => exact .pure _
    | error failure => exact h.law.abort failure
  refine (readWord_spares h).bind fun label => ?_
  cases call with
  | true => exact hleap label
  | false =>
    refine (skipLine_spares h).bind fun position => ?_
    cases position with
    | none => exact hleap label
    | some position => exact (report_spares h.toSilent _).bind fun _ => hleap label

theorem runComeBack_spares (hcalls : ∀ r calls, view { r with calls } = view r) : Spares view runComeBack := by
  have hback : Spares view comeBack := by
    refine Spares.get_bind fun r => ?_
    split
    · rfl
    · rename_i place calls hpop
      exact (h.place { r with calls } place).trans (hcalls r calls)
  refine hback.bind fun result => ?_
  cases result with
  | ok => exact .pure _
  | error failure => exact h.law.abort failure

theorem runStopwatch_spares
    (hwatch : ∀ r place w, view (r.updateLeading fun s => s.setStopwatch place w) = view r) (start : Bool) :
    Spares view (runStopwatch start) := by
  refine (readWord_spares h).bind fun word => ?_
  split
  · exact (report_spares h.toSilent _).bind fun _ => .pure _
  · exact fun r => hwatch r _ _

theorem runTimer_spares (htimers : ∀ r timers, view (r.withTimers timers) = view r) : Spares view runTimer := by
  have hmodify : ∀ change, Spares view (modifyTimers change) := fun change r => htimers r _
  have hschedule : ∀ t, Spares view (schedule t) := by
    intro t
    refine Spares.get_bind fun r => ?_
    split
    · exact (hmodify _).bind (fun _ => .pure _) r
    · exact (report_spares h.toSilent _).bind (fun _ => .pure _) r
  refine (readFlags_spares h _).bind fun flags => (readWord_spares h).bind fun word => ?_
  refine Spares.get_bind fun r => ?_
  dsimp only
  refine Spares.ite ((hmodify _).bind fun _ => .pure _) (Spares.get_bind fun r => ?_) r
  refine (hmodify _).bind (fun _ => .ite (.pure _) ?_) r
  refine (h.law.numberOf word).bind fun times => h.skippingLaw.readNumber.bind fun count => ?_
  refine (skipLine_spares h).bind fun resumeAt => ?_
  cases resumeAt with
  | none => exact (report_spares h.toSilent _).bind fun _ => .pure _
  | some resumeAt => exact Spares.get_bind fun r => hschedule _ r

theorem runSendEvent_spares (hworld : ∀ r world, view { r with world } = view r) :
    Spares view runSendEvent := by
  refine h.skippingLaw.readDispatch.bind fun d => Spares.get_bind fun r => ?_
  split
  · exact h.law.fail _ r
  · rename_i sender hsender
    rw [withSender_run, post_run]
    cases d.send r.world sender with
    | error diagnostic => exact h.law.fail diagnostic r
    | ok world => exact hworld r world

theorem runSetEvent_spares
    (hswitch : ∀ r event on, view (r.updateLeading fun s => s.switchEvent event on) = view r) :
    Spares view runSetEvent := by
  refine (readWord_spares h).bind fun name => h.skippingLaw.readSwitch.bind fun on => ?_
  split
  · exact h.law.fail _
  · exact fun r => hswitch r _ on

theorem runSetMainEvent_spares (hmain : ∀ r event, view { r with own := r.own.setMainEvent event } = view r) :
    Spares view runSetMainEvent :=
  (readWord_spares h).bind fun event r => hmain r event

theorem store_spares (hlocals : ∀ r locals, view { r with own := { r.own with locals } } = view r)
    (hglobals : ∀ r globals, view { r with shared := { r.shared with globals } } = view r)
    (name : String) (value : Value) : Spares view (store name value) := by
  refine Spares.get_bind fun r => ?_
  by_cases hl : (Namespace.of name).isLocal
  · simp only [hl, if_true]
    cases r.own.locals.assign name value with
    | ok locals => exact hlocals r locals
    | error failure => exact (note_spares h.toSilent _).bind (fun _ => .pure _) r
  · simp only [hl]
    cases r.shared.globals.assign name value with
    | ok globals => exact hglobals r globals
    | error failure => exact (note_spares h.toSilent _).bind (fun _ => .pure _) r

end Commands

end Exec

def Command.Leaves (view : Run → γ) : Command → Prop
  | jump _ | comeBack => ∀ r calls, view { r with calls } = view r
  | random => ∀ r random, view { r with shared := { r.shared with random } } = view r
  | setMainEvent => ∀ r event, view { r with own := r.own.setMainEvent event } = view r
  | stopwatch _ => ∀ r place w, view (r.updateLeading fun s => s.setStopwatch place w) = view r
  | timer => ∀ r timers, view (r.withTimers timers) = view r
  | sendEvent => ∀ r world, view { r with world } = view r
  | setEvent => ∀ r event on, view (r.updateLeading fun s => s.switchEvent event on) = view r
  | assign | add => (∀ r locals, view { r with own := { r.own with locals } } = view r) ∧
      ∀ r globals, view { r with shared := { r.shared with globals } } = view r
  | nop | stop _ | conditional _ | otherwise | say | probe => True

namespace Exec

variable {view : Run → γ}

/-- A command keeps the views of what it does not set. -/
theorem execute_spares (h : Aside view) {command : Command} (hleaves : command.Leaves view) :
    Spares view command.execute := by
  cases command with
  | nop | stop => exact .pure _
  | jump call => exact runJump_spares h hleaves call
  | random => exact h.skippingLaw.runRandom fun r => hleaves r _
  | comeBack => exact runComeBack_spares h hleaves
  | setMainEvent => exact runSetMainEvent_spares h hleaves
  | stopwatch start => exact runStopwatch_spares h hleaves start
  | timer => exact runTimer_spares h hleaves
  | sendEvent => exact runSendEvent_spares h hleaves
  | setEvent => exact runSetEvent_spares h hleaves
  | conditional policy => exact h.skippingLaw.runConditional policy
  | otherwise => exact runOtherwise_spares h
  | say => exact runSay_spares h
  | assign => exact h.skippingLaw.runAssign (store_spares h hleaves.1 hleaves.2)
  | add => exact h.skippingLaw.runAdd (store_spares h hleaves.1 hleaves.2)
  | probe => exact runProbe_spares h

/-- Nor does a command word change what its command does not set. -/
theorem runWord_spares (h : Aside view) (hcommand : ∀ r command, view { r with command } = view r)
    {table : CommandTable} {word : String}
    (hleaves : ∀ name command, table.lookup word = some (name, command) → command.Leaves view) :
    Spares view (runWord table word) := by
  intro r
  rw [runWord_run]
  split
  · exact passOver_spares h _ r
  · rename_i name command hlookup
    split
    · exact passOver_spares h _ r
    · exact (execute_spares h (hleaves name command hlookup) _).trans (hcommand r word)

end Exec

namespace Loop

variable {view : Run → γ} {table : CommandTable}

theorem Runs.spares (h : Aside view) {limit left : Nat} {l : Loop} {words : List String}
    {result : Outcome × Run} (hruns : Runs table limit left l words result)
    (hwords : ∀ word ∈ words, Exec.Spares view (Exec.runWord table word)) : view result.2 = view l.run := by
  have hread : ∀ (l : Loop) rest, view (l.run.readTo rest) = view l.run := fun l rest => h.place l.run _
  have hcarried : ∀ {l next : Loop} {word rest outcome}, Exec.Spares view (Exec.runWord table word) →
      l.carryOut table word rest = (outcome, next) → view next.run = view l.run := by
    intro l next word rest outcome hword hcarry
    cases hcarry
    exact (hword _).trans (hread l rest)
  induction hruns with
  | ended => exact hread _ _
  | passed hturn _ ih =>
    rw [run_of_passed hturn] at ih
    exact (ih hwords).trans (hread _ _)
  | spent => exact (h.law.abort _ _).trans (hread _ _)
  | stopped _ hcarry => exact hcarried (hwords _ List.mem_cons_self) hcarry
  | carried _ hcarry _ _ ih =>
    rw [List.forall_mem_cons] at hwords
    exact (ih hwords.2).trans (hcarried hwords.1 hcarry)

/-- A run keeps the views of what no command of its table sets. -/
theorem finish_spares (h : Aside view) (hcommand : ∀ r command, view { r with command } = view r)
    (hleaves : ∀ word name command, table.lookup word = some (name, command) → command.Leaves view)
    (limit left : Nat) (l : Loop) : view (l.finish table limit left).2 = view l.run := by
  obtain ⟨words, hruns, -⟩ := runs_finish table limit left l
  exact hruns.spares h fun word _ => Exec.runWord_spares h hcommand (hleaves word)

end Loop

def Run.timers (r : Run) : TimerPool := r.shared.timers

theorem timers_aside : Aside Run.timers := ⟨⟨fun _ _ => rfl⟩, fun _ _ => rfl⟩

/-- Changing the panel that counts changes no view of anything but the states. -/
theorem Run.view_updateLeading {view : Run → γ} (h : ∀ r own master, view { r with own, master } = view r)
    (r : Run) (change : ScriptState → ScriptState) : view (r.updateLeading change) = view r := by
  unfold updateLeading
  split
  · exact h r r.own _
  · exact h r _ r.master

/-- No command but `timer` touches the pool. -/
theorem Exec.execute_sparesTimers {command : Command} (h : command ≠ .timer) :
    Spares Run.timers command.execute := by
  refine execute_spares timers_aside ?_
  cases command with
  | timer => exact absurd rfl h
  | stopwatch | setEvent => exact fun r _ _ => r.view_updateLeading (fun _ _ _ => rfl) _
  | assign | add => exact ⟨fun _ _ => rfl, fun _ _ => rfl⟩
  | nop | stop | conditional | otherwise | say | probe => trivial
  | _ => exact fun _ _ => rfl

end EntityScript
