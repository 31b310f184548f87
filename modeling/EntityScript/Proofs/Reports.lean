import EntityScript.Proofs.Budget
import EntityScript.Proofs.Keywords
import EntityScript.Session
import Mathlib.Data.List.Basic

/-! No failure is silent. What was reported stays in the journal, so a command that fails need only report
why before it answers. A run reports every word that it cannot carry out, one after another, and when it
ends by an error, the last word that it meets has reported one. -/

namespace EntityScript

open Relation

namespace Run

def diagnostics (r : Run) : List Diagnostic := r.journal.diagnostics.toList

/-- The diagnostic is reported on the way from `r` to `s`. -/
def Reports (r s : Run) (d : Diagnostic) : Prop := ∃ new, s.diagnostics = r.diagnostics ++ new ∧ d ∈ new

structure Explains (r : Run) (done : Outcome × Run) : Prop where
  failed : done.1 = .failed → ∃ d, r.Reports done.2 d
  aborted : done.1 = .abortError → ∃ d, r.Reports done.2 d ∧ d.severity = .error

variable {r s t : Run} {d : Diagnostic} {done : Outcome × Run}

theorem Reports.earlier (h : s.Reports t d) (hr : r.diagnostics <+: s.diagnostics) : r.Reports t d := by
  obtain ⟨mid, hmid⟩ := hr
  obtain ⟨new, hnew, hd⟩ := h
  refine ⟨mid ++ new, ?_, List.mem_append_right _ hd⟩
  rw [hnew, ← hmid, List.append_assoc]

theorem Reports.later (h : r.Reports s d) (ht : s.diagnostics <+: t.diagnostics) : r.Reports t d := by
  obtain ⟨new, hnew, hd⟩ := h
  obtain ⟨more, hmore⟩ := ht
  refine ⟨new ++ more, ?_, List.mem_append_left _ hd⟩
  rw [← hmore, hnew, List.append_assoc]

theorem Explains.earlier (h : s.Explains done) (hr : r.diagnostics <+: s.diagnostics) : r.Explains done where
  failed hfailed := (h.failed hfailed).imp fun _ hd => hd.earlier hr
  aborted haborted := (h.aborted haborted).imp fun _ hd => ⟨hd.1.earlier hr, hd.2⟩

/-- Other outcomes need no report. -/
theorem Explains.of_outcome {outcome : Outcome} (hfailed : outcome ≠ .failed) (haborted : outcome ≠ .abortError)
    (s : Run) : r.Explains (outcome, s) :=
  ⟨fun h => absurd h hfailed, fun h => absurd h haborted⟩

theorem Explains.of_success (s : Run) : r.Explains (.success, s) := .of_outcome (by decide) (by decide) s

end Run

theorem Change.grows {r s : Run} (h : Change r s) : r.diagnostics <+: s.diagnostics := by
  cases h with
  | reported d => exact ⟨[d], by simp [Run.diagnostics]⟩
  | stopwatch | switched => unfold Run.updateLeading; split <;> exact List.prefix_refl _
  | _ => exact List.prefix_refl _

theorem grows_of_changes {r s : Run} (h : ReflTransGen Change r s) : r.diagnostics <+: s.diagnostics := by
  induction h with
  | refl => exact List.prefix_refl _
  | tail _ hc ih => exact ih.trans hc.grows

theorem Skip.diagnostics_eq {r s : Run} (h : Skip r s) : s.diagnostics = r.diagnostics := by
  cases h <;> rfl

namespace Exec

variable {α : Type}

def Grows (m : Exec α) : Prop := ∀ r, r.diagnostics <+: (m.run r).2.diagnostics

theorem Gradual.grows {m : Exec α} (h : Gradual m) : Grows m := fun r => grows_of_changes (h r)

theorem grows_get : Grows get := fun _ => List.prefix_refl _

theorem grows_modify {g : Run → Run} (h : ∀ r, (g r).journal = r.journal) : Grows (modify g) := by
  intro r
  have hg : Run.diagnostics (g r) = r.diagnostics := congrArg (·.diagnostics.toList) (h r)
  exact hg ▸ List.prefix_refl _

def Vocal (m : Exec Outcome) : Prop := ∀ r : Run, r.Explains (m.run r)

namespace Vocal

theorem pure {outcome : Outcome} (hfailed : outcome ≠ .failed) (haborted : outcome ≠ .abortError) :
    Vocal (pure outcome) := fun r => .of_outcome hfailed haborted r

/-- What is done last answers. -/
theorem bind {m : Exec α} {f : α → Exec Outcome} (hm : Grows m) (hf : ∀ a, Vocal (f a)) : Vocal (m >>= f) :=
  fun r => (hf (m.run r).1 (m.run r).2).earlier (hm r)

theorem success {m : Exec α} : Vocal (m >>= fun _ => Pure.pure .success) := fun r => .of_success (m.run r).2

theorem ite {c : Prop} [Decidable c] {m n : Exec Outcome} (hm : Vocal m) (hn : Vocal n) :
    Vocal (if c then m else n) := by
  split
  · exact hm
  · exact hn

/-- A report explains whatever follows it, if errors are reported as errors. -/
theorem report (d : Diagnostic) {m : Exec Outcome} (hm : Grows m)
    (haborted : ∀ r, (m.run r).1 = .abortError → d.severity = .error) : Vocal (Exec.report d >>= fun _ => m) := by
  intro r
  have hsaid : r.Reports ((Exec.report d).run r).2 d := ⟨[d], Array.toList_push, List.mem_singleton_self d⟩
  have hlast := hsaid.later (hm ((Exec.report d).run r).2)
  exact ⟨fun _ => ⟨d, hlast⟩, fun h => ⟨d, hlast, haborted _ h⟩⟩

end Vocal

theorem fail_vocal (d : Diagnostic) : Vocal (fail d) := .report d (Gradual.pure _).grows fun _ h => by cases h

theorem abort_vocal (failure : Failure) : Vocal (abort failure) :=
  .report (.failed failure) (Gradual.pure _).grows fun _ _ => rfl

theorem passOver_vocal (d : Diagnostic) : Vocal (passOver d) :=
  .report d (fun _ => List.prefix_refl _) fun _ h => by cases h

theorem refuse_vocal (d : Diagnostic) : Vocal (refuse d) :=
  .report d (fun _ => List.prefix_refl _) fun _ h => by cases h

theorem leap_vocal (label : String) (call : Bool) : Vocal (leap label call) := by
  intro r
  rw [leap_run]
  cases r.script.findLabel? label with
  | none => exact abort_vocal _ r
  | some position =>
    dsimp only
    split
    · exact .of_outcome (by decide) (by decide) _
    · split
      · exact abort_vocal _ r
      · exact .of_outcome (by decide) (by decide) _

theorem runJump_vocal (call : Bool) : Vocal (runJump call) := by
  refine .bind readWord_gradual.grows fun label => ?_
  cases call with
  | true => exact leap_vocal label true
  | false =>
    refine .bind skipLine_gradual.grows fun text => ?_
    split
    · exact .bind (report_gradual _).grows fun _ => leap_vocal label false
    · exact leap_vocal label false

theorem runComeBack_vocal : Vocal runComeBack := by
  intro r
  rw [runComeBack, StateT.run_bind, comeBack_run]
  cases r.calls.pop? with
  | none => exact abort_vocal _ r
  | some top => exact .of_success _

theorem runRandom_vocal : Vocal runRandom :=
  .bind Gradual.readingLaw.readNumber.grows fun _ => .bind (fun _ => List.prefix_refl _) fun _ =>
    .ite .success (.pure (by decide) (by decide))

theorem runStopwatch_vocal (start : Bool) : Vocal (runStopwatch start) := by
  refine .bind readWord_gradual.grows fun word => ?_
  split
  · exact fail_vocal _
  · exact .success

theorem schedule_vocal (t : Timer) : Vocal (schedule t) := by
  refine .bind grows_get fun r => ?_
  split
  · exact .success
  · exact fail_vocal _

theorem runTimer_vocal : Vocal runTimer := by
  refine .bind (readFlags_gradual _).grows fun flags => .bind readWord_gradual.grows fun word => ?_
  refine .bind grows_get fun r => .ite .success (.bind grows_get fun s => ?_)
  refine .bind (grows_modify fun _ => rfl) fun _ => .ite (.pure (by decide) (by decide)) ?_
  refine .bind (Gradual.law.numberOf word).grows fun times => .bind Gradual.readingLaw.readNumber.grows fun count => ?_
  refine .bind skipLine_gradual.grows fun resumeAt => ?_
  split
  · exact fail_vocal _
  · exact .bind grows_get fun _ => schedule_vocal _

theorem post_vocal (d : Dispatch) (sender : Entity) : Vocal (post d sender) := by
  refine .bind grows_get fun r => ?_
  split
  · exact fail_vocal _
  · exact .success

theorem runSendEvent_vocal : Vocal runSendEvent := by
  refine .bind Gradual.readingLaw.readDispatch.grows fun d => .bind grows_get fun r => ?_
  split
  · exact fail_vocal _
  · -- the sender is no part of what was reported
    rename_i sender _
    intro s
    rw [withSender_run]
    obtain ⟨hfailed, haborted⟩ := post_vocal d sender { s with sender := some sender.id }
    exact ⟨hfailed, haborted⟩

theorem runSetEvent_vocal : Vocal runSetEvent := by
  refine .bind readWord_gradual.grows fun name => .bind Gradual.readingLaw.readSwitch.grows fun on => ?_
  split
  · exact fail_vocal _
  · exact .success

theorem runConditional_vocal (policy : WrongTypePolicy) : Vocal (runConditional policy) := by
  refine .bind readWord_gradual.grows fun left => .bind readWord_gradual.grows fun name => ?_
  refine .bind readWord_gradual.grows fun right => ?_
  split
  · exact refuse_vocal _
  · refine .bind (resolve_gradual _ _).grows fun l => .bind (resolve_gradual _ _).grows fun r => ?_
    refine .ite (refuse_vocal _) (.bind grows_get fun run => .bind (Gradual.law.forM report_gradual _).grows fun _ => ?_)
    exact .ite .success (.pure (by decide) (by decide))

end Exec

/-- The command may fail without a report: those that store values only take note of it. -/
def Command.silent : Command → Bool
  | .assign | .add => true
  | .stop outcome => outcome = .failed || outcome = .abortError
  | _ => false

namespace Exec

theorem execute_vocal {command : Command} (h : command.silent = false) : Vocal command.execute := by
  cases command with
  | nop => exact .pure (by decide) (by decide)
  | jump call => exact runJump_vocal call
  | stop outcome =>
    rw [Command.silent, Bool.or_eq_false_iff, decide_eq_false_iff_not, decide_eq_false_iff_not] at h
    exact .pure h.1 h.2
  | random => exact runRandom_vocal
  | comeBack => exact runComeBack_vocal
  | setMainEvent => exact .bind readWord_gradual.grows fun _ => .success
  | stopwatch start => exact runStopwatch_vocal start
  | timer => exact runTimer_vocal
  | sendEvent => exact runSendEvent_vocal
  | setEvent => exact runSetEvent_vocal
  | conditional policy => exact runConditional_vocal policy
  | otherwise => exact .success
  | say => exact fun r => .of_success (runSay.run r).2
  | assign | add => cases h
  | probe => exact fun r => .of_success (runProbe.run r).2

end Exec

theorem CommandTable.not_silent_of_mem_language {policy : WrongTypePolicy} {name : String} {command : Command}
    (h : (name, command) ∈ language policy) : command.silent = false := by
  have hall : ∀ x ∈ language policy, x.2.silent = false := by
    cases policy <;> decide
  exact hall _ h

/-- What is reported about a word that is not carried out. -/
def CommandTable.objection? (table : CommandTable) (owner : Option EntityId) (word : String) : Option Diagnostic :=
  match table.lookup word with
  | none => some (.unknownCommand word)
  | some (_, command) => if command.needsEntity && owner.isNone then some .entityNeeded else none

theorem CommandTable.severity_of_objection {table : CommandTable} {owner : Option EntityId} {word : String}
    {d : Diagnostic} (h : table.objection? owner word = some d) : d.severity = .warning := by
  unfold objection? at h
  split at h
  · cases h
    rfl
  · split at h
    · cases h
      rfl
    · cases h

namespace Exec

variable {table : CommandTable} {word : String} {r s : Run} {outcome : Outcome} {d : Diagnostic}

theorem Effect.grows (h : Effect table word r outcome s) : r.diagnostics <+: s.diagnostics := by
  have hread : r.diagnostics <+: (readLabel word r).2.diagnostics :=
    readWord_gradual.grows { r with command := word }
  cases h with
  | passedOver _ h => exact grows_of_changes h
  | small _ _ _ h hskip =>
    have hgrown := grows_of_changes h
    rw [hskip.diagnostics_eq]
    exact hgrown
  | went _ _ h =>
    have hgrown := grows_of_changes h
    exact hread.trans hgrown
  | called => exact hread
  | returned => exact List.prefix_refl _
  | refused _ _ h => exact hread.trans (grows_of_changes h)
  | stuck _ _ h =>
    have hgrown := grows_of_changes h
    exact hgrown

theorem runWord_vocal (hloud : ∀ name command, table.lookup word = some (name, command) → command.silent = false) :
    Vocal (runWord table word) := by
  intro r
  rw [runWord_run]
  split
  · exact passOver_vocal _ r
  · rename_i name command hlookup
    split
    · exact passOver_vocal _ r
    · have hexplains := execute_vocal (hloud name command hlookup) { r with command := word }
      exact hexplains.earlier (List.prefix_refl _)

/-- A word that is not carried out is reported. -/
theorem runWord_reports (h : table.objection? r.owner word = some d) :
    r.Reports ((runWord table word).run r).2 d := by
  have hover : (runWord table word).run r = (passOver d).run r := by
    rw [runWord_run]
    unfold CommandTable.objection? at h
    cases hlookup : table.lookup word with
    | none =>
      rw [hlookup] at h
      cases h
      rfl
    | some found =>
      rw [hlookup] at h
      dsimp only at h ⊢
      split at h
      · rename_i hneeds
        cases h
        rw [if_pos hneeds]
      · cases h
  rw [hover]
  exact ⟨[d], Array.toList_push, List.mem_singleton_self d⟩

end Exec

namespace Loop

variable {table : CommandTable} {limit left : Nat} {l next : Loop} {word : String} {rest : List Char}
  {outcome : Outcome} {words : List String} {result : Outcome × Run}

/-- Carrying out a word reports at least what there is to object to it. -/
theorem reports_of_carryOut (h : l.carryOut table word rest = (outcome, next)) :
    ∃ new, next.run.diagnostics = l.run.diagnostics ++ new ∧
      (table.objection? l.run.owner word).toList.Sublist new := by
  cases hobjection : table.objection? l.run.owner word with
  | none =>
    obtain ⟨new, hnew⟩ := (effect_of_carryOut h).grows
    exact ⟨new, hnew.symm, List.nil_sublist new⟩
  | some d =>
    have hreports := Exec.runWord_reports (r := l.run.readTo rest) hobjection
    rw [← carryOut_run, h] at hreports
    obtain ⟨new, hnew, hd⟩ := hreports
    exact ⟨new, hnew, List.singleton_sublist.2 hd⟩

/-- Of the words that a run carries out or passes over, it reports one after another those that it passes over. -/
theorem Runs.reports (h : Runs table limit left l words result) :
    ∃ new, result.2.diagnostics = l.run.diagnostics ++ new ∧
      (words.filterMap (table.objection? l.run.owner)).Sublist new := by
  rw [List.filterMap_eq_flatMap_toList]
  induction h with
  | ended => exact ⟨[], (List.append_nil _).symm, List.Sublist.refl _⟩
  | passed hturn _ ih =>
    rw [run_of_passed hturn] at ih
    exact ih
  | spent => exact ⟨[_], Array.toList_push, List.nil_sublist _⟩
  | stopped _ hcarry =>
    rw [List.flatMap_singleton]
    exact reports_of_carryOut hcarry
  | carried _ hcarry _ _ ih =>
    obtain ⟨new, hnew, hsub⟩ := reports_of_carryOut hcarry
    obtain ⟨later, hlater, hrest⟩ := ih
    rw [(effect_of_carryOut hcarry).keeps.owner] at hrest
    refine ⟨new ++ later, ?_, hsub.append hrest⟩
    rw [hlater, hnew, List.append_assoc]

/-- The run ends by the word that it meets: it has no step left for the word, or the command stops it. -/
inductive EndsBy (table : CommandTable) (limit : Nat) (l : Loop) : Outcome × Run → Prop
  | spent {word : String} {rest : List Char} (h : l.turn = .met word rest) :
    EndsBy table limit l ((Exec.abort (.outOfSteps limit)).run (l.run.readTo rest))
  | stopped {word : String} {rest : List Char} {outcome : Outcome} {next : Loop} (h : l.turn = .met word rest)
    (hcarry : l.carryOut table word rest = (outcome, next)) (hstop : outcome.isAbort = true) :
    EndsBy table limit l (outcome, next.run)

/-- A run that does not succeed ends by a word. -/
theorem Runs.endsBy (h : Runs table limit left l words result) :
    result.1 = .success ∨ ∃ m, Reaches table l m ∧ m.EndsBy table limit result := by
  induction h with
  | ended => exact .inl rfl
  | passed hturn _ ih => exact ih.imp_right fun ⟨m, hreach, hends⟩ => ⟨m, .head (.passed hturn) hreach, hends⟩
  | spent hmet => exact .inr ⟨_, .refl, .spent hmet⟩
  | stopped hmet hcarry hstop => exact .inr ⟨_, .refl, .stopped hmet hcarry hstop⟩
  | carried hmet hcarry hgo _ ih =>
    exact ih.imp_right fun ⟨m, hreach, hends⟩ => ⟨m, .head (.carried hmet hcarry hgo) hreach, hends⟩

theorem EndsBy.isAbort (h : l.EndsBy table limit result) : result.1.isAbort = true := by
  cases h with
  | spent => rfl
  | stopped _ _ hstop => exact hstop

/-- The failure by which a run ends is reported from its last word on. -/
theorem EndsBy.explains
    (hloud : ∀ word name command, table.lookup word = some (name, command) → command.silent = false)
    (h : l.EndsBy table limit result) : l.run.Explains result := by
  cases h with
  | @spent word rest =>
    have hexplains := Exec.abort_vocal (.outOfSteps limit) (l.run.readTo rest)
    exact hexplains.earlier (List.prefix_refl _)
  | @stopped word rest outcome next _ hcarry =>
    have hexplains := Exec.runWord_vocal (hloud word) (l.run.readTo rest)
    have hdone : ((l.carryOut table word rest).1, (l.carryOut table word rest).2.run) =
        (Exec.runWord table word).run (l.run.readTo rest) := rfl
    rw [← hdone, hcarry] at hexplains
    exact hexplains.earlier (List.prefix_refl _)

end Loop

theorem CommandTable.not_silent_of_lookup {policy : WrongTypePolicy} (word name : String) (command : Command)
    (h : (builtin policy).lookup word = some (name, command)) : command.silent = false :=
  not_silent_of_mem_language (mem_language_of_lookup h)

/-- Only single statements fail, and runs go on behind them. -/
theorem Exec.runAll_ne_failed (table : CommandTable) (maxSteps : Nat) (mode : Mode) (r : Run) :
    ((runAll table maxSteps mode).run r).1 ≠ .failed := by
  rw [Loop.runAll_eq_finish]
  obtain ⟨words, hruns, -⟩ := Loop.runs_finish table maxSteps maxSteps { run := r, mode }
  intro hfailed
  rcases hruns.endsBy with hsuccess | ⟨m, -, hends⟩
  · cases hfailed.symm.trans hsuccess
  · have habort := hends.isAbort
    rw [hfailed] at habort
    cases habort

/-- Sending an event fails for want of a script only, and says so. -/
theorem Session.of_sendEvent_failed {s : Session} {owner : Option EntityId} {event params : String}
    (h : (s.sendEvent owner event params).1 = .failed) :
    (s.sendEvent owner event params).2 = s.report (.noScriptForEvent (Text.lowercase event)) := by
  unfold sendEvent at h ⊢
  dsimp only at h ⊢
  split at h
  · rfl
  · split at h
    · cases h
    · split at h
      · cases h
      · exact absurd h (Exec.runAll_ne_failed _ _ _ _)

/-- No failure is silent. A command of the language that fails reports it, and one that ends the run by an
error reports an error. A run warns, one after another, of the words that it takes a step for and cannot carry
out; and if it ends by an error, one was reported from the last word on that it met, also where it had no step
left for the word. An event that could not be sent was warned of. -/
theorem failures_are_reported (policy : WrongTypePolicy) :
    (∀ name command, (name, command) ∈ CommandTable.language policy →
      ∀ r : Run, r.Explains (command.execute.run r)) ∧
    (∀ (r : Run) (maxSteps : Nat) (mode : Mode), let done := (Exec.runAll (.builtin policy) maxSteps mode).run r
      (∃ words new, Loop.Runs (.builtin policy) maxSteps maxSteps { run := r, mode } words done ∧
        done.2.diagnostics = r.diagnostics ++ new ∧
        (words.filterMap ((CommandTable.builtin policy).objection? r.owner)).Sublist new) ∧
      (done.1 = .abortError → ∃ l d, Loop.Reaches (.builtin policy) { run := r, mode } l ∧
        l.EndsBy (.builtin policy) maxSteps done ∧ l.run.Reports done.2 d ∧ d.severity = .error)) ∧
    (∀ owner word d, (CommandTable.builtin policy).objection? owner word = some d → d.severity = .warning) ∧
    ∀ (s : Session) (owner : Option EntityId) (event params : String),
      (s.sendEvent owner event params).1 = .failed →
        ∃ d, d.severity = .warning ∧ (s.sendEvent owner event params).2 = s.report d := by
  refine ⟨?commands, ?runs, fun owner word d => CommandTable.severity_of_objection, ?events⟩
  case commands =>
    exact fun name command h => Exec.execute_vocal (CommandTable.not_silent_of_mem_language h)
  case runs =>
    intro r maxSteps mode
    obtain ⟨words, hruns, -⟩ := Loop.runs_finish (.builtin policy) maxSteps maxSteps { run := r, mode }
    obtain ⟨new, hnew, hsub⟩ := hruns.reports
    refine ⟨⟨words, new, hruns, hnew, hsub⟩, fun haborted => ?_⟩
    rcases hruns.endsBy with hsuccess | ⟨l, hreach, hends⟩
    · cases haborted.symm.trans hsuccess
    · obtain ⟨d, hreports, hsevere⟩ := (hends.explains CommandTable.not_silent_of_lookup).aborted haborted
      exact ⟨l, d, hreach, hends, hreports, hsevere⟩
  case events =>
    exact fun s owner event params h => ⟨_, rfl, Session.of_sendEvent_failed h⟩

def muddled : String := "bogus\nsetstatus idle\nreturn\n"

def muddler : Run where
  script := .ofText "muddler" muddled
  place := { rest := muddled.toList }
  own := .fresh 0
  shared := { globals := .withCapacity 0, timers := .withCapacity 0, random := .ofSeed 0, maxCallDepth := 1 }
  world := {}
  owner := none
  sender := none

theorem failures_are_reported_muddler :
    let done := (Exec.runAll (.builtin .legacy) 9 .block).run muddler
    done.2.diagnostics = [.unknownCommand "bogus", .entityNeeded, .failed .nothingToReturnTo] ∧
      ∃ l d, Loop.Reaches (.builtin .legacy) { run := muddler, mode := .block } l ∧
        l.EndsBy (.builtin .legacy) 9 done ∧ l.run.Reports done.2 d ∧ d.severity = .error := by
  have hdone : (((Exec.runAll (.builtin .legacy) 9 .block).run muddler).1,
      ((Exec.runAll (.builtin .legacy) 9 .block).run muddler).2.diagnostics) =
        (.abortError, [.unknownCommand "bogus", .entityNeeded, .failed .nothingToReturnTo]) := by decide +kernel
  obtain ⟨haborted, hreports⟩ := Prod.mk.inj hdone
  exact ⟨hreports, ((failures_are_reported .legacy).2.1 muddler 9 .block).2 haborted⟩

end EntityScript
