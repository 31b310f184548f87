import EntityScript.Proofs.Budget
import EntityScript.Proofs.Room

/-! Runs with more room. A part of a run that reports no limit does the same when all limits leave more
room, and the run after it is again the same one with more room. This is shown for what commands are made
of, then for every command, and by the turns of the loop for whole runs. -/

namespace EntityScript

open Relation

variable {α β : Type}

namespace Exec

/-- With more room, `m'` does in the run what `m` does, if `m` reports no limit. -/
def WidensAt (w : Room) (r : Run) (m m' : Exec α) : Prop :=
  (m.run r).2.journal.Unlimited →
    r.journal.Unlimited ∧ m'.run (r.widen w) = ((m.run r).1, (m.run r).2.widen w)

/-- With more room, the part of a run does the same, if it reports no limit. -/
def Widens (w : Room) (m : Exec α) : Prop := ∀ r, WidensAt w r m m

variable {w : Room}

theorem WidensAt.bind {r : Run} {m m' : Exec α} {f f' : α → Exec β} (hm : WidensAt w r m m')
    (hf : WidensAt w (m.run r).2 (f (m.run r).1) (f' (m.run r).1)) : WidensAt w r (m >>= f) (m' >>= f') := by
  intro h
  obtain ⟨hmid, hlast⟩ := hf h
  obtain ⟨hr, hfirst⟩ := hm hmid
  refine ⟨hr, ?_⟩
  rw [StateT.run_bind, hfirst]
  exact hlast

namespace Widens

theorem pure (a : α) : Widens w (pure a : Exec α) := fun _ h => ⟨h, rfl⟩

theorem bind {m : Exec α} {f : α → Exec β} (hm : Widens w m) (hf : ∀ a, Widens w (f a)) : Widens w (m >>= f) :=
  fun r => (hm r).bind (hf _ _)

/-- What is looked at is the same with more room. -/
theorem get_bind {f : Run → Exec β} (hsame : ∀ r, f (r.widen w) = f r) (hf : ∀ r, Widens w (f r)) :
    Widens w (get >>= f) := by
  intro r h
  change _ ∧ (f (r.widen w)).run (r.widen w) = _
  rw [hsame]
  exact hf r r h

theorem get_bind_at {f : Run → Exec β} (hf : ∀ r, WidensAt w r (f r) (f (r.widen w))) : Widens w (get >>= f) := hf

theorem modify {g : Run → Run} (hjournal : ∀ r, (g r).journal = r.journal)
    (h : ∀ r, g (r.widen w) = (g r).widen w) : Widens w (modify g) := by
  intro r hlast
  have hj : (g r).journal.Unlimited := hlast
  rw [hjournal] at hj
  exact ⟨hj, congrArg (Prod.mk PUnit.unit) (h r)⟩

theorem ite {c : Prop} [Decidable c] {m n : Exec α} (hm : Widens w m) (hn : Widens w n) :
    Widens w (if c then m else n) := by
  split
  · exact hm
  · exact hn

end Widens

theorem report_widensAt {d : Diagnostic} (r : Run) : WidensAt w r (report d) (report d) :=
  fun h => ⟨(Journal.unlimited_report.1 h).1, rfl⟩

theorem report_widens (d : Diagnostic) : Widens w (report d) := fun r => report_widensAt r

theorem note_widens (n : Note) : Widens w (note n) := fun _ h => ⟨(Journal.unlimited_note.1 h).1, rfl⟩

theorem systemValue_widens (name : String) : Widens w (systemValue name) := by
  refine Widens.get_bind (fun r => ?_) fun r => ?_
  · rw [r.systemValue?_widen]
  · split
    · exact .pure _
    · exact (report_widens _).bind fun _ => .pure _

theorem resolve_widens (word : String) (wanted : ValueType) : Widens w (resolve word wanted) := by
  unfold resolve
  split
  · exact (systemValue_widens word).bind fun _ => .pure _
  · exact .get_bind (fun r => rfl) fun _ => .pure _

theorem Widens.law : Law fun {α} (m : Exec α) => Widens w m where
  pure := Widens.pure
  bind := Widens.bind
  report := report_widens
  resolve := resolve_widens

theorem continueAt_widens (rest : List Char) : Widens w (continueAt rest) := .modify (fun _ => rfl) fun _ => rfl

theorem readWord_widens : Widens w readWord := by
  refine .get_bind (fun _ => rfl) fun r => ?_
  split
  · exact .pure _
  · exact (continueAt_widens _).bind fun _ => Widens.law.expand _

theorem readFlags_widens (allowed : List Char) : Widens w (readFlags allowed) := by
  refine .get_bind (fun _ => rfl) fun r => ?_
  split
  · exact .pure _
  · split
    · exact .pure _
    · exact (continueAt_widens _).bind fun _ => Widens.law.collectFlags allowed _

theorem skipGuarded_widens : Widens w skipGuarded := .get_bind (fun _ => rfl) fun _ => continueAt_widens _

theorem Widens.skippingLaw : SkippingLaw fun {α} (m : Exec α) => Widens w m :=
  { Widens.law with
    readWord := readWord_widens
    readFlags := readFlags_widens
    skipGuarded := skipGuarded_widens
    look := fun hsame hf => .get_bind (fun _ => hsame _ _ rfl rfl) hf }

theorem skipLine_widens : Widens w skipLine :=
  .get_bind (fun _ => rfl) fun _ => (continueAt_widens _).bind fun _ => .ite (.pure _) (.pure _)

theorem skipStatement_widens : Widens w skipStatement := .get_bind (fun _ => rfl) fun _ => continueAt_widens _

theorem passOver_widens (d : Diagnostic) : Widens w (passOver d) :=
  (report_widens d).bind fun _ => .get_bind (fun _ => rfl) fun _ => (continueAt_widens _).bind fun _ => .pure _

theorem runOtherwise_widens : Widens w runOtherwise := skipStatement_widens.bind fun _ => .pure _

theorem runSay_widens : Widens w runSay :=
  .get_bind (fun _ => rfl) fun _ => (continueAt_widens _).bind fun _ =>
    (Widens.law.mapM Widens.law.expand _).bind fun _ => (note_widens _).bind fun _ => .pure _

theorem runProbe_widens : Widens w runProbe :=
  .get_bind (fun _ => rfl) fun _ => (note_widens _).bind fun _ => .pure _

/-- There is room for a call where there was less. -/
theorem leap_widens (label : String) (call : Bool) : Widens w (leap label call) := by
  intro r h
  have hrun := leap_run label call r
  have hwide := leap_run label call (r.widen w)
  have hscript : (r.widen w).script = r.script := rfl
  rw [hscript] at hwide
  cases hlabel : r.script.findLabel? label with
  | none =>
    rw [hlabel] at hrun hwide
    rw [hrun] at h
    rw [hwide, hrun]
    exact Widens.law.abort _ r h
  | some position =>
    rw [hlabel] at hrun hwide
    dsimp only at hrun hwide
    cases call with
    | false =>
      rw [hrun] at h
      rw [hwide, hrun]
      exact ⟨h, rfl⟩
    | true =>
      rw [if_neg (by decide)] at hrun hwide
      -- a stack that is full is reported; one that is not has room for the call either way
      by_cases hfull : r.shared.maxCallDepth ≤ r.callDepth
      · rw [hrun, if_pos hfull] at h
        exact absurd trivial (Journal.unlimited_report.1 h).2
      · have hroom : ¬r.shared.maxCallDepth + w.calls ≤ r.callDepth := by omega
        rw [if_neg hfull] at hrun
        rw [hwide, hrun]
        rw [hrun] at h
        exact ⟨h, if_neg hroom⟩

theorem runJump_widens (call : Bool) : Widens w (runJump call) := by
  refine readWord_widens.bind fun label => ?_
  cases call with
  | true => exact leap_widens label true
  | false =>
    refine skipLine_widens.bind fun position => ?_
    cases position with
    | none => exact leap_widens label false
    | some position => exact (report_widens _).bind fun _ => leap_widens label false

theorem runComeBack_run (r : Run) :
    runComeBack.run r =
      match r.calls.pop? with
      | none => (abort .nothingToReturnTo).run r
      | some (place, calls) => (.success, { r with place, calls }) := by
  rw [runComeBack, StateT.run_bind, comeBack_run]
  cases r.calls.pop? <;> rfl

theorem runComeBack_widens : Widens w runComeBack := by
  intro r h
  have hcalls : (r.widen w).calls = r.calls := rfl
  rw [runComeBack_run] at h
  rw [runComeBack_run, runComeBack_run, hcalls]
  cases hpop : r.calls.pop? with
  | none =>
    rw [hpop] at h
    exact Widens.law.abort _ r h
  | some top =>
    rw [hpop] at h
    exact ⟨h, rfl⟩

theorem updateLeading_widens (change : Run → ScriptState → ScriptState)
    (hsame : ∀ r, change (r.widen w) = change r)
    (h : ∀ r s, change r (s.widen w.locals) = (change r s).widen w.locals) :
    Widens w (modify fun r => r.updateLeading (change r)) := by
  refine .modify (fun r => ?_) fun r => ?_
  · unfold Run.updateLeading
    cases r.master <;> rfl
  · rw [hsame]
    exact r.updateLeading_widen w (h r)

theorem runStopwatch_widens (start : Bool) : Widens w (runStopwatch start) := by
  refine readWord_widens.bind fun word => ?_
  split
  · exact (report_widens _).bind fun _ => .pure _
  · rename_i place hname
    have hset := updateLeading_widens (w := w)
      (fun r s => s.setStopwatch place (if start then .startedAt r.world.now else {})) (fun _ => rfl) fun _ _ => rfl
    exact hset.bind fun _ => .pure _

theorem runSetEvent_widens : Widens w runSetEvent := by
  refine readWord_widens.bind fun name => Widens.skippingLaw.readSwitch.bind fun on => ?_
  split
  · exact Widens.law.fail _
  · rename_i event hname
    have hset := updateLeading_widens (w := w) (fun _ s => s.switchEvent event on) (fun _ => rfl) fun _ _ => rfl
    exact hset.bind fun _ => .pure _

theorem runSetMainEvent_widens : Widens w runSetMainEvent := by
  refine readWord_widens.bind fun event => ?_
  have hset : Widens w (modify fun r : Run => { r with own := r.own.setMainEvent event }) :=
    .modify (fun _ => rfl) fun _ => rfl
  exact hset.bind fun _ => .pure _

theorem modifyTimers_widens {change : TimerPool → TimerPool}
    (h : ∀ p, change (p.widen w.timers) = (change p).widen w.timers) : Widens w (modifyTimers change) := by
  refine .modify (fun _ => rfl) fun r => ?_
  have hpool := h r.shared.timers
  unfold Run.widen Shared.widen
  dsimp only
  rw [hpool]

/-- A timer that finds a free slot finds the same one where there are more. -/
theorem schedule_widens (t : Timer) : Widens w (schedule t) := by
  refine .get_bind_at fun r => ?_
  have htimers : (r.widen w).shared.timers = r.shared.timers.widen w.timers := rfl
  rw [htimers]
  cases hroom : r.shared.timers.allocate t with
  | ok placed =>
    obtain ⟨slot, timers⟩ := placed
    rw [TimerPool.allocate_widen w.timers hroom]
    exact fun h => ⟨h, rfl⟩
  | error failure =>
    have hlimit : failure.OfLimit := by
      obtain ⟨-, rfl⟩ := TimerPool.allocate_refused_iff.1 hroom
      trivial
    exact fun h => absurd hlimit (Journal.unlimited_report.1 h).2

theorem runTimer_widens : Widens w runTimer := by
  have hclear : ∀ unwanted : Timer → Bool, Widens w (modifyTimers fun p => (p.clearWhere unwanted).2) :=
    fun unwanted => modifyTimers_widens fun p => TimerPool.clearWhere_widen w.timers unwanted
  have hname : ∀ r : Run, timerName (r.widen w) = timerName r := by
    intro r
    have hfresh : (r.widen w).shared.timers.freshName = r.shared.timers.freshName :=
      TimerPool.freshName_widen w.timers
    unfold timerName
    rw [hfresh]
    rfl
  refine (readFlags_widens _).bind fun flags => readWord_widens.bind fun word => ?_
  refine .get_bind (fun _ => rfl) fun r => .ite ((hclear _).bind fun _ => .pure _) ?_
  refine .get_bind (fun r => by rw [hname]) fun r => ?_
  refine (hclear _).bind fun _ => .ite (.pure _) ?_
  refine (Widens.law.numberOf word).bind fun times => Widens.skippingLaw.readNumber.bind fun count => ?_
  refine skipLine_widens.bind fun resumeAt => ?_
  cases resumeAt with
  | none => exact (report_widens _).bind fun _ => .pure _
  | some resumeAt => exact .get_bind (fun _ => rfl) fun r => schedule_widens _

theorem post_widens (d : Dispatch) (sender : Entity) : Widens w (post d sender) := by
  intro r h
  have hworld : (r.widen w).world = r.world := rfl
  rw [post_run] at h
  rw [post_run, post_run, hworld]
  cases hsend : d.send r.world sender with
  | error diagnostic =>
    rw [hsend] at h
    exact Widens.law.fail diagnostic r h
  | ok world =>
    rw [hsend] at h
    exact ⟨h, rfl⟩

theorem withSender_widens {act : Exec α} (h : Widens w act) (sender : Option EntityId) :
    Widens w (withSender sender act) := by
  intro r hlast
  obtain ⟨hr, hact⟩ := h { r with sender } hlast
  refine ⟨hr, ?_⟩
  rw [withSender_run, withSender_run]
  change ((act.run (Run.widen w { r with sender })).1,
    { (act.run (Run.widen w { r with sender })).2 with sender := r.sender }) = _
  rw [hact]
  rfl

theorem runSendEvent_widens : Widens w runSendEvent := by
  refine Widens.skippingLaw.readDispatch.bind fun d => .get_bind (fun _ => rfl) fun r => ?_
  split
  · exact Widens.law.fail _
  · exact withSender_widens (post_widens d _) _

/-- What is left of storing a value, once it is known what becomes of its table. -/
def settle : Except Failure Run → Exec Outcome
  | .ok r => do
    set r
    return .success
  | .error failure => do
    note (.refused failure)
    return .failed

/-- A value is stored where there is more room, and refused for the same reason. -/
theorem settle_assign {r : Run} {n : Nat} (put put' : VariableTable → Run)
    (hjournal : ∀ t, (put t).journal = r.journal) (hput : ∀ t, put' (t.widen n) = (put t).widen w)
    (t : VariableTable) (name : String) (value : Value) :
    WidensAt w r (settle ((t.assign name value).map put)) (settle (((t.widen n).assign name value).map put')) := by
  cases hassign : t.assign name value with
  | ok stored =>
    have hwide := t.assign_widen n name value (by simp [hassign])
    rw [hwide, hassign]
    intro h
    change (put stored).journal.Unlimited at h
    rw [hjournal] at h
    exact ⟨h, congrArg (Prod.mk Outcome.success) (hput stored)⟩
  | error failure =>
    intro h
    obtain ⟨hr, hlimit⟩ := Journal.unlimited_note.1 h
    have hwide := t.assign_widen n name value (by rintro _ herror; cases hassign.symm.trans herror; exact hlimit)
    rw [hwide, hassign]
    exact ⟨hr, rfl⟩

theorem store_widens (name : String) (value : Value) : Widens w (store name value) := by
  refine .get_bind_at fun r => ?_
  by_cases hlocal : (Namespace.of name).isLocal
  · simp only [hlocal, if_true]
    exact settle_assign (fun locals => { r with own := { r.own with locals } })
      (fun locals => { r.widen w with own := { (r.widen w).own with locals } })
      (fun _ => rfl) (fun _ => rfl) r.own.locals name value
  · simp only [hlocal]
    exact settle_assign (fun globals => { r with shared := { r.shared with globals } })
      (fun globals => { r.widen w with shared := { (r.widen w).shared with globals } })
      (fun _ => rfl) (fun _ => rfl) r.shared.globals name value

/-- Every command does the same with more room, if it reports no limit. -/
theorem execute_widens (command : Command) : Widens w command.execute := by
  cases command with
  | nop | stop => exact .pure _
  | jump call => exact runJump_widens call
  | random => exact Widens.skippingLaw.runRandom fun _ h => ⟨h, rfl⟩
  | comeBack => exact runComeBack_widens
  | setMainEvent => exact runSetMainEvent_widens
  | stopwatch start => exact runStopwatch_widens start
  | timer => exact runTimer_widens
  | sendEvent => exact runSendEvent_widens
  | setEvent => exact runSetEvent_widens
  | conditional policy => exact Widens.skippingLaw.runConditional policy
  | otherwise => exact runOtherwise_widens
  | say => exact runSay_widens
  | assign => exact Widens.skippingLaw.runAssign store_widens
  | add => exact Widens.skippingLaw.runAdd store_widens
  | probe => exact runProbe_widens

theorem runWord_widens (table : CommandTable) (word : String) : Widens w (runWord table word) := by
  unfold runWord
  split
  · exact passOver_widens _
  · rename_i name command hlookup
    have hcommand : Widens w (modify fun r : Run => { r with command := word }) :=
      .modify (fun _ => rfl) fun _ => rfl
    have hexecute := hcommand.bind fun _ => execute_widens command
    exact .get_bind (fun _ => rfl) fun r => .ite (passOver_widens _) hexecute

end Exec

namespace Loop

def widen (w : Room) (l : Loop) : Loop := { l with run := l.run.widen w }

theorem turn_widen (w : Room) (l : Loop) :
    (l.widen w).turn =
      match l.turn with
      | .ended rest => .ended rest
      | .passed next => .passed (next.widen w)
      | .met word rest => .met word rest := by
  have hover : (l.widen w).LineOver ↔ l.LineOver := Iff.rfl
  have hrest : (l.widen w).run.rest = l.run.rest := rfl
  have hdepth : (l.widen w).depth = l.depth := rfl
  have hmode : (l.widen w).mode = l.mode := rfl
  unfold turn
  simp only [hover, hrest, hdepth, hmode]
  split_ifs <;> rfl

variable {table : CommandTable} {limit left : Nat} {l next : Loop}

theorem carryOut_widen (w : Room) {word : String} {rest : List Char} {outcome : Outcome}
    (hcarry : l.carryOut table word rest = (outcome, next)) (h : next.run.journal.Unlimited) :
    l.run.journal.Unlimited ∧ (l.widen w).carryOut table word rest = (outcome, next.widen w) := by
  cases hcarry
  obtain ⟨hl, hwide⟩ := Exec.runWord_widens table word (l.run.readTo rest) h
  refine ⟨hl, ?_⟩
  have hread : (l.widen w).run.readTo rest = (l.run.readTo rest).widen w := rfl
  unfold carryOut
  rw [hread, hwide]
  rfl

theorem Runs.widen (w : Room) {words : List String} {result : Outcome × Run}
    (hruns : Runs table limit left l words result) (h : result.2.journal.Unlimited) :
    l.run.journal.Unlimited ∧
      Runs table (limit + w.steps) (left + w.steps) (l.widen w) words (result.1, result.2.widen w) := by
  induction hruns with
  | ended hturn => exact ⟨h, .ended (by rw [turn_widen, hturn])⟩
  | passed hturn _ ih =>
    obtain ⟨hnext, hon⟩ := ih h
    rw [run_of_passed hturn] at hnext
    exact ⟨hnext, .passed (by rw [turn_widen, hturn]) hon⟩
  -- a run that is out of steps has reported it
  | spent => exact absurd trivial (Journal.unlimited_report.1 h).2
  | stopped hturn hcarry hstop =>
    obtain ⟨hl, hwide⟩ := carryOut_widen w hcarry h
    rw [Nat.add_right_comm]
    exact ⟨hl, .stopped (by rw [turn_widen, hturn]) hwide hstop⟩
  | carried hturn hcarry hgo _ ih =>
    obtain ⟨hnext, hon⟩ := ih h
    obtain ⟨hl, hwide⟩ := carryOut_widen w hcarry hnext
    rw [Nat.add_right_comm]
    exact ⟨hl, .carried (by rw [turn_widen, hturn]) hwide hgo hon⟩

/-- A run that reports no limit does the same with more room and more steps. -/
theorem finish_widen (w : Room) (h : (l.finish table limit left).2.journal.Unlimited) :
    l.run.journal.Unlimited ∧
      (l.widen w).finish table (limit + w.steps) (left + w.steps) =
        ((l.finish table limit left).1, (l.finish table limit left).2.widen w) := by
  obtain ⟨words, hruns, -⟩ := runs_finish table limit left l
  obtain ⟨hl, hwide⟩ := hruns.widen w h
  exact ⟨hl, hwide.eq_finish.symm⟩

end Loop

end EntityScript
