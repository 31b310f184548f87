import EntityScript.Proofs.Changes
import EntityScript.Run.Loop

/-! All that carrying out a command word can do to a run: small changes, or a jump,
a call or a return that succeeds or is refused. Every fact about single commands
that a run as a whole relies on is read off `runWord_effect`. -/

namespace EntityScript

open Relation

namespace Exec

def readLabel (word : String) (r : Run) : String × Run := readWord.run { r with command := word }

theorem readLabel_follows (word : String) (r : Run) :
    Follows { r with command := word } (readLabel word r).2 :=
  follows_of_changes (readWord_gradual _)

inductive Effect (table : CommandTable) (word : String) (r : Run) : Outcome → Run → Prop
  /-- The word is no command, or makes no sense without an entity. -/
  | passedOver {s : Run}
    (hlookup : ∀ name command, table.lookup word = some (name, command) → command.needsEntity = true)
    (h : ReflTransGen Change r s) : Effect table word r .failed s
  | small {name : String} {command : Command} {outcome : Outcome} {s t : Run}
    (hlookup : table.lookup word = some (name, command)) (hjump : ∀ call, command ≠ .jump call)
    (hback : command ≠ .comeBack) (h : ReflTransGen Change { r with command := word } s)
    (hskip : Skip s t) : Effect table word r outcome t
  | went {name : String} {position : Nat} {s : Run}
    (hlookup : table.lookup word = some (name, .jump false))
    (hlabel : r.script.findLabel? (readLabel word r).1 = some position)
    (h : ReflTransGen Change (readLabel word r).2 s) :
    Effect table word r .jumped { s with place := r.script.placeAt position }
  | called {name : String} {position : Nat} (hlookup : table.lookup word = some (name, .jump true))
    (hlabel : r.script.findLabel? (readLabel word r).1 = some position)
    (hroom : r.callDepth < r.shared.maxCallDepth) :
    Effect table word r .jumped
      { (readLabel word r).2 with
        place := r.script.placeAt position, calls := r.calls.push (readLabel word r).2.place }
  | returned {name : String} {place : Text.Place} {calls : CallStack}
    (hlookup : table.lookup word = some (name, .comeBack))
    (hpop : r.calls.pop? = some (place, calls)) :
    Effect table word r .success { r with command := word, place, calls }
  /-- There is no such label, or no room for another call. -/
  | refused {name : String} {call : Bool} {s : Run}
    (hlookup : table.lookup word = some (name, .jump call))
    (hrefused : r.script.findLabel? (readLabel word r).1 = none ∨
      call = true ∧ r.shared.maxCallDepth ≤ r.callDepth)
    (h : ReflTransGen Change (readLabel word r).2 s) : Effect table word r .abortError s
  | stuck {name : String} {s : Run} (hlookup : table.lookup word = some (name, .comeBack))
    (hempty : r.callDepth = 0) (h : ReflTransGen Change { r with command := word } s) :
    Effect table word r .abortError s

theorem abort_changes (failure : Failure) (r : Run) :
    ReflTransGen Change r ((abort failure).run r).2 :=
  .single (.reported r _)

def leap (label : String) (call : Bool) : Exec Outcome := do
  match ← jump label call with
  | .ok () => return .jumped
  | .error failure => abort failure

theorem leap_run (label : String) (call : Bool) (s : Run) :
    (leap label call).run s =
      match s.script.findLabel? label with
      | none => (abort (.unknownLabel label)).run s
      | some position =>
        if !call then (.jumped, { s with place := s.script.placeAt position })
        else if s.shared.maxCallDepth ≤ s.callDepth then
          (abort (.callsTooDeep s.shared.maxCallDepth)).run s
        else
          (.jumped,
            { s with place := s.script.placeAt position, calls := s.calls.push s.place }) := by
  have hjump : (jump label call).run s = (match s.script.findLabel? label with
      | none => pure (Except.error (Failure.unknownLabel label))
      | some position => _ : Exec (Except Failure Unit)).run s := rfl
  rw [leap, StateT.run_bind, hjump]
  cases s.script.findLabel? label with
  | none => rfl
  | some position =>
    dsimp only
    split
    · rfl
    · split <;> rfl

theorem runGoto_run (word : String) (r : Run) :
    (runJump false).run { r with command := word } = StateT.run
      (match (skipLine.run (readLabel word r).2).1 with
        | some position => do
          report (.unexpectedText position)
          leap (readLabel word r).1 false
        | _ => leap (readLabel word r).1 false) (skipLine.run (readLabel word r).2).2 := rfl

theorem runJump_goto (word : String) (r : Run) :
    ∃ s, ReflTransGen Change (readLabel word r).2 s ∧
      (runJump false).run { r with command := word } = (leap (readLabel word r).1 false).run s := by
  have hskip := skipLine_gradual (readLabel word r).2
  rw [runGoto_run]
  split
  · exact ⟨_, hskip.trans (report_gradual _ _), rfl⟩
  · exact ⟨_, hskip, rfl⟩

theorem runJump_gosub (word : String) (r : Run) :
    (runJump true).run { r with command := word } =
      (leap (readLabel word r).1 true).run (readLabel word r).2 := rfl

section

variable {table : CommandTable} {word name : String} {r : Run}

theorem runGoto_effect (hlookup : table.lookup word = some (name, .jump false)) :
    Effect table word r ((runJump false).run { r with command := word }).1
      ((runJump false).run { r with command := word }).2 := by
  obtain ⟨s, hs, hrun⟩ := runJump_goto word r
  have hscript : s.script = r.script :=
    (follows_of_changes hs).script.trans (readLabel_follows word r).script
  rw [hrun, leap_run]
  cases hlabel : s.script.findLabel? (readLabel word r).1 with
  | none => exact .refused hlookup (.inl (hscript ▸ hlabel)) (hs.trans (abort_changes _ s))
  | some position =>
    have h := Effect.went hlookup (hscript ▸ hlabel) hs
    rw [← hscript] at h
    exact h

theorem runGosub_effect (hlookup : table.lookup word = some (name, .jump true)) :
    Effect table word r ((runJump true).run { r with command := word }).1
      ((runJump true).run { r with command := word }).2 := by
  have hread := readLabel_follows word r
  have hscript : (readLabel word r).2.script = r.script := hread.script
  have hcalls : (readLabel word r).2.calls = r.calls := hread.calls
  have hmax : (readLabel word r).2.shared.maxCallDepth = r.shared.maxCallDepth := hread.maxCallDepth
  have hdepth : (readLabel word r).2.callDepth = r.callDepth := congrArg CallStack.depth hcalls
  rw [runJump_gosub, leap_run, hdepth, hmax]
  cases hlabel : (readLabel word r).2.script.findLabel? (readLabel word r).1 with
  | none => exact .refused hlookup (.inl (hscript ▸ hlabel)) (abort_changes _ _)
  | some position =>
    dsimp only
    rw [if_neg (by simp)]
    split
    · rename_i hfull
      exact .refused hlookup (.inr ⟨rfl, hfull⟩) (abort_changes _ _)
    · rename_i hroom
      have h := Effect.called hlookup (hscript ▸ hlabel) (Nat.lt_of_not_le hroom)
      rw [← hscript, ← hcalls] at h
      exact h

theorem comeBack_run (r : Run) :
    comeBack.run r =
      match r.calls.pop? with
      | none => (.error .nothingToReturnTo, r)
      | some (place, calls) => (.ok (), { r with place, calls }) := by
  simp only [comeBack, StateT.run_bind, StateT.run_get, pure_bind]
  cases r.calls.pop? <;> rfl

theorem runComeBack_effect (hlookup : table.lookup word = some (name, .comeBack)) :
    Effect table word r (runComeBack.run { r with command := word }).1
      (runComeBack.run { r with command := word }).2 := by
  rw [runComeBack, StateT.run_bind, comeBack_run]
  dsimp only
  cases hpop : r.calls.pop? with
  | none => exact .stuck hlookup (CallStack.pop?_eq_none_iff.1 hpop) (abort_changes _ _)
  | some top => exact .returned hlookup hpop

theorem passOver_changes (d : Diagnostic) (r : Run) :
    ReflTransGen Change r ((passOver d).run r).2 :=
  .head (.reported r d) (.single (.read (Reading.dropLine_along r.rest)))

theorem runWord_run (table : CommandTable) (word : String) (r : Run) :
    (runWord table word).run r =
      match table.lookup word with
      | none => (passOver (.unknownCommand word)).run r
      | some (_, command) =>
        if command.needsEntity && r.owner.isNone then (passOver .entityNeeded).run r
        else command.execute.run { r with command := word } := by
  unfold runWord
  cases table.lookup word with
  | none => rfl
  | some found =>
    change StateT.run (if _ then _ else _) r = _
    dsimp only
    split <;> rfl

/-- A command that makes sense for all scripts is carried out. -/
theorem runWord_of_lookup {command : Command} (hlookup : table.lookup word = some (name, command))
    (hneeds : command.needsEntity = false) :
    (runWord table word).run r = command.execute.run { r with command := word } := by
  rw [runWord_run, hlookup]
  simp [hneeds]

/-- Carrying out a command word does one of the things that `Effect` lists. -/
theorem runWord_effect (table : CommandTable) (word : String) (r : Run) :
    Effect table word r ((runWord table word).run r).1 ((runWord table word).run r).2 := by
  rw [runWord_run]
  split
  · rename_i hlookup
    exact .passedOver (fun _ _ h => absurd (hlookup.symm.trans h) (by simp)) (passOver_changes _ r)
  · rename_i name command hlookup
    split
    · rename_i hentity
      refine .passedOver (fun name' command' h => ?_) (passOver_changes _ r)
      cases hlookup.symm.trans h
      exact (Bool.and_eq_true _ _ ▸ hentity).1
    · by_cases hjump : ∃ call, command = .jump call
      · obtain ⟨call, rfl⟩ := hjump
        cases call with
        | false => exact runGoto_effect hlookup
        | true => exact runGosub_effect hlookup
      · by_cases hback : command = .comeBack
        · subst hback
          exact runComeBack_effect hlookup
        · have hjump' : ∀ call, command ≠ .jump call := fun call h => hjump ⟨call, h⟩
          obtain ⟨s, hs, hskip⟩ := execute_branching hjump' hback { r with command := word }
          exact .small hlookup hjump' hback hs hskip

end

def NoJump (m : Exec Outcome) : Prop := ∀ r, (m.run r).1 ≠ .jumped

namespace NoJump

variable {α : Type}

theorem pure {outcome : Outcome} (h : outcome ≠ .jumped) : NoJump (pure outcome) := fun _ => h

/-- What is done last answers. -/
theorem bind {m : Exec α} {f : α → Exec Outcome} (hf : ∀ a, NoJump (f a)) : NoJump (m >>= f) :=
  fun r => hf (m.run r).1 (m.run r).2

theorem ite {c : Prop} [Decidable c] {m n : Exec Outcome} (hm : NoJump m) (hn : NoJump n) :
    NoJump (if c then m else n) := by
  split
  · exact hm
  · exact hn

theorem success {m : Exec α} : NoJump (m >>= fun _ => Pure.pure .success) := bind fun _ => pure (by decide)

theorem failed {m : Exec α} : NoJump (m >>= fun _ => Pure.pure .failed) := bind fun _ => pure (by decide)

end NoJump

theorem abort_noJump (failure : Failure) : NoJump (abort failure) := .bind fun _ => .pure (by decide)

theorem fail_noJump (d : Diagnostic) : NoJump (fail d) := .failed

theorem runRandom_noJump : NoJump runRandom :=
  .bind fun _ => .bind fun _ => .ite .success (.pure (by decide))

theorem runComeBack_noJump : NoJump runComeBack := by
  refine .bind fun back => ?_
  split
  · exact .pure (by decide)
  · exact abort_noJump _

theorem runStopwatch_noJump (start : Bool) : NoJump (runStopwatch start) := by
  refine .bind fun word => ?_
  split
  · exact .failed
  · exact .success

theorem schedule_noJump (t : Timer) : NoJump (schedule t) := by
  refine .bind fun r => ?_
  split
  · exact .success
  · exact .failed

theorem runTimer_noJump : NoJump runTimer := by
  refine .bind fun flags => .bind fun word => .bind fun r => ?_
  refine .ite .success (.bind fun _ => .bind fun _ => .ite (.pure (by decide)) ?_)
  refine .bind fun times => .bind fun count => .bind fun resumeAt => ?_
  split
  · exact .failed
  · exact .bind fun _ => schedule_noJump _

theorem post_noJump (d : Dispatch) (sender : Entity) : NoJump (post d sender) := by
  refine .bind fun r => ?_
  split
  · exact fail_noJump _
  · exact .success

theorem runSendEvent_noJump : NoJump runSendEvent := by
  refine .bind fun d => .bind fun r => ?_
  split
  · exact fail_noJump _
  · exact fun r => post_noJump d _ { r with sender := _ }

theorem runSetEvent_noJump : NoJump runSetEvent := by
  refine .bind fun name => .bind fun on => ?_
  split
  · exact fail_noJump _
  · exact .success

theorem refuse_noJump (d : Diagnostic) : NoJump (refuse d) := .bind fun _ => .failed

theorem runConditional_noJump (policy : WrongTypePolicy) : NoJump (runConditional policy) := by
  refine .bind fun left => .bind fun name => .bind fun right => ?_
  split
  · exact refuse_noJump _
  · refine .bind fun l => .bind fun r => .ite (refuse_noJump _) (.bind fun run => .bind fun _ => ?_)
    exact .ite .success (.pure (by decide))

theorem store_noJump (name : String) (value : Value) : NoJump (store name value) := by
  refine .bind fun r => ?_
  by_cases hl : (Namespace.of name).isLocal
  · simp only [hl, if_true]
    cases r.own.locals.assign name value with
    | ok locals => exact .success
    | error failure => exact .failed
  · simp only [hl]
    cases r.shared.globals.assign name value with
    | ok globals => exact .success
    | error failure => exact .failed

/-- Only jumps jump. -/
theorem execute_noJump {command : Command} (hjump : ∀ call, command ≠ .jump call)
    (hstop : command ≠ .stop .jumped) : NoJump command.execute := by
  cases command with
  | nop => exact .pure (by decide)
  | jump call => exact absurd rfl (hjump call)
  | stop outcome => exact .pure fun h => hstop (h ▸ rfl)
  | random => exact runRandom_noJump
  | comeBack => exact runComeBack_noJump
  | setMainEvent => exact .bind fun _ => .success
  | stopwatch start => exact runStopwatch_noJump start
  | timer => exact runTimer_noJump
  | sendEvent => exact runSendEvent_noJump
  | setEvent => exact runSetEvent_noJump
  | conditional policy => exact runConditional_noJump policy
  | otherwise => exact .success
  | say => exact .bind fun _ => .bind fun _ => .bind fun _ => .success
  | assign => exact .bind fun _ => .bind fun _ => .bind fun _ => store_noJump _ _
  | add => exact .bind fun _ => .bind fun _ => .bind fun _ => .bind fun _ => store_noJump _ _
  | probe => exact .bind fun _ => .success

theorem passOver_noJump (d : Diagnostic) : NoJump (passOver d) := .bind fun _ => .bind fun _ => .failed

/-- What no command changes. -/
structure Keeps (r s : Run) : Prop where
  script : s.script = r.script
  owner : s.owner = r.owner
  params : s.params = r.params
  sender : s.sender = r.sender
  maxCallDepth : s.shared.maxCallDepth = r.shared.maxCallDepth
  master : s.master.isSome = r.master.isSome

theorem Keeps.trans {r s t : Run} (h₁ : Keeps r s) (h₂ : Keeps s t) : Keeps r t :=
  ⟨h₂.script.trans h₁.script, h₂.owner.trans h₁.owner, h₂.params.trans h₁.params,
    h₂.sender.trans h₁.sender, h₂.maxCallDepth.trans h₁.maxCallDepth, h₂.master.trans h₁.master⟩

theorem keeps_of_follows {word : String} {r s : Run} (h : Follows { r with command := word } s) :
    Keeps r s :=
  ⟨h.script, h.owner, h.params, h.sender, h.maxCallDepth, h.master⟩

namespace Effect

variable {table : CommandTable} {word : String} {r s : Run} {outcome : Outcome}

theorem keeps (h : Effect table word r outcome s) : Keeps r s := by
  have hread := readLabel_follows word r
  cases h with
  | passedOver _ h =>
    have hs := follows_of_changes h
    exact ⟨hs.script, hs.owner, hs.params, hs.sender, hs.maxCallDepth, hs.master⟩
  | small _ _ _ h hskip => exact keeps_of_follows ((follows_of_changes h).trans hskip.follows)
  | went _ _ h =>
    have hs := keeps_of_follows (hread.trans (follows_of_changes h))
    exact ⟨hs.script, hs.owner, hs.params, hs.sender, hs.maxCallDepth, hs.master⟩
  | called =>
    have hs := keeps_of_follows hread
    exact ⟨hs.script, hs.owner, hs.params, hs.sender, hs.maxCallDepth, hs.master⟩
  | returned => exact ⟨rfl, rfl, rfl, rfl, rfl, rfl⟩
  | refused _ _ h => exact keeps_of_follows (hread.trans (follows_of_changes h))
  | stuck _ _ h => exact keeps_of_follows (follows_of_changes h)

/-- Commands other than calls and returns leave the places to return to alone. -/
theorem calls_eq (h : Effect table word r outcome s)
    (hcall : ∀ name, table.lookup word = some (name, .jump true) → outcome ≠ .jumped)
    (hback : ∀ name, table.lookup word = some (name, .comeBack) → outcome ≠ .success) :
    s.calls = r.calls := by
  have hread := readLabel_follows word r
  cases h with
  | passedOver _ h => exact (follows_of_changes h).calls
  | small _ _ _ h hskip => exact ((follows_of_changes h).trans hskip.follows).calls
  | went _ _ h => exact (hread.trans (follows_of_changes h)).calls
  | called hlookup => exact absurd rfl (hcall _ hlookup)
  | returned hlookup => exact absurd rfl (hback _ hlookup)
  | refused _ _ h => exact (hread.trans (follows_of_changes h)).calls
  | stuck _ _ h => exact (follows_of_changes h).calls

theorem of_call {name : String} (h : Effect table word r outcome s)
    (hlookup : table.lookup word = some (name, .jump true)) (hon : outcome ≠ .abortError) :
    outcome = .jumped ∧ r.callDepth < r.shared.maxCallDepth ∧
      s.calls = r.calls.push (readLabel word r).2.place := by
  cases h with
  | passedOver hother => exact absurd (hother _ _ hlookup) (by decide)
  | small hother hjump => cases hlookup.symm.trans hother; exact absurd rfl (hjump true)
  | went hother => cases hlookup.symm.trans hother
  | called _ _ hroom => exact ⟨rfl, hroom, rfl⟩
  | returned hother => cases hlookup.symm.trans hother
  | refused => exact absurd rfl hon
  | stuck => exact absurd rfl hon

theorem of_return {name : String} (h : Effect table word r outcome s)
    (hlookup : table.lookup word = some (name, .comeBack)) (hon : outcome ≠ .abortError) :
    outcome = .success ∧ r.calls.pop? = some (s.place, s.calls) := by
  cases h with
  | passedOver hother => exact absurd (hother _ _ hlookup) (by decide)
  | small hother _ hback => cases hlookup.symm.trans hother; exact absurd rfl hback
  | went hother => cases hlookup.symm.trans hother
  | called hother => cases hlookup.symm.trans hother
  | returned _ hpop => exact ⟨rfl, hpop⟩
  | refused => exact absurd rfl hon
  | stuck => exact absurd rfl hon

/-- In a call a return succeeds. -/
theorem returns {name : String} (h : Effect table word r outcome s)
    (hlookup : table.lookup word = some (name, .comeBack)) (hdeep : r.callDepth ≠ 0) : outcome = .success := by
  cases h with
  | passedOver hother => exact absurd (hother _ _ hlookup) (by decide)
  | small hother _ hback => cases hlookup.symm.trans hother; exact absurd rfl hback
  | went hother | called hother | refused hother => cases hlookup.symm.trans hother
  | returned => rfl
  | stuck _ hempty => exact absurd hempty hdeep

theorem of_refused {name : String} {call : Bool} (h : Effect table word r outcome s)
    (hlookup : table.lookup word = some (name, .jump call))
    (hrefused : r.script.findLabel? (readLabel word r).1 = none ∨
      call = true ∧ r.shared.maxCallDepth ≤ r.callDepth) : outcome = .abortError := by
  cases h with
  | passedOver hother => exact absurd (hother _ _ hlookup) (by simp [Command.needsEntity])
  | small hother hjump => cases hlookup.symm.trans hother; exact absurd rfl (hjump call)
  | went hother hlabel =>
    cases hlookup.symm.trans hother
    simp [hlabel] at hrefused
  | called hother hlabel hroom =>
    cases hlookup.symm.trans hother
    rcases hrefused with hnone | ⟨-, hfull⟩
    · simp [hlabel] at hnone
    · omega
  | returned hother => cases hlookup.symm.trans hother
  | refused => rfl
  | stuck => rfl

theorem of_stuck {name : String} (h : Effect table word r outcome s)
    (hlookup : table.lookup word = some (name, .comeBack)) (hempty : r.callDepth = 0) :
    outcome = .abortError := by
  by_contra hon
  have hpop := (h.of_return hlookup hon).2
  rw [CallStack.pop?_eq_none_iff.2 hempty] at hpop
  cases hpop

end Effect

end Exec

end EntityScript
