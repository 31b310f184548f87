import EntityScript.Command

/-!
Commands about time: stopwatches that are started and stopped, and timers that carry out the rest of
their line again and again.
-/

namespace EntityScript.Exec

def runStopwatch (start : Bool) : Exec Outcome := do
  let word ← readWord
  match Stopwatch.named? word with
  | none =>
    report (.invalidStopwatch word)
    return .failed
  | some place =>
    modify fun r => r.updateLeading fun s =>
      s.setStopwatch place (if start then .startedAt r.world.now else {})
    return .success

def modifyTimers (change : TimerPool → TimerPool) : Exec Unit :=
  modify fun r => { r with shared := { r.shared with timers := change r.shared.timers } }

/-- The name of the timer that the command word asks for: what follows `timer` in the word, or else
a name that no timer has. -/
def timerName (r : Run) : String :=
  match ['t', 'i', 'm', 'e', 'r'].isPrefixOf? r.command.toList with
  | some (c :: rest) => Text.lowercase (String.ofList (c :: rest))
  | _ => r.shared.timers.freshName

/-- The product held below 2 ^ 64. -/
def saturate (n : Nat) : Nat := min lastMoment n

def schedule (t : Timer) : Exec Outcome := do
  match (← get).shared.timers.allocate t with
  | .ok (_, timers) =>
    modifyTimers fun _ => timers
    return .success
  | .error failure =>
    report (.failed failure)
    return .failed

/-- Sets a timer or takes timers away. A timer of the same name and owner makes way first, even if
nothing comes of the new one. The period counts whole seconds, or whole milliseconds with `-m`. -/
def runTimer : Exec Outcome := do
  let flags ← readFlags ['m', 'i']
  let word ← readWord
  let owner := (← get).owner
  if word == "kill_local" then
    modifyTimers fun p => (p.clearOwner owner).2
    return .success
  let name := timerName (← get)
  modifyTimers fun p => (p.clearByName name owner).2
  if word == "off" then
    return .success
  let times := Binary32.toUnsigned 32 (← numberOf word)
  let count := Binary32.toUnsigned 64 (← readNumber)
  let period := if flags.has 'm' then count else saturate (count * 1000)
  match ← skipLine with
  | none =>
    report (.timerWithoutCommand name)
    return .failed
  | some resumeAt =>
    let r ← get
    schedule {
      name, script := r.script, owner, times, period, resumeAt
      started := r.world.now
      idleOnly := flags.has 'i' && owner.isSome }

end EntityScript.Exec
