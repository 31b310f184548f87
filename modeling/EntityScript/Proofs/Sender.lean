import EntityScript.Proofs.Calls
import EntityScript.Proofs.Moments

/-! The sender holds for the time of a handler. A statement that sends events is the sender while it
does so, and on every way out of it the one from before is back. -/

namespace EntityScript

namespace Session

def deliveryRun (s : Session) (q : QueuedEvent) (i : Instance) (position : Nat) : Run :=
  ({ s with sender := q.sender }).handlerRun (some q.target) i position q.params

theorem Handles.deliver_eq {s : Session} {q : QueuedEvent} {i : Instance} {position : Nat}
    (h : s.Handles (some q.target) q.event i position) :
    s.deliver q = s.withSender q.sender fun t =>
      t.carryOut (some q.target) (s.deliveryRun q i position) .block := by
  have hthen : ({ s with sender := q.sender }).Handles (some q.target) q.event i position :=
    ⟨h.found, h.allowed, h.handler⟩
  rw [deliver, withSender, withSender, hthen.sendEvent_eq]
  rfl

/-- A run hands the sender back that it began with. -/
theorem sender_carryOut (s : Session) (owner : Option EntityId) (r : Run) (mode : Mode) :
    (s.carryOut owner r mode).2.sender = r.sender :=
  (Loop.keeps_finish s.engine.commands s.engine.config.maxSteps s.engine.config.maxSteps
    { run := r, mode }).sender

theorem sender_sendEvent (s : Session) (owner : Option EntityId) (event params : String) :
    (s.sendEvent owner event params).2.sender = s.sender := by
  rcases s.sendEvent_cases owner event params with ⟨outcome, journal, hquiet⟩ | ⟨i, position, -, hruns⟩
  · rw [hquiet]
  · rw [hruns]
    exact s.sender_carryOut owner _ .block

theorem sender_fire (s : Session) (t : Timer) : (s.fire t).sender = s.sender := by
  unfold fire
  split
  · rfl
  · exact s.sender_carryOut t.owner _ .line

theorem sender_pollSlot (s : Session) (slot : Nat) : (s.pollSlot slot).2.sender = s.sender := by
  have hpolls := s.pollSlot_polls slot
  generalize s.pollSlot slot = polled at hpolls
  obtain ⟨timer?, t⟩ := polled
  cases hpolls <;> rfl

theorem sender_visitSlot (s : Session) (slot : Nat) : (s.visitSlot slot).2.sender = s.sender := by
  have hpoll := s.sender_pollSlot slot
  rw [visitSlot_eq]
  rcases hpolled : s.pollSlot slot with ⟨_ | timer, t⟩
  · rwa [hpolled] at hpoll
  · rw [hpolled] at hpoll
    exact (t.sender_fire timer).trans hpoll

theorem sender_visitAll (slots : List Nat) (n : Nat) (s : Session) : (visitAll slots (n, s)).2.sender = s.sender := by
  induction slots generalizing n s with
  | nil => rfl
  | cons slot slots ih => exact (ih _ _).trans (s.sender_visitSlot slot)

theorem sender_tick (s : Session) : s.tick.2.sender = s.sender := sender_visitAll _ 0 s

/-- While the handler of a queued event is on its way, its sender is the sender whenever a command
begins, and is so again when the command is over, whatever came of it. After a call of the session,
whatever its outcome, the sender is the one from before. -/
theorem sender_is_scoped (s : Session) :
    (∀ (q : QueuedEvent) (i : Instance) (position : Nat),
      s.Handles (some q.target) q.event i position →
        let start := Loop.begin (s.deliveryRun q i position) .block
        (s.deliver q).1 =
            (start.finish s.engine.commands s.engine.config.maxSteps s.engine.config.maxSteps).1 ∧
          ∀ l, Loop.Reaches s.engine.commands start l → l.run.sender = q.sender ∧
            ∀ word rest, l.turn = .met word rest →
              (l.carryOut s.engine.commands word rest).2.run.sender = q.sender) ∧
      (∀ owner event params, (s.sendEvent owner event params).2.sender = s.sender) ∧
      (∀ q, (s.deliver q).2.sender = s.sender) ∧ s.tick.2.sender = s.sender := by
  refine ⟨fun q i position hhandles => ⟨?_, fun l hreach => ?_⟩, s.sender_sendEvent, fun q => rfl, s.sender_tick⟩
  · rw [hhandles.deliver_eq]
    rfl
  · have hl : l.run.sender = q.sender := (Loop.Reaches.keeps hreach).sender
    refine ⟨hl, fun word rest hmet => ?_⟩
    have hkeeps := (Loop.carryOut_effect s.engine.commands l word rest).keeps
    exact hkeeps.sender.trans hl

end Session

def crier : Instance := { script := .ofText "crier" "on call\nsendevent hit nobody\n", state := .fresh 0 }

def market : Session where
  engine :=
    { config := {}
      commands := { commands := Dict.empty.set "sendevent" .sendEvent }
      shared :=
        { globals := .withCapacity 0
          timers := .withCapacity 0
          random := .ofSeed 0
          maxCallDepth := 0 }
      instances := Dict.empty.set 1 crier }
  world := { entities := (Registry.empty.spawn fun id => { id, name := "crier", kinds := .npc }).2 }

def cry : QueuedEvent := { target := 1, event := "call", params := "", sender := some 7 }

theorem market_handles : market.Handles (some 1) "call" crier 7 :=
  .of_isLower (by decide) rfl (by decide) (by decide +kernel)

def crying : Loop := .begin (market.deliveryRun cry crier 7) .block

def cryingRest : List Char := " hit nobody\n".toList

theorem crying_met : crying.turn = .met "sendevent" cryingRest :=
  Loop.met_of_read (by decide) (by decide) (fun h => absurd h.1 (by decide))

def cried : Loop := (crying.carryOut market.engine.commands "sendevent" cryingRest).2

theorem crying_fails :
    (crying.carryOut market.engine.commands "sendevent" cryingRest).1 = .failed ∧
      cried.run.journal.diagnostics = #[.unknownTarget "nobody"] := by
  constructor <;> decide +kernel

/-- The statement was sent by entity 1 and failed. The sender is then still the one of the event. -/
theorem sender_is_scoped_market :
    cried.run.journal.diagnostics = #[.unknownTarget "nobody"] ∧ cried.run.sender = some 7 ∧
      (market.deliver cry).2.sender = none := by
  obtain ⟨houtcome, hreport⟩ := crying_fails
  obtain ⟨hhandler, -, hdeliver, -⟩ := market.sender_is_scoped
  have hcarry : crying.carryOut market.engine.commands "sendevent" cryingRest = (.failed, cried) :=
    Prod.ext houtcome (by rw [cried])
  have hstep : Loop.Step market.engine.commands crying cried := .carried crying_met hcarry (by decide)
  obtain ⟨-, hreached⟩ := hhandler cry crier 7 market_handles
  exact ⟨hreport, (hreached cried (.single hstep)).1, hdeliver cry⟩

end EntityScript
