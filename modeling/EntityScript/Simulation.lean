import EntityScript.Json
import EntityScript.Session

/-!
The simulation of one script: it is attached to a lone entity, gets one event, and then time passes
in equal steps. In each step timers run, and the events they send are delivered, up to a limit; the
rest is put aside. The report tells what happened.
-/

namespace EntityScript

structure Delivery where
  time : Nat
  event : QueuedEvent
  outcome : Outcome

/-- A session on its way, with the events that were delivered and those that were put aside. -/
structure Simulation where
  session : Session
  delivered : Array Delivery := #[]
  setAside : Array QueuedEvent := #[]
  fired : Nat := 0

namespace Simulation

/-- Time that passes after the first event, in milliseconds. -/
def duration : Nat := 5000

def interval : Nat := 50

def deliveryLimit : Nat := 256

/-- The target of the event has a script. -/
def isDeliverable (s : Session) (e : QueuedEvent) : Bool :=
  (s.engine.instance? (some e.target)).isSome

def setQueue (s : Session) (queue : List QueuedEvent) : Session :=
  { s with world := { s.world with queue := queue.toArray } }

/-- Empties the queue. At most `budget` events are delivered; those without a script to receive them,
and those that are left when the budget is used up, are put aside. -/
def deliverPending : (budget : Nat) → Simulation → Simulation
  | budget, sim =>
    let s := sim.session
    let queue := s.world.queue.toList
    let idle := queue.takeWhile (!isDeliverable s ·)
    let sim := { sim with setAside := sim.setAside ++ idle }
    match budget, queue.dropWhile (!isDeliverable s ·) with
    | budget + 1, e :: more =>
      let (outcome, t) := (setQueue s more).deliver e
      deliverPending budget
        { sim with session := t, delivered := sim.delivered.push ⟨s.world.now, e, outcome⟩ }
    | _, left => { sim with session := setQueue s [], setAside := sim.setAside ++ left }

/-- Lets time pass, runs timers, and delivers what they send. -/
def step (sim : Simulation) : Simulation :=
  let (fired, session) := (sim.session.advance interval).tick
  deliverPending deliveryLimit { sim with session, fired := sim.fired + fired }

def loner (name : String) : Entity × Registry := Registry.empty.spawn fun id => { id, name, kinds := .npc }

def start (config : Config) (seed : Nat) (script : Script) (name event : String) : Outcome × Simulation :=
  let (entity, entities) := loner name
  let engine := (Engine.new config seed).attach entity.id script
  let (outcome, session) :=
    ({ engine, world := { entities } } : Session).sendEvent (some entity.id) event ""
  (outcome, deliverPending deliveryLimit { session })

def finish (sim : Simulation) : Simulation := Nat.repeat step (duration / interval) sim

end Simulation

structure Report where
  script : String
  entity : EntityId
  event : String
  outcome : Outcome
  delivered : List Delivery
  queued : List QueuedEvent
  timers : List Timer
  timersFired : Nat
  elapsed : Nat

namespace Report

def simulate (config : Config) (seed : Nat) (path : String) (script : Script) (name event : String) :
    Report :=
  let (outcome, start) := Simulation.start config seed script name event
  let sim := start.finish
  { script := path
    entity := (Simulation.loner name).1.id
    event, outcome
    delivered := sim.delivered.toList
    queued := sim.setAside.toList
    timers := sim.session.engine.shared.timers.timers
    timersFired := sim.fired
    elapsed := sim.session.world.now }

def ofId : Option EntityId → Json
  | some id => .number id.toNat
  | none => .null

def ofEvent (e : QueuedEvent) : Json :=
  .object [("target", ofId (some e.target)), ("event", .string e.event), ("params", .string e.params),
    ("sender", ofId e.sender)]

def ofDelivery (d : Delivery) : Json :=
  .object [("at_ms", .number d.time), ("event", ofEvent d.event), ("outcome", .string d.outcome.name)]

def ofTimer (t : Timer) : Json :=
  .object [("name", .string t.name), ("entity", ofId t.owner), ("times", .number t.times),
    ("period_ms", .number t.period), ("resume_at", .number t.resumeAt),
    ("started_ms", .number t.started), ("idle_only", .bool t.idleOnly)]

def toJson (r : Report) : Json :=
  .object [("script", .string r.script), ("entity", ofId (some r.entity)), ("event", .string r.event),
    ("outcome", .string r.outcome.name), ("delivered", .array (r.delivered.map ofDelivery)),
    ("queued", .array (r.queued.map ofEvent)), ("timers", .array (r.timers.map ofTimer)),
    ("timers_fired", .number r.timersFired), ("elapsed_ms", .number r.elapsed)]

end Report

end EntityScript
