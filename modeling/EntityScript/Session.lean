import EntityScript.Engine

/-!
An engine at work in its world. Events are sent to scripts, timers are looked at as time passes, and
what is said about all this is kept in a journal. The sender is that of the event which is being
handled; it holds for the time of the handler only.
-/

namespace EntityScript

structure Session where
  engine : Engine
  world : World := {}
  sender : Option EntityId := none
  journal : Journal := {}

namespace Session

def report (s : Session) (d : Diagnostic) : Session :=
  { s with journal := { s.journal with diagnostics := s.journal.diagnostics.push d } }

def startRun (s : Session) (owner : Option EntityId) (own : ScriptState) (script : Script)
    (position : Nat) (params : List String) : Run :=
  { script
    place := script.placeAt position
    owner, params, own
    master := s.engine.masterState? owner
    shared := s.engine.shared
    world := s.world
    sender := s.sender }

def finishRun (s : Session) (owner : Option EntityId) (r : Run) : Session :=
  let engine := { s.engine with shared := r.shared }.updateState owner fun _ => r.own
  let engine :=
    match s.engine.master? owner, r.master with
    | some master, some state => engine.updateState (some master) fun _ => state
    | _, _ => engine
  { s with engine, world := r.world, sender := r.sender, journal := s.journal.append r.journal }

def carryOut (s : Session) (owner : Option EntityId) (run : Run) (mode : Mode) : Outcome × Session :=
  let (outcome, r) := (Exec.runAll s.engine.commands s.engine.config.maxSteps mode).run run
  (outcome, s.finishRun owner r)

/-- Sends an event to the script of an entity, or to the global one. A switched-off event is accepted
without a run, and an event that the script does not handle succeeds. -/
def sendEvent (s : Session) (owner : Option EntityId) (event params : String) :
    Outcome × Session :=
  let event := Text.lowercase event
  match s.engine.instance? owner with
  | none => (.failed, s.report (.noScriptForEvent event))
  | some i =>
    if !((s.engine.masterState? owner).getD i.state).allows event then (.abortAccept, s)
    else
      match i.script.findEvent? (i.state.handlerOf event) with
      | none => (.success, s)
      | some position =>
        let params := (Text.blankSeparated params.toList).map String.ofList
        s.carryOut owner (s.startRun owner i.state i.script position params) .block

/-- Does something while `sender` is the sender, who is then again the one from before. -/
def withSender {α : Type} (s : Session) (sender : Option EntityId) (act : Session → α × Session) :
    α × Session :=
  let (a, t) := act { s with sender }
  (a, { t with sender := s.sender })

def deliver (s : Session) (e : QueuedEvent) : Outcome × Session :=
  s.withSender e.sender fun s => s.sendEvent (some e.target) e.event e.params

/-- Takes the timer out of a slot because of something worth a report. -/
def dropTimer (s : Session) (slot : Nat) (d : Diagnostic) : Session :=
  let shared := s.engine.shared
  { s with engine := { s.engine with shared := { shared with timers := shared.timers.free slot } } }
    |>.report d

def fire (s : Session) (t : Timer) : Session :=
  match s.engine.instance? t.owner with
  | none => s
  | some i => (s.carryOut t.owner (s.startRun t.owner i.state t.script t.resumeAt []) .line).2

/-- Looks at one slot of the timer pool, and says whether its timer ran. A timer whose owner or whose
owner's script is gone is taken out. -/
def visitSlot (s : Session) (slot : Nat) : Bool × Session :=
  match s.engine.shared.timers.get? slot with
  | none => (false, s)
  | some t =>
    let owner := t.owner.map s.world.entities.get?
    match t.owner, owner with
    | some id, some none => (false, s.dropTimer slot (.timerOfRemovedEntity t.name id))
    | _, _ =>
      if (s.engine.instance? t.owner).isNone then
        (false, s.dropTimer slot (.timerWithoutScript t.name))
      else
        let idle := (owner.join.map Entity.idle).getD true
        let (fired, timers) := s.engine.shared.timers.poll slot s.world.now idle
        let s := { s with engine := { s.engine with shared := { s.engine.shared with timers } } }
        match fired with
        | none => (false, s)
        | some t => (true, s.fire t)

/-- Looks at all slots in order, and says how many timers ran. -/
def tick (s : Session) : Nat × Session :=
  (List.range s.engine.shared.timers.capacity).foldl (fun (fired, s) slot =>
    let (ran, s) := s.visitSlot slot
    (fired + ran.toNat, s)) (0, s)

def dequeue (s : Session) : Option (QueuedEvent × Session) :=
  s.world.queue[0]?.map fun e =>
    (e, { s with world := { s.world with queue := s.world.queue.extract 1 } })

def advance (s : Session) (ms : Nat) : Session :=
  { s with world := { s.world with now := s.world.now + ms } }

end Session

end EntityScript
