import EntityScript.Command

/-!
Commands about events. `sendevent` sends one event to a named entity or to all entities in reach:
within a radius, inside a zone, or in a group. `setevent` switches standard events off and on, and
`setmainevent` chooses the handler for `main`.
-/

namespace EntityScript

inductive Targets
  | radius (r : Float32)
  | zone (name : String)
  | group
  | single (name : String)

structure Dispatch where
  kinds : Kinds
  group : Option String
  targets : Targets
  event : String
  params : String

namespace Dispatch

/-- The kinds that flags ask for, and otherwise persons. -/
def kindsOf (flags : Flags) : Kinds :=
  let fixed := if flags.has 'f' then Kinds.fixed else .none
  let item := if flags.has 'i' then Kinds.item else .none
  let npc := if flags.has 'n' then Kinds.npc else .none
  let kinds := (fixed.union item).union npc
  if kinds = .none then .npc else kinds

def inGroup (d : Dispatch) (e : Entity) : Bool :=
  match d.group with
  | some group => e.inGroup group
  | none => true

def hears (d : Dispatch) (e : Entity) : Bool :=
  !e.kinds.meets .deaf && e.kinds.meets d.kinds && d.inGroup e

/-- The entities that the event reaches, in ascending order. -/
def receivers (d : Dispatch) (w : World) (sender : Entity) : Except Diagnostic (List Entity) :=
  let all := w.entities.entities
  match d.targets with
  | .radius radius =>
    .ok (all.filter fun e => e.id != sender.id && d.hears e
      && decide (e.position.distanceSquared sender.position ≤ radius * radius))
  | .zone name =>
    match ZoneMap.find? w.zones name with
    | none => .error (.unknownZone name)
    | some zone => .ok (all.filter fun e => d.hears e && zone.contains e.position)
  | .group => .ok (all.filter fun e => e.id != sender.id && d.inGroup e)
  | .single name =>
    match w.entities.find? name (some sender.id) with
    | none => .error (.unknownTarget name)
    | some e => .ok [e]

/-- Sends the event to one entity, which its sender counts. -/
def sendTo (d : Dispatch) (sender : EntityId) (w : World) (target : EntityId) : World :=
  { w with entities := w.entities.update sender Entity.countSent }.enqueue
    ⟨target, d.event, d.params, some sender⟩

def send (d : Dispatch) (w : World) (sender : Entity) : Except Diagnostic World :=
  (d.receivers w sender).map fun all => (all.map (·.id)).foldl (d.sendTo sender.id) w

end Dispatch

def isNumericOperand (word : String) : Bool :=
  Number.isNumberWord word || (Namespace.of word).isNumeric

namespace Exec

def readText : Exec String := do textOf (← readWord)

/-- Reads what `sendevent` is to do: flags, the group, the event, the zone, the radius or the name of
a target, and the parameters. The radius may stand before the event, and so may a target. -/
def readDispatch : Exec Dispatch := do
  let flags ← readFlags ['g', 'f', 'i', 'n', 'r', 'z']
  let kinds := Dispatch.kindsOf flags
  let group ← if flags.has 'g' then some <$> readText else pure none
  let event ← readWord
  let zone ← if flags.has 'z' then some <$> readText else pure none
  let (event, targets) ←
    if flags.has 'r' then do
      let word ← readWord
      let swapped := isNumericOperand event && !isNumericOperand word
      let (event, word) := if swapped then (word, event) else (event, word)
      pure (event, Targets.radius (← numberOf word))
    else
      match zone with
      | some name => pure (event, Targets.zone name)
      | none =>
        if group.isSome then pure (event, Targets.group)
        else do
          let target ← readText
          if isSystemEvent target then pure (target, Targets.single event)
          else pure (event, Targets.single target)
  let params ← readWord
  return { kinds, group, targets, event, params }

def fail (d : Diagnostic) : Exec Outcome := do
  report d
  return .failed

/-- Does something while `sender` is the sender, who is then again the one from before. -/
def withSender {α : Type} (sender : Option EntityId) (act : Exec α) : Exec α := do
  let before := (← get).sender
  modify fun r => { r with sender }
  let a ← act
  modify fun r => { r with sender := before }
  return a

def post (d : Dispatch) (sender : Entity) : Exec Outcome := do
  let r ← get
  match d.send r.world sender with
  | .error d => fail d
  | .ok world =>
    set { r with world }
    return .success

def runSendEvent : Exec Outcome := do
  let dispatch ← readDispatch
  let r ← get
  match r.owner.bind r.world.entities.get? with
  | none => fail .senderGone
  | some sender => withSender (some sender.id) (post dispatch sender)

def runSetEvent : Exec Outcome := do
  let name := Text.lowercase (← readWord)
  let on ← readSwitch
  match standardEvent? name with
  | none => fail (.unknownEvent name)
  | some event =>
    modify fun r => r.updateLeading (·.switchEvent event on)
    return .success

def runSetMainEvent : Exec Outcome := do
  let event ← readWord
  modify fun r => { r with own := r.own.setMainEvent event }
  return .success

end Exec

end EntityScript
