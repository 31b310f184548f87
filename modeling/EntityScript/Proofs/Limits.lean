import EntityScript.Proofs.Ownership
import EntityScript.Proofs.Widening

/-! Sessions with more room. Two sessions that differ in their limits only go the same way through every
history in which the tighter one reports no limit: each answers what the other answers. A run is the same
run with more room, a tick looks at more slots behind the ones it knows and finds them empty, and what is
attached later has more room from its beginning. -/

namespace EntityScript

/-- The limits of the second leave as much room or more, and all else is the same. -/
structure Config.Within (c d : Config) : Prop where
  timerPoolSize : c.timerPoolSize ≤ d.timerPoolSize
  maxGlobals : c.maxGlobals ≤ d.maxGlobals
  maxLocals : c.maxLocals ≤ d.maxLocals
  maxCallDepth : c.maxCallDepth ≤ d.maxCallDepth
  maxSteps : c.maxSteps ≤ d.maxSteps
  legacyOperators : d.legacyOperators = c.legacyOperators
  seed : d.seed = c.seed
  logLevel : d.logLevel = c.logLevel

def Config.room (c d : Config) : Room where
  timers := d.timerPoolSize - c.timerPoolSize
  globals := d.maxGlobals - c.maxGlobals
  locals := d.maxLocals - c.maxLocals
  calls := d.maxCallDepth - c.maxCallDepth
  steps := d.maxSteps - c.maxSteps

/-- The instances show the same, whatever room their tables leave. -/
structure Instance.Agrees (i j : Instance) : Prop where
  script : j.script = i.script
  master : j.master = i.master
  locals : j.state.locals.vars = i.state.locals.vars
  stopwatches : j.state.stopwatches = i.state.stopwatches
  disabled : j.state.disabled = i.state.disabled
  mainEvent : j.state.mainEvent = i.state.mainEvent

def Instance.widen (n : Nat) (i : Instance) : Instance := { i with state := i.state.widen n }

namespace Engine

/-- The second engine is the first one with more room. -/
structure Widened (w : Room) (e f : Engine) : Prop where
  maxLocals : f.config.maxLocals = e.config.maxLocals + w.locals
  maxSteps : f.config.maxSteps = e.config.maxSteps + w.steps
  commands : f.commands = e.commands
  shared : f.shared = e.shared.widen w
  instances : ∀ owner, f.instance? owner = (e.instance? owner).map (·.widen w.locals)

namespace Widened

variable {w : Room} {e f : Engine} (h : e.Widened w f)
include h

theorem links (owner : Option EntityId) :
    (f.instance? owner).map Instance.master = (e.instance? owner).map Instance.master := by
  rw [h.instances, Option.map_map]
  rfl

theorem isSome_instance? (owner : Option EntityId) :
    (f.instance? owner).isSome = (e.instance? owner).isSome := by
  rw [h.instances, Option.isSome_map]

theorem masterState? (owner : Option EntityId) :
    f.masterState? owner = (e.masterState? owner).map (·.widen w.locals) := by
  have hmaster : f.master? owner = e.master? owner := master?_congr h.links
  unfold Engine.masterState?
  rw [hmaster]
  cases e.master? owner with
  | none => rfl
  | some master =>
    change (f.instance? (some master)).map Instance.state = ((e.instance? (some master)).map Instance.state).map _
    rw [h.instances, Option.map_map, Option.map_map]
    rfl

theorem fresh (script : Script) : f.fresh script = (e.fresh script).widen w.locals := by
  unfold Engine.fresh
  rw [h.maxLocals]
  rfl

theorem attach (id : EntityId) (script : Script) : (e.attach id script).Widened w (f.attach id script) where
  maxLocals := h.maxLocals
  maxSteps := h.maxSteps
  commands := h.commands
  shared := h.shared
  instances owner := by
    rw [instance?_attach, instance?_attach, h.fresh]
    split
    · rfl
    · exact h.instances owner

theorem detach (id : EntityId) : (e.detach id).Widened w (f.detach id) where
  maxLocals := h.maxLocals
  maxSteps := h.maxSteps
  commands := h.commands
  shared := by
    have htimers : (f.shared.timers.clearOwner (some id)).2 =
        (e.shared.timers.clearOwner (some id)).2.widen w.timers := by
      rw [h.shared]
      exact TimerPool.clearWhere_widen w.timers _
    unfold Engine.detach
    dsimp only
    rw [htimers, h.shared]
    rfl
  instances owner := by
    rw [instance?_detach, instance?_detach]
    split
    · rfl
    · exact h.instances owner

theorem setMaster (id : EntityId) (master : Option EntityId) :
    (f.setMaster id master).1 = (e.setMaster id master).1 ∧
      (f.setMaster id master).2.2 = (e.setMaster id master).2.2 ∧
      (e.setMaster id master).2.1.Widened w (f.setMaster id master).2.1 := by
  have hcontains : f.instances.contains id = e.instances.contains id := h.isSome_instance? (some id)
  have hinstances : ∀ owner, (f.setMaster id master).2.1.instance? owner =
      ((e.setMaster id master).2.1.instance? owner).map (·.widen w.locals) := by
    intro owner
    rw [instance?_setMaster, instance?_setMaster, h.instances]
    split
    · rw [Option.map_map, Option.map_map]
      rfl
    · rfl
  unfold Engine.setMaster at hinstances ⊢
  rw [hcontains] at hinstances ⊢
  split_ifs at hinstances ⊢
  · exact ⟨rfl, rfl, h⟩
  · exact ⟨rfl, rfl, h.maxLocals, h.maxSteps, h.commands, h.shared, hinstances⟩
  · exact ⟨rfl, rfl, h⟩

theorem setGlobalScript (script : Script) : (e.setGlobalScript script).Widened w (f.setGlobalScript script) where
  maxLocals := h.maxLocals
  maxSteps := h.maxSteps
  commands := h.commands
  shared := h.shared
  instances owner := by
    rw [instance?_setGlobalScript, instance?_setGlobalScript, h.fresh]
    split
    · rfl
    · exact h.instances owner

end Widened

end Engine

inductive Answer
  | nothing
  /-- The link is made or not, with a complaint about what makes no sense. -/
  | linked (made : Bool) (complaint : Option Diagnostic)
  | outcome (outcome : Outcome)
  /-- As many timers ran. -/
  | fired (count : Nat)

/-- What happens in a history: something is asked of the session, or the world goes on aside from it. -/
inductive Event
  | asked (act : Act)
  | aside (change : World → World)

namespace Session

def answer (s : Session) : Act → Answer
  | .attach .. | .detach _ | .setGlobalScript .. => .nothing
  | .setMaster id master => .linked (s.engine.setMaster id master).1 (s.engine.setMaster id master).2.2
  | .sendEvent owner event params => .outcome (s.sendEvent owner event params).1
  | .deliver e => .outcome (s.deliver e).1
  | .tick => .fired s.tick.1

/-- The answers that a history brings, and the session after it. -/
def live (s : Session) : List Event → List Answer × Session
  | [] => ([], s)
  | .asked act :: events =>
    let (answers, t) := (s.after act).live events
    (s.answer act :: answers, t)
  | .aside change :: events => { s with world := change s.world }.live events

theorem live_asked (s : Session) (act : Act) (events : List Event) :
    (s.live (.asked act :: events)).2 = ((s.after act).live events).2 := rfl

structure Widened (w : Room) (s t : Session) : Prop where
  engine : s.engine.Widened w t.engine
  world : t.world = s.world
  sender : t.sender = s.sender
  journal : t.journal = s.journal

/-- What is done has the same answer with more room, and leaves the same session with more room. -/
structure Same {α : Type} (w : Room) (done done' : α × Session) : Prop where
  answer : done'.1 = done.1
  after : done.2.Widened w done'.2

theorem visitAll_append (slots more : List Nat) (fired : Nat × Session) :
    visitAll (slots ++ more) fired = visitAll more (visitAll slots fired) := List.foldl_append

/-- Empty slots are passed over. -/
theorem visitAll_empty {slots : List Nat} {s : Session} (h : ∀ slot ∈ slots, s.timers.get? slot = none) (n : Nat) :
    visitAll slots (n, s) = (n, s) := by
  induction slots with
  | nil => rfl
  | cons slot slots ih =>
    have hslot : s.visitSlot slot = (false, s) := by
      rw [visitSlot_eq, pollSlot, h slot List.mem_cons_self]
    rw [visitAll_cons, hslot]
    exact ih fun other hother => h other (List.mem_cons_of_mem slot hother)

theorem capacity_visitAll (slots : List Nat) (n : Nat) (s : Session) :
    (visitAll slots (n, s)).2.timers.capacity = s.timers.capacity := by
  obtain ⟨log, htrail, -⟩ := Moment.visits_all slots n s
  have hpath : Moment.Path (.between s slots) log (.between (visitAll slots (n, s)).2 []) :=
    htrail.mono fun _ _ _ => .worked
  exact hpath.capacity

section

/-! What is reported stays in the journal. -/

variable {s : Session} {owner : Option EntityId}

theorem unlimited_of_carryOut {r : Run} {mode : Mode} (h : (s.carryOut owner r mode).2.journal.Unlimited) :
    s.journal.Unlimited := (Journal.unlimited_append.1 h).1

theorem unlimited_of_sendEvent {event params : String} (h : (s.sendEvent owner event params).2.journal.Unlimited) :
    s.journal.Unlimited := by
  unfold sendEvent at h
  dsimp only at h
  split at h
  · exact (Journal.unlimited_report.1 h).1
  · split at h
    · exact h
    · split at h
      · exact h
      · exact unlimited_of_carryOut h

theorem unlimited_of_fire {timer : Timer} (h : (s.fire timer).journal.Unlimited) : s.journal.Unlimited := by
  unfold fire at h
  split at h
  · exact h
  · exact unlimited_of_carryOut h

theorem unlimited_of_visitSlot {slot : Nat} (h : (s.visitSlot slot).2.journal.Unlimited) : s.journal.Unlimited := by
  have hpolls := s.pollSlot_polls slot
  rw [visitSlot_eq] at h
  generalize s.pollSlot slot = polled at hpolls h
  obtain ⟨due, t⟩ := polled
  cases hpolls with
  | empty | waiting | putOff => exact h
  | dropped => exact (Journal.unlimited_report.1 h).1
  | @fired timer => exact unlimited_of_fire (s := s.withTimers (s.timers.afterRun slot timer s.world.now)) h

theorem unlimited_of_visitAll {slots : List Nat} {n : Nat} (h : (visitAll slots (n, s)).2.journal.Unlimited) :
    s.journal.Unlimited := by
  induction slots generalizing n s with
  | nil => exact h
  | cons slot slots ih => exact unlimited_of_visitSlot (ih h)

theorem unlimited_of_after {act : Act} (h : (s.after act).journal.Unlimited) : s.journal.Unlimited := by
  cases act with
  | attach | detach | setMaster | setGlobalScript => exact h
  | sendEvent => exact unlimited_of_sendEvent h
  | deliver e => exact unlimited_of_sendEvent (s := { s with sender := e.sender }) h
  | tick => exact unlimited_of_visitAll h

theorem unlimited_of_live {events : List Event} (h : (s.live events).2.journal.Unlimited) : s.journal.Unlimited := by
  induction events generalizing s with
  | nil => exact h
  | cons event events ih =>
    cases event with
    | asked act => exact unlimited_of_after (ih h)
    | aside change => exact ih (s := { s with world := change s.world }) h

end

namespace Widened

variable {w : Room} {s t : Session} (h : s.Widened w t)
include h

theorem timers : t.timers = s.timers.widen w.timers := congrArg Shared.timers h.engine.shared

theorem get?_timers (slot : Nat) : t.timers.get? slot = s.timers.get? slot := by
  rw [h.timers, TimerPool.get?_widen]

theorem report (d : Diagnostic) : (s.report d).Widened w (t.report d) :=
  ⟨h.engine, h.world, h.sender, by rw [Session.report, Session.report, h.journal]⟩

theorem withSender (sender : Option EntityId) : Widened w { s with sender } { t with sender } :=
  ⟨h.engine, h.world, rfl, h.journal⟩

theorem withEngine {e f : Engine} (hengine : e.Widened w f) :
    Widened w { s with engine := e } { t with engine := f } :=
  ⟨hengine, h.world, h.sender, h.journal⟩

theorem withTimers {p q : TimerPool} (hpool : q = p.widen w.timers) :
    (s.withTimers p).Widened w (t.withTimers q) := by
  refine h.withEngine ⟨h.engine.maxLocals, h.engine.maxSteps, h.engine.commands, ?_, fun owner => ?_⟩
  · dsimp only
    rw [hpool, h.engine.shared]
    rfl
  · cases owner with
    | none => exact h.engine.instances none
    | some id => exact h.engine.instances (some id)

theorem startRun (owner : Option EntityId) (own : ScriptState) (script : Script) (position : Nat)
    (params : List String) :
    t.startRun owner (own.widen w.locals) script position params =
      (s.startRun owner own script position params).widen w := by
  unfold Session.startRun
  rw [h.engine.masterState?, h.engine.shared, h.world, h.sender]
  rfl

theorem leftState (owner other : Option EntityId) (r : Run) (state : ScriptState) :
    t.leftState owner (r.widen w) other (state.widen w.locals) =
      (s.leftState owner r other state).widen w.locals := by
  have hleader : t.engine.leader owner = s.engine.leader owner := Engine.leader_congr h.engine.links
  unfold Session.leftState
  rw [hleader]
  split_ifs
  · rfl
  · unfold Run.widen
    cases r.master <;> rfl
  · rfl

theorem finishRun (owner : Option EntityId) (r : Run) :
    (s.finishRun owner r).Widened w (t.finishRun owner (r.widen w)) := by
  obtain ⟨hconfig, hcommands, hshared⟩ := s.engine_finishRun owner r
  obtain ⟨hconfig', hcommands', hshared'⟩ := t.engine_finishRun owner (r.widen w)
  refine ⟨⟨?_, ?_, ?_, ?_, fun other => ?_⟩, rfl, rfl, ?_⟩
  · rw [hconfig, hconfig', h.engine.maxLocals]
  · rw [hconfig, hconfig', h.engine.maxSteps]
  · rw [hcommands, hcommands', h.engine.commands]
  · rw [hshared, hshared']
    rfl
  · rw [instance?_finishRun, instance?_finishRun, h.engine.instances, Option.map_map, Option.map_map]
    refine congrArg (Option.map · _) (funext fun i => ?_)
    exact congrArg (fun state => { i with state }) (h.leftState owner other r i.state)
  · exact congrArg (Journal.append · r.journal) h.journal

theorem carryOut (owner : Option EntityId) (r : Run) (mode : Mode)
    (hlast : (s.carryOut owner r mode).2.journal.Unlimited) :
    Same w (s.carryOut owner r mode) (t.carryOut owner (r.widen w) mode) := by
  let ended := (Exec.runAll s.engine.commands s.engine.config.maxSteps mode).run r
  have hended : ended.2.journal.Unlimited := (Journal.unlimited_append.1 hlast).2
  have hwide : (Exec.runAll t.engine.commands t.engine.config.maxSteps mode).run (r.widen w) =
      (ended.1, ended.2.widen w) := by
    rw [h.engine.commands, h.engine.maxSteps, Loop.runAll_eq_finish]
    exact (Loop.finish_widen (l := { run := r, mode }) w hended).2
  have hdone : t.carryOut owner (r.widen w) mode = (ended.1, t.finishRun owner (ended.2.widen w)) := by
    rw [Session.carryOut, hwide]
  rw [hdone]
  exact ⟨rfl, h.finishRun owner ended.2⟩

theorem sendEvent (owner : Option EntityId) (event params : String)
    (hlast : (s.sendEvent owner event params).2.journal.Unlimited) :
    Same w (s.sendEvent owner event params) (t.sendEvent owner event params) := by
  have hfound := h.engine.instances owner
  unfold Session.sendEvent at hlast ⊢
  cases hi : s.engine.instance? owner with
  | none =>
    rw [hi] at hfound hlast
    rw [hfound]
    exact ⟨rfl, h.report _⟩
  | some i =>
    have hallows : ((t.engine.masterState? owner).getD (i.widen w.locals).state).allows (Text.lowercase event) =
        ((s.engine.masterState? owner).getD i.state).allows (Text.lowercase event) := by
      rw [h.engine.masterState?]
      cases s.engine.masterState? owner <;> rfl
    rw [hi] at hfound hlast
    rw [hfound]
    dsimp only [Option.map_some] at hlast ⊢
    rw [hallows]
    cases hallowed : ((s.engine.masterState? owner).getD i.state).allows (Text.lowercase event) with
    | false =>
      rw [hallowed] at hlast
      exact ⟨rfl, h⟩
    | true =>
      rw [hallowed] at hlast
      have hhandlers : (i.widen w.locals).script.findEvent?
          ((i.widen w.locals).state.handlerOf (Text.lowercase event)) =
          i.script.findEvent? (i.state.handlerOf (Text.lowercase event)) := rfl
      rw [hhandlers]
      cases hhandler : i.script.findEvent? (i.state.handlerOf (Text.lowercase event)) with
      | none =>
        rw [hhandler] at hlast
        exact ⟨rfl, h⟩
      | some position =>
        rw [hhandler] at hlast
        have hstart := h.startRun owner i.state i.script position
          ((Text.blankSeparated params.toList).map String.ofList)
        dsimp only [Instance.widen]
        rw [hstart]
        exact h.carryOut owner _ .block hlast

theorem deliver (e : QueuedEvent) (hlast : (s.deliver e).2.journal.Unlimited) :
    Same w (s.deliver e) (t.deliver e) := by
  have hsent := (h.withSender e.sender).sendEvent (some e.target) e.event e.params hlast
  refine ⟨hsent.answer, ?_⟩
  have hback := hsent.after.withSender s.sender
  unfold Session.deliver Session.withSender
  rw [h.sender]
  exact hback

theorem fire (timer : Timer) (hlast : (s.fire timer).journal.Unlimited) :
    (s.fire timer).Widened w (t.fire timer) := by
  have hfound := h.engine.instances timer.owner
  unfold Session.fire at hlast ⊢
  cases hi : s.engine.instance? timer.owner with
  | none =>
    rw [hi] at hfound hlast
    rw [hfound]
    exact h
  | some i =>
    rw [hi] at hfound hlast
    rw [hfound]
    have hstart := h.startRun timer.owner i.state timer.script timer.resumeAt []
    dsimp only [Option.map_some, Instance.widen]
    rw [hstart]
    exact (h.carryOut timer.owner _ .line hlast).after

theorem objection? (timer : Timer) : t.objection? timer = s.objection? timer := by
  have hnone : (t.engine.instance? timer.owner).isNone = (s.engine.instance? timer.owner).isNone := by
    rw [h.engine.instances, Option.isNone_map]
  unfold Session.objection?
  rw [h.world, hnone]

theorem pollSlot (slot : Nat) : Same w (s.pollSlot slot) (t.pollSlot slot) := by
  unfold Session.pollSlot
  rw [h.get?_timers]
  cases s.timers.get? slot with
  | none => exact ⟨rfl, h⟩
  | some timer =>
    dsimp only
    rw [h.objection?]
    cases s.objection? timer with
    | some d =>
      refine ⟨rfl, ?_⟩
      refine (h.withTimers (p := s.timers.free slot) ?_).report d
      rw [← TimerPool.free_widen]
      exact congrArg (TimerPool.free · slot) h.timers
    | none =>
      dsimp only
      rw [h.world, h.timers, TimerPool.poll_widen]
      exact ⟨rfl, h.withTimers rfl⟩

theorem visitSlot (slot : Nat) (hlast : (s.visitSlot slot).2.journal.Unlimited) :
    Same w (s.visitSlot slot) (t.visitSlot slot) := by
  obtain ⟨hdue, hafter⟩ := h.pollSlot slot
  rw [visitSlot_eq] at hlast ⊢
  rw [visitSlot_eq]
  rcases hs : s.pollSlot slot with ⟨due, u⟩
  rcases ht : t.pollSlot slot with ⟨due', v⟩
  rw [hs] at hlast
  rw [hs, ht] at hdue hafter
  cases hdue
  cases due with
  | none => exact ⟨rfl, hafter⟩
  | some timer => exact ⟨rfl, hafter.fire timer hlast⟩

theorem visitAll (slots : List Nat) (n : Nat) (hlast : (visitAll slots (n, s)).2.journal.Unlimited) :
    Same w (visitAll slots (n, s)) (visitAll slots (n, t)) := by
  induction slots generalizing s t n with
  | nil => exact ⟨rfl, h⟩
  | cons slot slots ih =>
    rw [visitAll_cons] at hlast ⊢
    rw [visitAll_cons]
    have hfirst := h.visitSlot slot (unlimited_of_visitAll hlast)
    rw [hfirst.answer]
    exact ih hfirst.after _ hlast

/-- The slots that are added to a pool are empty, and stay so through a tick. -/
theorem tick (hlast : s.tick.2.journal.Unlimited) : Same w s.tick t.tick := by
  obtain ⟨hcount, hafter⟩ := h.visitAll (List.range s.timers.capacity) 0 hlast
  have hempty : ∀ slot ∈ (List.range w.timers).map (s.timers.capacity + ·),
      (Session.visitAll (List.range s.timers.capacity) (0, t)).2.timers.get? slot = none := by
    intro slot hslot
    obtain ⟨i, -, rfl⟩ := List.mem_map.1 hslot
    -- the pools hold the same, and the first one has no such slot
    rw [hafter.get?_timers]
    cases hheld : (Session.visitAll (List.range s.timers.capacity) (0, s)).2.timers.get? (s.timers.capacity + i) with
    | none => rfl
    | some timer =>
      have hlt := TimerPool.lt_capacity_of_get? hheld
      rw [capacity_visitAll] at hlt
      omega
  have hmore : t.tick = Session.visitAll (List.range s.timers.capacity) (0, t) := by
    rw [tick_eq, h.timers, TimerPool.capacity_widen, List.range_add, visitAll_append]
    exact visitAll_empty hempty _
  rw [hmore]
  exact ⟨hcount, hafter⟩

theorem act (act : Act) (hlast : (s.after act).journal.Unlimited) :
    Same w (s.answer act, s.after act) (t.answer act, t.after act) := by
  cases act with
  | attach id name text => exact ⟨rfl, h.withEngine (h.engine.attach id _)⟩
  | detach id => exact ⟨rfl, h.withEngine (h.engine.detach id)⟩
  | setMaster id master =>
    obtain ⟨haccepted, hcomplaint, hengine⟩ := h.engine.setMaster id master
    refine ⟨?_, h.withEngine hengine⟩
    simp only [Session.answer, haccepted, hcomplaint]
  | setGlobalScript name text => exact ⟨rfl, h.withEngine (h.engine.setGlobalScript _)⟩
  | sendEvent owner event params =>
    obtain ⟨houtcome, hafter⟩ := h.sendEvent owner event params hlast
    exact ⟨congrArg Answer.outcome houtcome, hafter⟩
  | deliver e =>
    obtain ⟨houtcome, hafter⟩ := h.deliver e hlast
    exact ⟨congrArg Answer.outcome houtcome, hafter⟩
  | tick =>
    obtain ⟨hcount, hafter⟩ := h.tick hlast
    exact ⟨congrArg Answer.fired hcount, hafter⟩

theorem live (events : List Event) (hlast : (s.live events).2.journal.Unlimited) :
    Same w (s.live events) (t.live events) := by
  induction events generalizing s t with
  | nil => exact ⟨rfl, h⟩
  | cons event events ih =>
    cases event with
    | aside change =>
      have hchanged : Session.Widened w { s with world := change s.world } { t with world := change t.world } :=
        ⟨h.engine, congrArg change h.world, h.sender, h.journal⟩
      exact ih hchanged hlast
    | asked act =>
      have hact := h.act act (unlimited_of_live hlast)
      have hmore := ih hact.after hlast
      exact ⟨congrArg₂ List.cons hact.answer hmore.answer, hmore.after⟩

end Widened

def opening (c : Config) (seed : Nat) (table : CommandTable) (world : World) : Session :=
  { engine := { Engine.new c seed with commands := table }, world }

theorem opening_widened {c d : Config} (h : c.Within d) (seed : Nat) (table : CommandTable) (world : World) :
    (opening c seed table world).Widened (c.room d) (opening d seed table world) := by
  have hglobals : (VariableTable.withCapacity c.maxGlobals).widen (c.room d).globals =
      .withCapacity d.maxGlobals :=
    congrArg VariableTable.withCapacity (Nat.add_sub_of_le h.maxGlobals)
  have htimers : (TimerPool.withCapacity c.timerPoolSize).widen (c.room d).timers = .withCapacity d.timerPoolSize :=
    (TimerPool.widen_withCapacity _ _).trans
      (congrArg TimerPool.withCapacity (Nat.add_sub_of_le h.timerPoolSize))
  have hcalls : c.maxCallDepth + (c.room d).calls = d.maxCallDepth := Nat.add_sub_of_le h.maxCallDepth
  have hshared : (Engine.new d seed).shared = (Engine.new c seed).shared.widen (c.room d) := by
    simp only [Engine.new, Shared.widen, hglobals, htimers, hcalls, h.seed]
  refine ⟨⟨?_, ?_, rfl, hshared, fun owner => by cases owner <;> rfl⟩, rfl, rfl, rfl⟩
  · exact (Nat.add_sub_of_le h.maxLocals).symm
  · exact (Nat.add_sub_of_le h.maxSteps).symm

/-- The sessions show the same, whatever room their limits leave. -/
structure Agrees (s t : Session) : Prop where
  world : t.world = s.world
  sender : t.sender = s.sender
  journal : t.journal = s.journal
  random : t.engine.shared.random = s.engine.shared.random
  globals : t.engine.shared.globals.vars = s.engine.shared.globals.vars
  timers : ∀ slot, t.timers.get? slot = s.timers.get? slot
  active : t.timers.active = s.timers.active
  scripts : ∀ owner, Option.Rel Instance.Agrees (s.engine.instance? owner) (t.engine.instance? owner)

theorem Widened.agrees {w : Room} {s t : Session} (h : s.Widened w t) : s.Agrees t where
  world := h.world
  sender := h.sender
  journal := h.journal
  random := by rw [h.engine.shared]; rfl
  globals := by rw [h.engine.shared]; rfl
  timers := h.get?_timers
  active := by rw [h.timers]; rfl
  scripts owner := by
    rw [h.engine.instances]
    cases s.engine.instance? owner with
    | none => exact .none
    | some i => exact .some ⟨rfl, rfl, rfl, rfl, rfl, rfl⟩

/-- Limits count only when they are reached. In every history in which a new engine never reports that its
pool of timers or a table of variables is full, that calls are too deep or that a run is out of steps,
another one, whose limits leave as much room or more, gives the same answers. After it the same events are
queued, the same is in the variables, the states of scripts and the journal, the same timers are in the same
slots, and the same random numbers will follow. -/
theorem limits_leave_no_trace {c d : Config} (hwithin : c.Within d) (seed : Nat) (table : CommandTable)
    (world : World) (events : List Event)
    (hunlimited : ((opening c seed table world).live events).2.journal.Unlimited) :
    ((opening d seed table world).live events).1 = ((opening c seed table world).live events).1 ∧
      ((opening c seed table world).live events).2.Agrees ((opening d seed table world).live events).2 := by
  obtain ⟨hanswers, hafter⟩ := (opening_widened hwithin seed table world).live events hunlimited
  exact ⟨hanswers, hafter.agrees⟩

end Session

def modest : Config := { timerPoolSize := 1, maxGlobals := 1, maxLocals := 0, maxCallDepth := 1, maxSteps := 3 }

def ample : Config := { timerPoolSize := 3, maxGlobals := 8, maxLocals := 2, maxCallDepth := 5, maxSteps := 99 }

theorem modest_within : modest.Within ample := by
  constructor <;> decide

def clerkText : String := "on note\n\x7b\ngosub file\n\x7d\n>>file\nset $last done\nreturn\n"

def clerk : Instance where
  script := .ofText "clerk" clerkText
  state := .fresh 0

def clerkTable : CommandTable where
  commands := ((Dict.empty.set "gosub" (.jump true)).set "return" .comeBack).set "set" .assign

def officeDay : List Event :=
  [.asked (.attach 1 "clerk" clerkText), .asked (.sendEvent (some 1) "note" ""), .asked .tick]

def office : Session := .opening modest 0 clerkTable {}

def staffed : Session := office.after (.attach 1 "clerk" clerkText)

theorem staffed_handles : staffed.Handles (some 1) "note" clerk 7 :=
  .of_isLower (by decide) rfl (by decide) (by decide +kernel)

def closed : Session := (staffed.carryOut (some 1) (staffed.handlerRun (some 1) clerk 7 "") .block).2.after .tick

theorem office_closed : (office.live officeDay).2 = closed := by
  have hsent : staffed.after (.sendEvent (some 1) "note" "") =
      (staffed.carryOut (some 1) (staffed.handlerRun (some 1) clerk 7 "") .block).2 := by
    rw [Session.after, staffed_handles.sendEvent_eq]
  rw [officeDay, Session.live_asked, ← staffed, Session.live_asked, hsent, Session.live_asked, ← closed,
    Session.live]

theorem closed_shows :
    closed.journal.diagnostics.size = 0 ∧ closed.journal.notes.size = 0 ∧
      (closed.engine.shared.globals.vars.get? "$last").map Variable.toText = some "done" := by decide +kernel

/-- The modest office reports no limit. So the ample one answers alike, and notes the same. -/
theorem limits_leave_no_trace_office :
    let ampleDay := (Session.opening ample 0 clerkTable {}).live officeDay
    modest.Within ample ∧ (office.live officeDay).2.journal.Unlimited ∧
      ampleDay.1 = (office.live officeDay).1 ∧
      (ampleDay.2.engine.shared.globals.vars.get? "$last").map Variable.toText = some "done" := by
  intro ampleDay
  obtain ⟨hdiagnostics, hnotes, hlast⟩ := closed_shows
  have hunlimited : (office.live officeDay).2.journal.Unlimited := by
    rw [office_closed]
    exact .of_empty (Array.eq_empty_of_size_eq_zero hdiagnostics) (Array.eq_empty_of_size_eq_zero hnotes)
  obtain ⟨hanswers, hagrees⟩ := Session.limits_leave_no_trace modest_within 0 clerkTable {} officeDay hunlimited
  refine ⟨modest_within, hunlimited, hanswers, ?_⟩
  rw [hagrees.globals, ← office, office_closed]
  exact hlast

end EntityScript
