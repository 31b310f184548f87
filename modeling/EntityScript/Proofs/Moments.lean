import EntityScript.Proofs.Budget
import EntityScript.Proofs.Deeds
import EntityScript.Proofs.Handlers

/-! A session moment by moment. A call of a session is a path of small steps: runs take turns, and a
tick goes from slot to slot. What holds of every step therefore holds throughout every history, also
while a run is on its way or a tick half done. `path_act` says that the paths are those of the calls. -/

namespace EntityScript

inductive Act
  | attach (id : EntityId) (name text : String)
  | detach (id : EntityId)
  | setMaster (id : EntityId) (master : Option EntityId)
  | setGlobalScript (name text : String)
  | sendEvent (owner : Option EntityId) (event params : String)
  | deliver (e : QueuedEvent)
  | tick

/-- Scripts are asked to run, and nothing is attached, detached or linked. -/
def Act.AsksScripts : Act → Prop
  | sendEvent .. | deliver _ | tick => True
  | _ => False

namespace Session

def after (s : Session) : Act → Session
  | .attach id name text => { s with engine := s.engine.attach id (.ofText name text) }
  | .detach id => { s with engine := s.engine.detach id }
  | .setMaster id master => { s with engine := (s.engine.setMaster id master).2.1 }
  | .setGlobalScript name text => { s with engine := s.engine.setGlobalScript (.ofText name text) }
  | .sendEvent owner event params => (s.sendEvent owner event params).2
  | .deliver e => (s.deliver e).2
  | .tick => s.tick.2

def timers (s : Session) : TimerPool := s.engine.shared.timers

def withTimers (s : Session) (timers : TimerPool) : Session :=
  { s with engine := { s.engine with shared := { s.engine.shared with timers } } }

/-- The owner is there to be served: alive, if it is an entity, and with a script. -/
def Present (s : Session) (owner : Option EntityId) : Prop :=
  (∀ id, owner = some id → (s.world.entities.get? id).isSome = true) ∧
    (s.engine.instance? owner).isSome = true

/-- An event that no handler takes does nothing to the engine. -/
theorem engine_sendEvent {s : Session} {owner : Option EntityId} {event : String}
    (h : ∀ i position, ¬s.Handles owner event i position) (params : String) :
    (s.sendEvent owner event params).2.engine = s.engine := by
  rcases s.sendEvent_cases owner event params with ⟨outcome, journal, hquiet⟩ | ⟨i, position, hhandles, -⟩
  · rw [hquiet]
  · exact absurd hhandles (h i position)

/-- The state that a run for the owner leaves a script in: its own one, or the one of the script that
keeps the stopwatches and the switched-off events for it. -/
def leftState (s : Session) (owner : Option EntityId) (r : Run) (other : Option EntityId)
    (state : ScriptState) : ScriptState :=
  if other = owner then r.own else if other = s.engine.leader owner then r.master.getD state else state

theorem instance?_withOwn (s : Session) (owner other : Option EntityId) (r : Run) :
    (s.withOwn owner r).instance? other =
      (s.engine.instance? other).map fun i => { i with state := if other = owner then r.own else i.state } := by
  have hshared : Engine.instance? { s.engine with shared := r.shared } other = s.engine.instance? other := by
    cases other <;> rfl
  rw [withOwn, Engine.instance?_updateState, hshared]
  by_cases ho : owner = other
  · simp [ho]
  · simp [ho, Ne.symm ho]

/-- What a run leaves is in the states of scripts. The scripts and their links are those from before. -/
theorem instance?_finishRun (s : Session) (owner other : Option EntityId) (r : Run) :
    (s.finishRun owner r).engine.instance? other =
      (s.engine.instance? other).map fun i => { i with state := s.leftState owner r other i.state } := by
  have hown := s.instance?_withOwn owner other r
  cases hmaster : s.engine.master? owner with
  | none =>
    have hleader : s.engine.leader owner = owner := by rw [Engine.leader, hmaster, Option.none_or]
    have hengine : (s.finishRun owner r).engine = s.withOwn owner r := by
      rw [finishRun, hmaster]
      rfl
    rw [hengine, hown]
    unfold leftState
    rw [hleader]
    by_cases ho : other = owner
    · simp [ho]
    · simp [ho]
  | some master =>
    obtain ⟨hother, -⟩ := Engine.stateOf?_master hmaster
    have hleader : s.engine.leader owner = some master := by rw [Engine.leader, hmaster, Option.some_or]
    unfold leftState
    rw [hleader]
    cases hr : r.master with
    | none =>
      have hengine : (s.finishRun owner r).engine = s.withOwn owner r := by
        rw [finishRun, hmaster, hr]
        rfl
      rw [hengine, hown]
      simp
    | some state =>
      have hengine : (s.finishRun owner r).engine =
          (s.withOwn owner r).updateState (some master) fun _ => state := by
        rw [finishRun, hmaster, hr]
        rfl
      rw [hengine, Engine.instance?_updateState, hown]
      by_cases hled : some master = other
      · subst hled
        simp [hother.symm]
      · simp [hled, Ne.symm hled]

theorem script_finishRun (s : Session) (owner other : Option EntityId) (r : Run) :
    ((s.finishRun owner r).engine.instance? other).map Instance.script =
      (s.engine.instance? other).map Instance.script := by
  rw [instance?_finishRun, Option.map_map]
  rfl

/-- A run leaves what all scripts share, and neither the options nor the commands of the engine. -/
theorem engine_finishRun (s : Session) (owner : Option EntityId) (r : Run) :
    (s.finishRun owner r).engine.config = s.engine.config ∧
      (s.finishRun owner r).engine.commands = s.engine.commands ∧
      (s.finishRun owner r).engine.shared = r.shared := by
  have hupdate : ∀ (e : Engine) (owner : Option EntityId) (change : ScriptState → ScriptState),
      (e.updateState owner change).config = e.config ∧ (e.updateState owner change).commands = e.commands ∧
        (e.updateState owner change).shared = e.shared := by
    intro e owner change
    cases owner <;> exact ⟨rfl, rfl, rfl⟩
  unfold finishRun
  dsimp only
  split
  · simp only [hupdate, and_self]
  · simp only [hupdate, and_self]

/-- Why a timer is taken out of its slot before it can run. -/
def objection? (s : Session) (t : Timer) : Option Diagnostic :=
  match t.owner.filter fun id => (s.world.entities.get? id).isNone with
  | some id => some (.timerOfRemovedEntity t.name id)
  | none => if (s.engine.instance? t.owner).isNone then some (.timerWithoutScript t.name) else none

/-- Looks at one slot of the pool: the timer in it that is now to run, and the session before it does. -/
def pollSlot (s : Session) (slot : Nat) : Option Timer × Session :=
  match s.timers.get? slot with
  | none => (none, s)
  | some t =>
    match s.objection? t with
    | some d => (none, s.dropTimer slot d)
    | none =>
      let idle := ((t.owner.bind s.world.entities.get?).map Entity.idle).getD true
      let polled := s.timers.poll slot s.world.now idle
      (polled.1, s.withTimers polled.2)

theorem objection?_eq_none_iff {s : Session} {t : Timer} : s.objection? t = none ↔ s.Present t.owner := by
  unfold objection? Present
  cases t.owner with
  | none => simp [Option.isSome_iff_ne_none]
  | some id => cases hget : s.world.entities.get? id <;> simp [Option.filter, hget, Option.isSome_iff_ne_none]

theorem visit_of_poll (s : Session) (slot : Nat) (idle : Bool) :
    (match s.engine.shared.timers.poll slot s.world.now idle with
      | (fired, timers) =>
        match fired with
        | none => (false, s.withTimers timers)
        | some t => (true, (s.withTimers timers).fire t)) =
      match ((s.timers.poll slot s.world.now idle).1, s.withTimers (s.timers.poll slot s.world.now idle).2) with
      | (none, t) => (false, t)
      | (some timer, t) => (true, t.fire timer) := by
  unfold timers
  generalize s.engine.shared.timers.poll slot s.world.now idle = polled
  obtain ⟨_ | fired, timers⟩ := polled <;> rfl

/-- A visit of a slot is a look at it, and then the statement of the timer that is to run. -/
theorem visitSlot_eq (s : Session) (slot : Nat) :
    s.visitSlot slot =
      match s.pollSlot slot with
      | (none, t) => (false, t)
      | (some timer, t) => (true, t.fire timer) := by
  unfold visitSlot pollSlot objection?
  unfold timers
  cases s.engine.shared.timers.get? slot with
  | none => rfl
  | some t =>
    obtain ⟨name, script, owner, times, period, resumeAt, started, idleOnly⟩ := t
    dsimp only
    cases hscript : (s.engine.instance? owner).isNone with
    | true =>
      cases owner with
      | none => rfl
      | some id => cases hget : s.world.entities.get? id <;> simp [Option.filter, hget]
    | false =>
      cases owner with
      | none => exact s.visit_of_poll slot _
      | some id =>
        cases hget : s.world.entities.get? id with
        | none => simp [Option.filter, hget]
        | some entity =>
          simp only [Option.map_some, Option.filter, Option.bind_some, hget, Option.isNone_some,
            Bool.false_eq_true, if_false]
          exact s.visit_of_poll slot _

/-- A look at slots one after another, which counts the timers that run. -/
def visitAll (slots : List Nat) (fired : Nat × Session) : Nat × Session :=
  slots.foldl (fun (fired, s) slot =>
    let (ran, s) := s.visitSlot slot
    (fired + ran.toNat, s)) fired

theorem tick_eq (s : Session) : s.tick = visitAll (List.range s.timers.capacity) (0, s) := rfl

theorem visitAll_cons (slot : Nat) (slots : List Nat) (n : Nat) (s : Session) :
    visitAll (slot :: slots) (n, s) = visitAll slots (n + (s.visitSlot slot).1.toNat, (s.visitSlot slot).2) := rfl

inductive Polls (s : Session) (slot : Nat) : Option Timer → Session → Prop
  | empty (h : s.timers.get? slot = none) : Polls s slot none s
  | dropped {t : Timer} (h : s.timers.get? slot = some t) (hgone : ¬s.Present t.owner) (d : Diagnostic) :
    Polls s slot none (s.dropTimer slot d)
  | waiting {t : Timer} (h : s.timers.get? slot = some t) (hpresent : s.Present t.owner)
    (hdue : t.isDue s.world.now = false) : Polls s slot none s
  /-- The timer is due, but its owner is busy. -/
  | putOff {t : Timer} (h : s.timers.get? slot = some t) (hpresent : s.Present t.owner)
    (hdue : t.isDue s.world.now = true) :
    Polls s slot none
      (s.withTimers (s.timers.put slot (some { t with started := s.world.now }) s.timers.active))
  | fired {t : Timer} (h : s.timers.get? slot = some t) (hpresent : s.Present t.owner)
    (hdue : t.isDue s.world.now = true) :
    Polls s slot (some t) (s.withTimers (s.timers.afterRun slot t s.world.now))

theorem pollSlot_polls (s : Session) (slot : Nat) : s.Polls slot (s.pollSlot slot).1 (s.pollSlot slot).2 := by
  unfold pollSlot
  cases hslot : s.timers.get? slot with
  | none => exact .empty hslot
  | some t =>
    dsimp only
    cases hobjection : s.objection? t with
    | some d =>
      refine .dropped hslot (fun hpresent => ?_) d
      rw [objection?_eq_none_iff.2 hpresent] at hobjection
      cases hobjection
    | none =>
      have hpresent := objection?_eq_none_iff.1 hobjection
      dsimp only
      generalize ((t.owner.bind s.world.entities.get?).map Entity.idle).getD true = idle
      cases hdue : t.isDue s.world.now with
      | false =>
        rw [TimerPool.poll_waiting hslot hdue]
        exact .waiting hslot hpresent hdue
      | true =>
        cases hbusy : t.idleOnly && !idle with
        | true =>
          rw [TimerPool.poll_busy hslot hdue hbusy]
          exact .putOff hslot hpresent hdue
        | false =>
          rw [TimerPool.poll_due hslot hdue hbusy]
          exact .fired hslot hpresent hdue

end Session

/-- A session between two calls or in the middle of one. -/
inductive Moment
  /-- No run is on its way. A tick still has the slots to look at; none are left between two calls. -/
  | between (s : Session) (slots : List Nat)
  /-- A run is on its way in the session, with `left` steps left. -/
  | running (s : Session) (slots : List Nat) (l : Loop) (left : Nat)

/-- What a step does that is worth to be known later. -/
inductive Incident
  /-- The timer in the slot came due, and its statement begins. -/
  | fired (slot : Nat) (t : Timer)
  /-- A run is about to carry out a timer command, and has read its word. -/
  | ordered (r : Run)
  | detached (id : EntityId)

namespace Moment

/-- The engine as it is, or as it was when the run that is on its way began. -/
def engine : Moment → Engine
  | between s _ => s.engine
  | running s _ _ _ => s.engine

def afterRun (s : Session) (slots : List Nat) (r : Run) : Moment := between (s.finishRun r.owner r) slots

def onFiring (s : Session) (slots : List Nat) (t : Timer) : Moment :=
  match s.engine.instance? t.owner with
  | none => between s slots
  | some i =>
    running s slots (.begin (s.startRun t.owner i.state t.script t.resumeAt []) .line)
      s.engine.config.maxSteps

/-- The next step of a call, unless the call is over. -/
def work : Moment → Option (Option Incident × Moment)
  | between _ [] => none
  | between s (slot :: slots) =>
    match s.pollSlot slot with
    | (none, t) => some (none, between t slots)
    | (some timer, t) => some (some (.fired slot timer), onFiring t slots timer)
  | running s slots l left =>
    match l.turn with
    | .ended rest => some (none, afterRun s slots (l.run.readTo rest))
    | .passed next => some (none, running s slots next left)
    | .met word rest =>
      match left with
      | 0 =>
        let failure := Failure.outOfSteps s.engine.config.maxSteps
        some (none, afterRun s slots ((Exec.abort failure).run (l.run.readTo rest)).2)
      | left + 1 =>
        let (outcome, next) := l.carryOut s.engine.commands word rest
        let incident := (Exec.order? s.engine.commands word (l.run.readTo rest)).map Incident.ordered
        some (incident, if outcome.isAbort then afterRun s slots next.run else running s slots next left)

def Work (m : Moment) (incident : Option Incident) (next : Moment) : Prop := m.work = some (incident, next)

/-- The steps of a history: those within calls, and the calls between which the world goes on. -/
inductive Step : Moment → Option Incident → Moment → Prop
  /-- Between two calls anything may happen, but not to the engine. -/
  | aside {s t : Session} (h : t.engine = s.engine) : Step (between s []) none (between t [])
  | attached (s : Session) (id : EntityId) (name text : String) :
    Step (between s []) none (between (s.after (.attach id name text)) [])
  | detached (s : Session) (id : EntityId) :
    Step (between s []) (some (.detached id)) (between (s.after (.detach id)) [])
  | linked (s : Session) (id : EntityId) (master : Option EntityId) :
    Step (between s []) none (between (s.after (.setMaster id master)) [])
  | globalSet (s : Session) (name text : String) :
    Step (between s []) none (between (s.after (.setGlobalScript name text)) [])
  | sent {s : Session} {owner : Option EntityId} {event : String} {i : Instance} {position : Nat}
    (h : s.Handles owner event i position) (params : String) :
    Step (between s []) none
      (running s [] (.begin (s.handlerRun owner i position params) .block) s.engine.config.maxSteps)
  | ticked (s : Session) : Step (between s []) none (between s (List.range s.timers.capacity))
  | worked {m next : Moment} {incident : Option Incident} (h : Work m incident next) :
    Step m incident next

/-- The steps of a history in which nothing is attached, detached or linked. -/
inductive Serves : Moment → Option Incident → Moment → Prop
  | aside {s t : Session} (h : t.engine = s.engine) : Serves (between s []) none (between t [])
  | sent {s : Session} {owner : Option EntityId} {event : String} {i : Instance} {position : Nat}
    (h : s.Handles owner event i position) (params : String) :
    Serves (between s []) none
      (running s [] (.begin (s.handlerRun owner i position params) .block) s.engine.config.maxSteps)
  | ticked (s : Session) : Serves (between s []) none (between s (List.range s.timers.capacity))
  | worked {m next : Moment} {incident : Option Incident} (h : Work m incident next) : Serves m incident next

theorem Serves.step {m next : Moment} {incident : Option Incident} (h : Serves m incident next) :
    Step m incident next := by
  cases h with
  | aside h => exact .aside h
  | sent h params => exact .sent h params
  | ticked s => exact .ticked s
  | worked h => exact .worked h

/-- Steps one after another, with what they let be known. -/
inductive Trail (step : Moment → Option Incident → Moment → Prop) : Moment → List Incident → Moment → Prop
  | nil (m : Moment) : Trail step m [] m
  | cons {m next last : Moment} {incident : Option Incident} {log : List Incident}
    (h : step m incident next) (hmore : Trail step next log last) :
    Trail step m (incident.toList ++ log) last

abbrev Path : Moment → List Incident → Moment → Prop := Trail Step

namespace Trail

variable {step : Moment → Option Incident → Moment → Prop} {m next last : Moment}
  {incident : Option Incident} {log log' : List Incident}

theorem single (h : step m incident next) : Trail step m incident.toList next := by
  simpa using cons h (nil next)

/-- A step of which nothing is known later. -/
theorem quiet (h : step m none next) (hmore : Trail step next log last) : Trail step m log last :=
  cons h hmore

theorem known {known : Incident} (h : step m (some known) next) (hmore : Trail step next log last) :
    Trail step m (known :: log) last :=
  cons h hmore

theorem trans (h : Trail step m log next) (h' : Trail step next log' last) :
    Trail step m (log ++ log') last := by
  induction h with
  | nil => exact h'
  | cons hstep _ ih =>
    rw [List.append_assoc]
    exact .cons hstep (ih h')

theorem mono {step' : Moment → Option Incident → Moment → Prop}
    (hmono : ∀ m incident next, step m incident next → step' m incident next)
    (h : Trail step m log next) : Trail step' m log next := by
  induction h with
  | nil => exact .nil _
  | cons hstep _ ih => exact .cons (hmono _ _ _ hstep) ih

/-- What every step keeps is kept. -/
theorem keeps {kept : Moment → Prop} (h : Trail step m log next)
    (hkeep : ∀ m incident next, step m incident next → kept m → kept next) (hm : kept m) : kept next := by
  induction h with
  | nil => exact hm
  | cons hstep _ ih => exact ih (hkeep _ _ _ hstep hm)

/-- Of what is known of the steps, each was done by one of them. -/
theorem split {before after : List Incident} {known : Incident}
    (h : Trail step m log last) (hlog : log = before ++ known :: after) :
    ∃ m' next', Trail step m before m' ∧ step m' (some known) next' ∧ Trail step next' after last := by
  induction h generalizing before with
  | nil => cases before <;> cases hlog
  | @cons m next last incident log hstep hmore ih =>
    cases incident with
    | none =>
      obtain ⟨m', next', hbefore, hknown, hafter⟩ := ih hlog
      exact ⟨m', next', .cons hstep hbefore, hknown, hafter⟩
    | some found =>
      cases before with
      | nil =>
        cases hlog
        exact ⟨m, next, .nil m, hstep, hmore⟩
      | cons first before =>
        rw [Option.toList_some, List.cons_append, List.nil_append, List.cons_append, List.cons.injEq] at hlog
        obtain ⟨rfl, hlog⟩ := hlog
        obtain ⟨m', next', hbefore, hknown, hafter⟩ := ih hlog
        exact ⟨m', next', .cons hstep hbefore, hknown, hafter⟩

end Trail

inductive Worked : Moment → Option Incident → Moment → Prop
  | looked {s t : Session} {slot : Nat} {slots : List Nat} (h : s.Polls slot none t) :
    Worked (between s (slot :: slots)) none (between t slots)
  | fired {s t : Session} {slot : Nat} {slots : List Nat} {timer : Timer} {i : Instance}
    (h : s.Polls slot (some timer) t) (hfound : t.engine.instance? timer.owner = some i) :
    Worked (between s (slot :: slots)) (some (.fired slot timer))
      (running t slots (.begin (t.startRun timer.owner i.state timer.script timer.resumeAt []) .line)
        t.engine.config.maxSteps)
  | passed {s : Session} {slots : List Nat} {l next : Loop} {left : Nat} (h : l.turn = .passed next) :
    Worked (running s slots l left) none (running s slots next left)
  /-- The run ends where it may, or for want of steps. -/
  | ended {s : Session} {slots : List Nat} {l : Loop} {left : Nat} {rest : List Char}
    (h : rest <:+ l.run.rest) (journal : Journal) :
    Worked (running s slots l left) none (afterRun s slots { l.run.readTo rest with journal })
  | carried {s : Session} {slots : List Nat} {l next : Loop} {left : Nat} {word : String}
    {rest : List Char} {outcome : Outcome} (h : l.turn = .met word rest)
    (hcarry : l.carryOut s.engine.commands word rest = (outcome, next)) :
    Worked (running s slots l (left + 1))
      ((Exec.order? s.engine.commands word (l.run.readTo rest)).map .ordered) (running s slots next left)
  | stopped {s : Session} {slots : List Nat} {l next : Loop} {left : Nat} {word : String}
    {rest : List Char} {outcome : Outcome} (h : l.turn = .met word rest)
    (hcarry : l.carryOut s.engine.commands word rest = (outcome, next)) :
    Worked (running s slots l (left + 1))
      ((Exec.order? s.engine.commands word (l.run.readTo rest)).map .ordered) (afterRun s slots next.run)

theorem rest_of_ended {l : Loop} {rest : List Char} (h : l.turn = .ended rest) : rest <:+ l.run.rest := by
  unfold Loop.turn at h
  dsimp only at h
  split_ifs at h <;> cases h
  · exact List.suffix_refl _
  all_goals exact Reading.readCommand_suffix _

theorem rest_of_met {l : Loop} {word : String} {rest : List Char} (h : l.turn = .met word rest) :
    rest <:+ l.run.rest := by
  have hsuffix := Reading.readCommand_suffix l.run.rest
  rwa [(Loop.eq_of_met h).1] at hsuffix

/-- The statement of a timer that is to run does run: its script is attached. -/
theorem instance?_of_polls {s t : Session} {slot : Nat} {timer : Timer}
    (h : s.Polls slot (some timer) t) : ∃ i, t.engine.instance? timer.owner = some i := by
  cases h with
  | fired _ hpresent => exact Option.isSome_iff_exists.1 hpresent.2

theorem Work.worked {m next : Moment} {incident : Option Incident} (h : Work m incident next) :
    Worked m incident next := by
  unfold Work work at h
  split at h
  · cases h
  · rename_i s slot slots
    have hpolls := s.pollSlot_polls slot
    generalize s.pollSlot slot = polled at h hpolls
    obtain ⟨timer?, t⟩ := polled
    cases timer? with
    | none =>
      cases h
      exact .looked hpolls
    | some timer =>
      obtain ⟨i, hfound⟩ := instance?_of_polls hpolls
      simp only [onFiring, hfound] at h
      cases h
      exact .fired hpolls hfound
  · rename_i s slots l left
    split at h
    · rename_i rest hturn
      cases h
      exact .ended (rest_of_ended hturn) _
    · rename_i hturn
      cases h
      exact .passed hturn
    · rename_i word rest hturn
      split at h
      · cases h
        exact .ended (rest_of_met hturn) _
      · generalize hcarry : l.carryOut s.engine.commands word rest = carried at h
        obtain ⟨outcome, next⟩ := carried
        cases hstop : outcome.isAbort with
        | true =>
          simp only [hstop, if_true] at h
          cases h
          exact .stopped hturn hcarry
        | false =>
          simp only [hstop] at h
          cases h
          exact .carried hturn hcarry

def firings (log : List Incident) : List (Nat × Timer) :=
  log.filterMap fun
    | .fired slot t => some (slot, t)
    | _ => none

theorem firings_append (log log' : List Incident) : firings (log ++ log') = firings log ++ firings log' :=
  List.filterMap_append

theorem firings_ordered (order : Option Run) : firings (order.map Incident.ordered).toList = [] := by
  cases order <;> rfl

end Moment

theorem Loop.keeps_readTo (l : Loop) (rest : List Char) : Exec.Keeps l.run (l.run.readTo rest) :=
  ⟨rfl, rfl, rfl, rfl, rfl, rfl⟩

theorem Loop.Runs.keeps {table : CommandTable} {limit left : Nat} {l : Loop} {words : List String}
    {result : Outcome × Run} (h : Loop.Runs table limit left l words result) :
    Exec.Keeps l.run result.2 := by
  induction h with
  | ended => exact keeps_readTo _ _
  | passed h _ ih =>
    rw [run_of_passed h] at ih
    exact (keeps_readTo _ _).trans ih
  | @spent l _ rest => exact ⟨rfl, rfl, rfl, rfl, rfl, rfl⟩
  | stopped _ hcarry => exact (keeps_readTo _ _).trans (effect_of_carryOut hcarry).keeps
  | carried _ hcarry _ _ ih => exact ((keeps_readTo _ _).trans (effect_of_carryOut hcarry).keeps).trans ih

/-- A run keeps to its end what no command changes. -/
theorem Loop.keeps_finish (table : CommandTable) (limit left : Nat) (l : Loop) :
    Exec.Keeps l.run (l.finish table limit left).2 := by
  obtain ⟨words, hruns, -⟩ := Loop.runs_finish table limit left l
  exact hruns.keeps

namespace Moment

theorem work_of_ended {l : Loop} {rest : List Char} (hturn : l.turn = .ended rest) (s : Session)
    (slots : List Nat) (left : Nat) :
    Work (running s slots l left) none (afterRun s slots (l.run.readTo rest)) := by
  rw [Work, work, hturn]

theorem work_of_met {s : Session} {l next : Loop} {word : String} {rest : List Char} {outcome : Outcome}
    (hturn : l.turn = .met word rest) (hcarry : l.carryOut s.engine.commands word rest = (outcome, next))
    (slots : List Nat) (left : Nat) :
    Work (running s slots l (left + 1))
      ((Exec.order? s.engine.commands word (l.run.readTo rest)).map .ordered)
      (if outcome.isAbort then afterRun s slots next.run else running s slots next left) := by
  rw [Work, work, hturn]
  dsimp only
  rw [hcarry]

/-- The steps of a run lead to its end, and no timer comes due meanwhile. -/
theorem finishes (s : Session) (slots : List Nat) (l : Loop) (left : Nat) :
    ∃ log, Trail Work (running s slots l left) log
        (afterRun s slots (l.finish s.engine.commands s.engine.config.maxSteps left).2) ∧
      firings log = [] := by
  cases hturn : l.turn with
  | ended rest =>
    rw [Loop.finish_eq, hturn]
    exact ⟨_, .single (work_of_ended hturn s slots left), rfl⟩
  | passed next =>
    have hlt := (Loop.passed_rest_lt hturn).2
    have hwork : Work (running s slots l left) none (running s slots next left) := by
      rw [Work, work, hturn]
    obtain ⟨log, htrail, hnone⟩ := finishes s slots next left
    rw [Loop.finish_eq, hturn]
    exact ⟨_, .cons hwork htrail, hnone⟩
  | met word rest =>
    rw [Loop.finish_eq, hturn]
    cases left with
    | zero => exact ⟨_, .quiet (by rw [Work, work, hturn]) (.nil _), rfl⟩
    | succ left =>
      dsimp only
      rcases hcarry : l.carryOut s.engine.commands word rest with ⟨outcome, next⟩
      have hwork := work_of_met hturn hcarry slots left
      dsimp only
      cases hstop : outcome.isAbort with
      | true =>
        rw [hstop] at hwork
        exact ⟨_, .single hwork, firings_ordered _⟩
      | false =>
        rw [hstop] at hwork
        obtain ⟨log, htrail, hnone⟩ := finishes s slots next left
        refine ⟨_, .cons hwork htrail, ?_⟩
        rw [firings_append, firings_ordered, hnone]
        rfl
termination_by (left, l.run.rest.length)

/-- A run that is carried out for its owner. -/
theorem carries (s : Session) (slots : List Nat) (r : Run) (mode : Mode) (hcalls : r.calls = .empty) :
    ∃ log, Trail Work (running s slots (.begin r mode) s.engine.config.maxSteps) log
        (between (s.carryOut r.owner r mode).2 slots) ∧
      firings log = [] := by
  have hbegin : Loop.begin r mode = { run := r, mode } := by
    rw [Loop.begin, ← hcalls]
  have howner : ((Exec.runAll s.engine.commands s.engine.config.maxSteps mode).run r).2.owner = r.owner :=
    (Loop.keeps_finish _ _ _ { run := r, mode }).owner
  have hafter : afterRun s slots ((Exec.runAll s.engine.commands s.engine.config.maxSteps mode).run r).2 =
      between (s.carryOut r.owner r mode).2 slots := by
    rw [afterRun, howner]
    rfl
  rw [hbegin, ← hafter]
  exact finishes s slots { run := r, mode } _

/-- A visit of a slot, the run of its timer included. -/
theorem visits (s : Session) (slot : Nat) (slots : List Nat) :
    ∃ log, Trail Work (between s (slot :: slots)) log (between (s.visitSlot slot).2 slots) ∧
      (firings log).length = (s.visitSlot slot).1.toNat := by
  have hpolls := s.pollSlot_polls slot
  rw [Session.visitSlot_eq]
  rcases hpolled : s.pollSlot slot with ⟨_ | timer, t⟩
  · have hwork : Work (between s (slot :: slots)) none (between t slots) := by
      rw [Work, work, hpolled]
    exact ⟨_, .single hwork, rfl⟩
  · rw [hpolled] at hpolls
    obtain ⟨i, hfound⟩ := instance?_of_polls hpolls
    have hwork : Work (between s (slot :: slots)) (some (.fired slot timer)) (onFiring t slots timer) := by
      rw [Work, work, hpolled]
    have hrun : t.fire timer =
        (t.carryOut timer.owner (t.startRun timer.owner i.state timer.script timer.resumeAt []) .line).2 := by
      simp only [Session.fire, hfound]
    obtain ⟨log, htrail, hnone⟩ :=
      carries t slots (t.startRun timer.owner i.state timer.script timer.resumeAt []) .line rfl
    simp only [onFiring, hfound] at hwork
    dsimp only
    rw [hrun]
    refine ⟨_, .cons hwork htrail, ?_⟩
    rw [firings_append, hnone]
    rfl

/-- Looking at slots one after another is a trail, which counts the timers that ran. -/
theorem visits_all (slots : List Nat) (n : Nat) (s : Session) :
    ∃ log, Trail Work (between s slots) log (between (Session.visitAll slots (n, s)).2 []) ∧
      (Session.visitAll slots (n, s)).1 = n + (firings log).length := by
  induction slots generalizing n s with
  | nil => exact ⟨[], .nil _, rfl⟩
  | cons slot slots ih =>
    obtain ⟨first, hfirst, hcount⟩ := visits s slot slots
    obtain ⟨log, hlog, htotal⟩ := ih (n + (s.visitSlot slot).1.toNat) (s.visitSlot slot).2
    refine ⟨first ++ log, hfirst.trans hlog, ?_⟩
    rw [Session.visitAll_cons, htotal, firings_append, List.length_append, hcount, Nat.add_assoc]

/-- A tick is a trail, and answers how many timers came due on it. -/
theorem ticks (s : Session) :
    ∃ log, Trail Work (between s (List.range s.timers.capacity)) log (between s.tick.2 []) ∧
      s.tick.1 = (firings log).length := by
  obtain ⟨log, htrail, hcount⟩ := visits_all (List.range s.timers.capacity) 0 s
  exact ⟨log, htrail, by rw [Nat.zero_add] at hcount; exact hcount⟩

theorem Trail.path {m last : Moment} {log : List Incident} (h : Trail Serves m log last) : Path m log last :=
  h.mono fun _ _ _ => Serves.step

theorem trail_sendEvent (s : Session) (owner : Option EntityId) (event params : String) :
    ∃ log, Trail Serves (between s []) log (between (s.sendEvent owner event params).2 []) := by
  by_cases hhandled : ∃ i position, s.Handles owner event i position
  · obtain ⟨i, position, hhandles⟩ := hhandled
    obtain ⟨log, htrail, -⟩ := carries s [] (s.handlerRun owner i position params) .block rfl
    rw [hhandles.sendEvent_eq]
    exact ⟨_, .quiet (.sent hhandles params) (htrail.mono fun _ _ _ => .worked)⟩
  · have hunhandled : ∀ i position, ¬s.Handles owner event i position :=
      fun i position h => hhandled ⟨i, position, h⟩
    exact ⟨_, .quiet (.aside (Session.engine_sendEvent hunhandled params)) (.nil _)⟩

/-- When scripts are asked to run, a trail of small steps leads to what becomes of the session. -/
theorem trail_act (s : Session) {act : Act} (hact : act.AsksScripts) :
    ∃ log, Trail Serves (between s []) log (between (s.after act) []) := by
  cases act with
  | sendEvent owner event params => exact trail_sendEvent s owner event params
  | deliver e =>
    -- the sender is set before the event is sent and brought back after it
    obtain ⟨log, hlog⟩ := trail_sendEvent { s with sender := e.sender } (some e.target) e.event e.params
    have hbefore : Serves (between s []) none (between { s with sender := e.sender } []) := .aside rfl
    have hafter : Serves (between ({ s with sender := e.sender }.sendEvent (some e.target) e.event e.params).2 [])
        none (between (s.after (.deliver e)) []) := .aside rfl
    exact ⟨_, .quiet hbefore (hlog.trans (.quiet hafter (.nil _)))⟩
  | tick =>
    obtain ⟨log, htrail, -⟩ := ticks s
    exact ⟨_, .quiet (.ticked s) (htrail.mono fun _ _ _ => .worked)⟩
  | attach | detach | setMaster | setGlobalScript => exact hact.elim

/-- Whatever is asked of a session, a path of small steps leads to what becomes of it. -/
theorem path_act (s : Session) (act : Act) : ∃ log, Path (between s []) log (between (s.after act) []) := by
  have hasked : act.AsksScripts → ∃ log, Path (between s []) log (between (s.after act) []) := by
    intro hact
    obtain ⟨log, htrail⟩ := trail_act s hact
    exact ⟨log, htrail.path⟩
  cases act with
  | attach id name text => exact ⟨_, .quiet (.attached s id name text) (.nil _)⟩
  | detach id => exact ⟨_, .single (.detached s id)⟩
  | setMaster id master => exact ⟨_, .quiet (.linked s id master) (.nil _)⟩
  | setGlobalScript name text => exact ⟨_, .quiet (.globalSet s name text) (.nil _)⟩
  | sendEvent | deliver | tick => exact hasked trivial

/-- Every sequence of calls is a history. -/
theorem path_acts (acts : List Act) (s : Session) :
    ∃ log, Path (between s []) log (between (acts.foldl Session.after s) []) := by
  induction acts generalizing s with
  | nil => exact ⟨[], .nil _⟩
  | cons act acts ih =>
    obtain ⟨first, hfirst⟩ := path_act s act
    obtain ⟨log, hlog⟩ := ih (s.after act)
    exact ⟨first ++ log, hfirst.trans hlog⟩

end Moment

end EntityScript
