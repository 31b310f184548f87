import EntityScript.Proofs.Keywords
import EntityScript.Proofs.Moments
import EntityScript.Proofs.Panels

/-! What a run leaves alone in the engine. Its commands work on the states of the owner's script and of
its master, and both are put back when it ends, however it ends. Of the master they set the panel only, and
of a script that has a master only its handler for `main`. So masters of masters are out of reach, and no
web of links makes a difference. -/

namespace EntityScript

/-- What the commands of the language set nothing of: the local variables; and where a master leads, the
variables and the handler for `main` of the master, and the panel of the script itself. -/
def Run.fixture (r : Run) : VariableTable × Option (VariableTable × Option String × Panel) :=
  (r.own.locals, r.master.map fun m => (m.locals, m.mainEvent, r.own.panel))

theorem Run.fixture_aside : Aside Run.fixture := ⟨⟨fun _ _ => rfl⟩, fun _ _ => rfl⟩

/-- A change of the leading panel is no change of what is fixed. -/
theorem Run.fixture_updateLeading (r : Run) {change : ScriptState → ScriptState}
    (hlocals : ∀ s, (change s).locals = s.locals) (hmain : ∀ s, (change s).mainEvent = s.mainEvent) :
    (r.updateLeading change).fixture = r.fixture := by
  unfold updateLeading fixture
  cases hm : r.master with
  | none => simp [hlocals]
  | some m => simp [hlocals, hmain]

theorem Command.leaves_fixture {policy : WrongTypePolicy} {command : Command}
    (h : command ∈ (CommandTable.language policy).map (·.2)) : command.Leaves Run.fixture := by
  cases command with
  | stopwatch start => exact fun r place w => r.fixture_updateLeading (fun _ => rfl) fun _ => rfl
  | setEvent => exact fun r event on => r.fixture_updateLeading (fun _ => rfl) fun _ => rfl
  | assign | add => simp [CommandTable.language] at h
  | nop | stop | conditional | otherwise | say | probe => trivial
  | _ => exact fun _ _ => rfl

/-- A script is the same as before in what a run does not set: the handler for `main` is set in the script
of the run only, and the panel only where it counts. -/
structure Instance.Kept (runs leads : Prop) (i j : Instance) : Prop where
  script : j.script = i.script
  master : j.master = i.master
  locals : j.state.locals = i.state.locals
  mainEvent : ¬runs → j.state.mainEvent = i.state.mainEvent
  panel : ¬leads → j.state.panel = i.state.panel

/-- What may have become of the scripts of an engine in a run for the owner. -/
structure Engine.Framed (e f : Engine) (owner : Option EntityId) : Prop where
  kept : ∀ other, Option.Rel (Instance.Kept (other = owner) (other = e.leader owner))
    (e.instance? other) (f.instance? other)
  others : ∀ other, other ≠ owner → other ≠ e.leader owner → f.instance? other = e.instance? other

theorem Engine.Framed.refl (e : Engine) (owner : Option EntityId) : e.Framed e owner where
  kept other := by
    cases e.instance? other with
    | none => exact .none
    | some i => exact .some ⟨rfl, rfl, rfl, fun _ => rfl, fun _ => rfl⟩
  others _ _ _ := rfl

namespace Session

variable {s : Session} {owner : Option EntityId} {i : Instance}

theorem kept_leftState {r : Run} {other : Option EntityId} {j : Instance}
    (hfound : s.engine.instance? owner = some i) (hother : s.engine.instance? other = some j)
    (hfixed : r.fixture =
      (i.state.locals, (s.engine.masterState? owner).map fun m => (m.locals, m.mainEvent, i.state.panel))) :
    Instance.Kept (other = owner) (other = s.engine.leader owner) j
      { j with state := s.leftState owner r other j.state } := by
  obtain ⟨hlocals, hmaster⟩ := Prod.ext_iff.1 hfixed
  unfold leftState
  by_cases ho : other = owner
  · subst ho
    cases hfound.symm.trans hother
    rw [if_pos rfl]
    refine ⟨rfl, rfl, hlocals, fun hruns => absurd rfl hruns, fun hleads => ?_⟩
    -- where a master leads, the panel of the script is among what is fixed
    obtain ⟨state, hstate⟩ := Engine.masterState?_of_not_leader hleads
    rw [hstate, Run.fixture, Option.map_some, Option.map_eq_some_iff] at hmaster
    obtain ⟨m, -, hm⟩ := hmaster
    exact congrArg (·.2.2) hm
  · rw [if_neg ho]
    split
    · rename_i hleads
      have hstate := Engine.masterState?_of_leader ho hleads hother
      rw [hstate, Run.fixture, Option.map_some, Option.map_eq_some_iff] at hmaster
      obtain ⟨m, hr, hm⟩ := hmaster
      rw [hr, Option.getD_some]
      exact ⟨rfl, rfl, congrArg (·.1) hm, fun _ => congrArg (·.2.1) hm, fun hnot => absurd hleads hnot⟩
    · exact ⟨rfl, rfl, rfl, fun _ => rfl, fun _ => rfl⟩

theorem framed_finishRun {r : Run} (hfound : s.engine.instance? owner = some i)
    (hfixed : r.fixture =
      (i.state.locals, (s.engine.masterState? owner).map fun m => (m.locals, m.mainEvent, i.state.panel))) :
    s.engine.Framed (s.finishRun owner r).engine owner where
  kept other := by
    rw [instance?_finishRun]
    cases hother : s.engine.instance? other with
    | none => exact .none
    | some j => exact .some (kept_leftState hfound hother hfixed)
  others other hruns hleads := by
    simp [instance?_finishRun, leftState, hruns, hleads]

variable {policy : WrongTypePolicy} (hcommands : s.engine.commands = .builtin policy)
include hcommands

/-- However a run ends, the commands of the language have kept to their frame. -/
theorem framed_carryOut (hfound : s.engine.instance? owner = some i) (script : Script) (position : Nat)
    (params : List String) (mode : Mode) :
    s.engine.Framed (s.carryOut owner (s.startRun owner i.state script position params) mode).2.engine owner := by
  have hleaves : ∀ word name command, s.engine.commands.lookup word = some (name, command) →
      command.Leaves Run.fixture := by
    intro word name command hlookup
    rw [hcommands] at hlookup
    exact Command.leaves_fixture (List.mem_map_of_mem (CommandTable.mem_language_of_lookup hlookup))
  exact framed_finishRun hfound (Loop.finish_spares Run.fixture_aside (fun _ _ => rfl) hleaves
    s.engine.config.maxSteps s.engine.config.maxSteps
    { run := s.startRun owner i.state script position params, mode })

theorem framed_sendEvent (owner : Option EntityId) (event params : String) :
    s.engine.Framed (s.sendEvent owner event params).2.engine owner := by
  by_cases hhandled : ∃ i position, s.Handles owner event i position
  · obtain ⟨i, position, hhandles⟩ := hhandled
    rw [hhandles.sendEvent_eq]
    exact framed_carryOut hcommands hhandles.found _ _ _ _
  · rw [engine_sendEvent fun i position h => hhandled ⟨i, position, h⟩]
    exact .refl _ _

theorem framed_fire (t : Timer) : s.engine.Framed (s.fire t).engine t.owner := by
  unfold fire
  split
  · exact .refl _ _
  · rename_i i hfound
    exact framed_carryOut hcommands hfound _ _ _ _

/-- With the commands of the language, an event that is sent or taken from the queue and a timer that runs
leave every script attached as it was, with its links and its variables. Only the handler for `main` of
the script that runs may be another one, and the panel of its master, or its own if it has none. -/
theorem runs_framed :
    (∀ owner event params, s.engine.Framed (s.sendEvent owner event params).2.engine owner) ∧
      (∀ q, s.engine.Framed (s.deliver q).2.engine (some q.target)) ∧
      ∀ t, s.engine.Framed (s.fire t).engine t.owner := by
  refine ⟨framed_sendEvent hcommands, fun q => ?_, framed_fire hcommands⟩
  exact framed_sendEvent (s := { s with sender := q.sender }) hcommands (some q.target) q.event q.params

end Session

def courtier (master : EntityId) : Instance := { gateKeeper with master }

def court : Session where
  engine :=
    { Engine.new {} 0 with
      instances := ((Dict.empty.set 1 (courtier 2)).set 2 (courtier 3)).set 3 (courtier 2) }

theorem court_leader : court.engine.leader (some 1) = some 2 := by decide

theorem court_handles : court.Handles (some 1) "init" (courtier 2) (Text.size "on init".toList) where
  found := rfl
  allowed := by
    rw [Text.lowercase_of_isLower (by decide)]
    decide
  handler := gatehouse_handles.handler

/-- The run switches an event off for entity 2. Entity 3, which is its master, is not reached. -/
theorem runs_framed_court :
    let after := (court.sendEvent (some 1) "init" "").2.engine
    court.Handles (some 1) "init" (courtier 2) (Text.size "on init".toList) ∧
      Option.Rel (Instance.Kept True False) (some (courtier 2)) (after.instance? (some 1)) ∧
      Option.Rel (Instance.Kept False True) (some (courtier 3)) (after.instance? (some 2)) ∧
      after.instance? (some 3) = some (courtier 2) := by
  have hcommands : court.engine.commands = .builtin (.ofLegacy true) := by
    simp only [court, Engine.new]
  obtain ⟨hsent, -⟩ := Session.runs_framed hcommands
  have hframed := hsent (some 1) "init" ""
  have hother : some 3 ≠ court.engine.leader (some 1) := by decide
  have hfirst := hframed.kept (some 1)
  have hmaster := hframed.kept (some 2)
  have hself : (some 1 : Option EntityId) = some 2 ↔ False := by decide
  have hrunner : (some 2 : Option EntityId) = some 1 ↔ False := by decide
  simp only [court_leader, hself] at hfirst
  simp only [court_leader, hrunner] at hmaster
  exact ⟨court_handles, hfirst, hmaster, hframed.others (some 3) (by decide) hother⟩

end EntityScript
