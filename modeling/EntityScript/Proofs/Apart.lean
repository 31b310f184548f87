import EntityScript.Proofs.Calm
import EntityScript.Proofs.Moments
import EntityScript.Proofs.Sender
import EntityScript.Proofs.Vocabulary

/-! Events to scripts that have nothing to do with each other. A calm handler reads what all scripts share,
and the states of its own script and of the master; it writes these states only. So of two such events that
meet in no state each is handled as if the other had not been sent, and their order is of no account. -/

namespace EntityScript

namespace Engine

/-- Neither script is the other one or its master, and they have no master in common. -/
def Apart (e : Engine) (a b : Option EntityId) : Prop :=
  ∀ other, other = a ∨ other = e.leader a → other ≠ b ∧ other ≠ e.leader b

theorem Apart.symm {e : Engine} {a b : Option EntityId} (h : e.Apart a b) : e.Apart b a := by
  rintro other hother
  refine ⟨fun ha => ?_, fun ha => ?_⟩
  · obtain ⟨hb, hleader⟩ := h other (.inl ha)
    exact hother.elim hb hleader
  · obtain ⟨hb, hleader⟩ := h other (.inr ha)
    exact hother.elim hb hleader

theorem keys_updateState (e : Engine) (owner : Option EntityId) (change : ScriptState → ScriptState) :
    (e.updateState owner change).instances.keys = e.instances.keys := by
  cases owner with
  | none => rfl
  | some id => exact Dict.keys_modify ..

/-- Engines are the same if they have the same scripts attached to the same entities, in the same states. -/
theorem ext_of_instances {e f : Engine} (hconfig : e.config = f.config) (hcommands : e.commands = f.commands)
    (hshared : e.shared = f.shared) (hkeys : e.instances.keys = f.instances.keys)
    (h : ∀ owner, e.instance? owner = f.instance? owner) : e = f := by
  obtain ⟨_, _, _, instances, globalScript⟩ := e
  obtain ⟨_, _, _, instances', globalScript'⟩ := f
  cases hconfig
  cases hcommands
  cases hshared
  obtain rfl : instances = instances' := Dict.ext_of_keys hkeys fun id => h (some id)
  obtain rfl : globalScript = globalScript' := h none
  rfl

end Engine

namespace Session

variable {s t u : Session} {a b owner : Option EntityId} {event params : String} {r? : Option Run}

def handling (s : Session) (owner : Option EntityId) (event params : String) : Outcome × Option Run :=
  match s.engine.instance? owner with
  | none => (.failed, none)
  | some i =>
    if !((s.engine.masterState? owner).getD i.state).allows (Text.lowercase event) then (.abortAccept, none)
    else
      match i.script.findEvent? (i.state.handlerOf (Text.lowercase event)) with
      | none => (.success, none)
      | some position =>
        ((Exec.runAll s.engine.commands s.engine.config.maxSteps .block).run
          (s.handlerRun owner i position params)).map id some

def stateAfter (s : Session) (owner : Option EntityId) (r? : Option Run) (other : Option EntityId)
    (state : ScriptState) : ScriptState :=
  r?.elim state fun r => s.leftState owner r other state

theorem stateAfter_of_ne {other : Option EntityId} (h : other ≠ owner ∧ other ≠ s.engine.leader owner)
    (state : ScriptState) : s.stateAfter owner r? other state = state := by
  cases r? with
  | none => rfl
  | some r =>
    change s.leftState owner r other state = state
    rw [leftState, if_neg h.1, if_neg h.2]

/-- An event to the owner was handled, and all it changed are the states that its run has left. -/
structure Settles (s : Session) (owner : Option EntityId) (r? : Option Run) (t : Session) : Prop where
  config : t.engine.config = s.engine.config
  commands : t.engine.commands = s.engine.commands
  shared : t.engine.shared = s.engine.shared
  keys : t.engine.instances.keys = s.engine.instances.keys
  states : ∀ other, t.engine.instance? other =
    (s.engine.instance? other).map fun i => { i with state := s.stateAfter owner r? other i.state }
  world : t.world = s.world
  sender : t.sender = s.sender

theorem keys_finishRun (s : Session) (owner : Option EntityId) (r : Run) :
    (s.finishRun owner r).engine.instances.keys = s.engine.instances.keys := by
  unfold finishRun
  dsimp only
  split
  · exact (Engine.keys_updateState ..).trans (Engine.keys_updateState ..)
  · exact Engine.keys_updateState ..

theorem settles_nothing (s : Session) (owner : Option EntityId) : s.Settles owner none s where
  config := rfl
  commands := rfl
  shared := rfl
  keys := rfl
  states other := by simp [stateAfter]
  world := rfl
  sender := rfl

def CalmAt (s : Session) (owner : Option EntityId) : Prop :=
  ∀ i, s.engine.instance? owner = some i → i.script.Calm s.engine.commands

theorem settles_finishRun {i : Instance} {position : Nat} (hcalm : s.CalmAt owner)
    (hfound : s.engine.instance? owner = some i) (hhandler : i.script.findEvent? event = some position)
    (params : String) :
    let r := ((Exec.runAll s.engine.commands s.engine.config.maxSteps .block).run
      (s.handlerRun owner i position params)).2
    s.Settles owner (some r) (s.finishRun owner r) := by
  intro r
  obtain ⟨words, hruns, -⟩ := Loop.runs_finish s.engine.commands s.engine.config.maxSteps
    s.engine.config.maxSteps { run := s.handlerRun owner i position params, mode := .block }
  have hwords := hcalm i hfound event position hhandler (s.handlerRun owner i position params) rfl rfl _ _ _ _ hruns
  have hsame : r.surroundings = (s.engine.shared, s.world) := hruns.surroundings_eq hwords
  obtain ⟨hshared, hworld⟩ := Prod.ext_iff.1 hsame
  obtain ⟨hconfig, hcommands, hleft⟩ := s.engine_finishRun owner r
  exact {
    config := hconfig
    commands := hcommands
    shared := hleft.trans hshared
    keys := s.keys_finishRun owner r
    states := fun other => s.instance?_finishRun owner other r
    world := hworld
    sender := s.sender_carryOut owner (s.handlerRun owner i position params) .block }

theorem settles_sendEvent (hcalm : s.CalmAt owner) (event params : String) :
    (s.sendEvent owner event params).1 = (s.handling owner event params).1 ∧
      s.Settles owner (s.handling owner event params).2 (s.sendEvent owner event params).2 := by
  unfold sendEvent handling
  dsimp only
  cases hfound : s.engine.instance? owner with
  | none => exact ⟨rfl, { s.settles_nothing owner with }⟩
  | some i =>
    dsimp only
    split
    · exact ⟨rfl, s.settles_nothing owner⟩
    · cases hhandler : i.script.findEvent? (i.state.handlerOf (Text.lowercase event)) with
      | none => exact ⟨rfl, s.settles_nothing owner⟩
      | some position =>
        exact ⟨rfl, settles_finishRun hcalm hfound hhandler params⟩

/-- An event to the owner finds the same in both sessions. -/
structure Alike (owner : Option EntityId) (s t : Session) : Prop where
  config : t.engine.config = s.engine.config
  commands : t.engine.commands = s.engine.commands
  shared : t.engine.shared = s.engine.shared
  instance_eq : t.engine.instance? owner = s.engine.instance? owner
  masterState_eq : t.engine.masterState? owner = s.engine.masterState? owner
  world : t.world = s.world
  sender : t.sender = s.sender

theorem Alike.handling_eq (h : Alike owner s t) (event params : String) :
    t.handling owner event params = s.handling owner event params := by
  simp only [handling, handlerRun, startRun, h.config, h.commands, h.shared, h.instance_eq, h.masterState_eq,
    h.world, h.sender]

theorem Alike.calmAt (h : Alike owner s t) (hcalm : s.CalmAt owner) : t.CalmAt owner := by
  intro i hi
  rw [h.commands]
  exact hcalm i (h.instance_eq ▸ hi)

namespace Settles

theorem master_eq (h : s.Settles a r? t) (owner : Option EntityId) :
    t.engine.master? owner = s.engine.master? owner :=
  Engine.master?_congr fun other => by
    rw [h.states, Option.map_map]
    rfl

theorem leader_eq (h : s.Settles a r? t) (owner : Option EntityId) :
    t.engine.leader owner = s.engine.leader owner := by
  rw [Engine.leader, Engine.leader, h.master_eq]

/-- Scripts apart from the one that handled the event are as they were. -/
theorem instance_eq (h : s.Settles a r? t) {other : Option EntityId}
    (hother : other ≠ a ∧ other ≠ s.engine.leader a) : t.engine.instance? other = s.engine.instance? other := by
  rw [h.states]
  simp only [stateAfter_of_ne hother]
  exact Option.map_id_apply

theorem alike (h : s.Settles a r? t) (hapart : s.engine.Apart b a) : Alike b s t where
  config := h.config
  commands := h.commands
  shared := h.shared
  instance_eq := h.instance_eq (hapart _ (.inl rfl))
  masterState_eq := by
    rw [Engine.masterState?, Engine.masterState?, h.master_eq]
    cases hmaster : s.engine.master? b with
    | none => rfl
    | some master =>
      have hleader : some master = s.engine.leader b := by rw [Engine.leader, hmaster, Option.some_or]
      exact congrArg (Option.map Instance.state) (h.instance_eq (hapart _ (.inr hleader)))
  world := h.world
  sender := h.sender

variable {ra? rb? : Option Run} {t' u' : Session} {other : Option EntityId}

theorem stateAfter_eq (h : s.Settles a ra? t) (owner : Option EntityId) (r? : Option Run)
    (other : Option EntityId) : t.stateAfter owner r? other = s.stateAfter owner r? other := by
  funext state
  simp only [stateAfter, leftState, h.leader_eq]

/-- What the first event makes of a script, the second one leaves if the script is none of its own. -/
theorem states_of_first (ha : s.Settles a ra? t) (hb : t.Settles b rb? u)
    (hother : other ≠ b ∧ other ≠ s.engine.leader b) :
    u.engine.instance? other =
      (s.engine.instance? other).map fun i => { i with state := s.stateAfter a ra? other i.state } := by
  rw [← ha.leader_eq] at hother
  rw [hb.instance_eq hother, ha.states]

/-- What the second event makes of a script is the same without the first one, if the script is none of its own. -/
theorem states_of_second (ha : s.Settles a ra? t) (hb : t.Settles b rb? u)
    (hother : other ≠ a ∧ other ≠ s.engine.leader a) :
    u.engine.instance? other =
      (s.engine.instance? other).map fun i => { i with state := s.stateAfter b rb? other i.state } := by
  rw [hb.states, ha.instance_eq hother, ha.stateAfter_eq]

/-- Two events that meet in no state leave the same engine, whichever comes first. -/
theorem engine_eq (ha : s.Settles a ra? t) (hb : t.Settles b rb? u) (hb' : s.Settles b rb? t')
    (ha' : t'.Settles a ra? u') (hapart : s.engine.Apart a b) : u.engine = u'.engine := by
  refine Engine.ext_of_instances ?_ ?_ ?_ ?_ fun other => ?_
  · rw [hb.config, ha.config, ha'.config, hb'.config]
  · rw [hb.commands, ha.commands, ha'.commands, hb'.commands]
  · rw [hb.shared, ha.shared, ha'.shared, hb'.shared]
  · rw [hb.keys, ha.keys, ha'.keys, hb'.keys]
  · by_cases hother : other = a ∨ other = s.engine.leader a
    · have hnot := hapart other hother
      rw [states_of_first ha hb hnot, states_of_second hb' ha' hnot]
    · have hnot := not_or.1 hother
      rw [states_of_second ha hb hnot, states_of_first hb' ha' hnot]

end Settles

/-- The two events have the same outcomes in either order, and leave the same engine and the same world. -/
def Commute (s : Session) (a b : Option EntityId) (event params event' params' : String) : Prop :=
  let (x, t) := s.sendEvent a event params
  let (y, u) := t.sendEvent b event' params'
  let (y', t') := s.sendEvent b event' params'
  let (x', u') := t'.sendEvent a event params
  (x, y) = (x', y') ∧ u.engine = u'.engine ∧ u.world = u'.world

theorem commute_of_calm (hapart : s.engine.Apart a b) (ha : s.CalmAt a) (hb : s.CalmAt b)
    (event params event' params' : String) : s.Commute a b event params event' params' := by
  obtain ⟨hx, hsa⟩ := settles_sendEvent ha event params
  obtain ⟨hy', hsb⟩ := settles_sendEvent hb event' params'
  have halikeB := hsa.alike hapart.symm
  have halikeA := hsb.alike hapart
  obtain ⟨hy, htb⟩ := settles_sendEvent (halikeB.calmAt hb) event' params'
  obtain ⟨hx', hta⟩ := settles_sendEvent (halikeA.calmAt ha) event params
  rw [halikeB.handling_eq] at hy htb
  rw [halikeA.handling_eq] at hx' hta
  unfold Commute
  dsimp only
  refine ⟨Prod.ext (hx.trans hx'.symm) (hy.trans hy'.symm), hsa.engine_eq htb hsb hta hapart, ?_⟩
  rw [htb.world, hsa.world, hta.world, hsb.world]

/-- No word in the text of the script, if there is one, names a command that is not calm. -/
def CalmTextAt (s : Session) (owner : Option EntityId) : Prop :=
  ∀ i, s.engine.instance? owner = some i → ∃ name text, i.script = .ofText name text ∧
    ∀ word, Reading.Mentions text.toList word →
      s.engine.commands.CalmWord (Text.lowercase (String.ofList word))

theorem CalmTextAt.calmAt (h : s.CalmTextAt owner) : s.CalmAt owner := by
  intro i hi
  obtain ⟨name, text, hscript, hwords⟩ := h i hi
  rw [hscript]
  exact Script.calm_of_mentions hwords

/-- Two events to scripts with calm texts, which are apart from each other with their masters. -/
theorem commute_of_calmText (hapart : s.engine.Apart a b) (ha : s.CalmTextAt a) (hb : s.CalmTextAt b)
    (event params event' params' : String) : s.Commute a b event params event' params' :=
  commute_of_calm hapart ha.calmAt hb.calmAt event params event' params'

/-- Two events to scripts that are calm and apart from each other, with their masters, are handled with the same
outcomes in either order, and leave the same engine and the same world. -/
theorem sendEvent_comm (hapart : s.engine.Apart a b) (ha : s.CalmAt a) (hb : s.CalmAt b)
    (event params event' params' : String) :
    let (x, t) := s.sendEvent a event params
    let (y, u) := t.sendEvent b event' params'
    let (y', t') := s.sendEvent b event' params'
    let (x', u') := t'.sendEvent a event params
    (x, y) = (x', y') ∧ u.engine = u'.engine ∧ u.world = u'.world :=
  commute_of_calm hapart ha hb event params event' params'

end Session

/-- The commands stand at the ends of the lines before them, or behind a brace. -/
theorem gate_covers : gate.Covers (.builtin (.ofLegacy true))
    ([7, 9, 23, 25, 43, 60, 62, 67, 74, 76, 77].map gate.text.drop) := by decide +kernel

/-- Entities 1 and 3 have the script that entity 2 has, who is the master of entity 1. -/
def courtyard : Session where
  engine :=
    { gatehouse.engine with
      instances := gatehouse.engine.instances.set 3 { gateKeeper with master := none } }

theorem courtyard_calmAt {owner : Option EntityId} {i : Instance}
    (hfound : courtyard.engine.instance? owner = some i) (hscript : i.script = gate) :
    courtyard.CalmAt owner := by
  have hcommands : courtyard.engine.commands = .builtin (.ofLegacy true) := by
    simp only [courtyard, gatehouse, Engine.new]
  intro j hj
  cases hfound.symm.trans hj
  rw [hscript, hcommands]
  exact gate_covers.script_calm

/-- Both handlers run. -/
theorem sendEvent_comm_courtyard :
    courtyard.Handles (some 1) "init" gateKeeper (Text.size "on init".toList) ∧
      courtyard.Handles (some 3) "init" { gateKeeper with master := none } (Text.size "on init".toList) ∧
      let (x, t) := courtyard.sendEvent (some 1) "init" ""
      let (y, u) := t.sendEvent (some 3) "init" ""
      let (y', t') := courtyard.sendEvent (some 3) "init" ""
      let (x', u') := t'.sendEvent (some 1) "init" ""
      (x, y) = (x', y') ∧ u.engine = u'.engine ∧ u.world = u'.world := by
  have hapart : courtyard.engine.Apart (some 1) (some 3) := by
    have hfirst : courtyard.engine.leader (some 1) = some 2 := by decide
    have hthird : courtyard.engine.leader (some 3) = some 3 := by decide
    rintro other (rfl | rfl)
    · rw [hthird]
      decide
    · rw [hfirst, hthird]
      decide
  have hallowed : (ScriptState.fresh 0).allows (Text.lowercase "init") = true := by
    rw [Text.lowercase_of_isLower (by decide)]
    decide
  have hhandler := gatehouse_handles.handler
  exact ⟨⟨rfl, hallowed, hhandler⟩, ⟨rfl, hallowed, hhandler⟩,
    Session.sendEvent_comm hapart (courtyard_calmAt rfl rfl) (courtyard_calmAt rfl rfl) "init" "" "init" ""⟩

end EntityScript
