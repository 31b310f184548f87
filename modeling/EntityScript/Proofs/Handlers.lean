import EntityScript.Proofs.Refinement

/-! Events that are carried out. A handler whose block is written as a tree leaves the
outcome and the states of the tree's walk when its steps suffice, and otherwise ends
for want of steps. -/

namespace EntityScript

open Reading

namespace Loop

variable {table : CommandTable} {policy : WrongTypePolicy} {n limit left : Nat} {outcome : Outcome}
  {r : Run} {rest : List Char} {l : Loop} {w : Walk}

theorem Stops.finish (h : Stops table n l outcome r) (hn : n < left) :
    (l.finish table limit left).1 = outcome ∧ SameScene r (l.finish table limit left).2 := by
  obtain ⟨m, word, rest, next, htakes, hmet, hcarry, habort, hscene⟩ := h
  obtain ⟨k, hk⟩ : ∃ k, left - n = k + 1 := ⟨left - n - 1, by omega⟩
  rw [htakes.finish_eq (by omega), hk, finish_eq, hmet]
  simp only [hcarry, habort, if_true]
  exact ⟨trivial, hscene⟩

theorem Stops.exhausted (h : Stops table n l outcome r) (hn : left ≤ n) :
    (l.finish table limit left).1 = .abortError := by
  obtain ⟨m, word, rest, next, htakes, hmet, -⟩ := h
  rcases Nat.lt_or_eq_of_le hn with hn | rfl
  · exact htakes.exhausted hn
  · rw [htakes.finish_eq (Nat.le_refl left), Nat.sub_self, finish_eq, hmet]
    rfl

/-- At the closing brace of the handler the walk is all that the run has done. -/
theorem Goes.finish (h : Goes table w 1 ('}' :: rest) l) (hsteps : w.steps ≤ left) :
    (l.finish table limit left).1 = w.stop.getD .success ∧
      SameScene w.run (l.finish table limit left).2 := by
  rw [Goes] at h
  cases hstop : w.stop with
  | none =>
    rw [hstop] at h
    obtain ⟨m, htakes, hat⟩ := h
    rw [htakes.finish_eq hsteps, finish_eq, hat.ended]
    exact ⟨rfl, hat.scene.trans (SameScene.readTo m.run rest)⟩
  | some outcome =>
    rw [hstop] at h
    obtain ⟨n, hn, hstops⟩ := h
    exact hstops.finish (by omega)

theorem Goes.exhausted (h : Goes table w 1 ('}' :: rest) l) (hsteps : left < w.steps) :
    (l.finish table limit left).1 = .abortError := by
  rw [Goes] at h
  cases hstop : w.stop with
  | none =>
    rw [hstop] at h
    obtain ⟨m, htakes, -⟩ := h
    exact htakes.exhausted hsteps
  | some outcome =>
    rw [hstop] at h
    obtain ⟨n, hn, hstops⟩ := h
    exact hstops.exhausted (by omega)

/-- From its opening brace a handler's block goes the way of its walk, to its closing brace. -/
theorem goes_block {gap last : List Filler} {body : List (Tree Action Condition)} {after : List Char}
    (hknows : table.Knows policy) (hpaired : Tree.AllPaired body)
    (h : At r 0 ((Tree.block gap body last).front plainWriting ++ after) l) :
    Goes table (Tree.walkAll policy body r) 1 ('}' :: after) l := by
  rw [Tree.front_block] at h
  obtain ⟨m, hopened, hm⟩ := (h.alike (Alike.gap gap _)).opened
  have hlast : elseFollows (Filler.text last ++ '}' :: after) = false := by
    rw [(Alike.gap last _).elseFollows, elseFollows, Tree.readCommand_brace (.inr rfl)]
    rfl
  have hbody := (goes_written hknows body hpaired (Int.le_refl 1) hlast hm).of_passed hopened
  rw [Goes] at hbody ⊢
  cases hstop : (Tree.walkAll policy body r).stop with
  | none =>
    rw [hstop] at hbody
    obtain ⟨next, htakes, hnext⟩ := hbody
    exact ⟨next, htakes, hnext.alike (Alike.gap last _)⟩
  | some outcome =>
    rw [hstop] at hbody
    exact hbody

end Loop

namespace Action

/-- No command gives a script a master, and none takes it away. -/
theorem master_act (a : Action) (r : Run) : (a.act r).master.isSome = r.master.isSome := by
  have hleading : ∀ change, (r.updateLeading change).master.isSome = r.master.isSome := by
    intro change
    unfold Run.updateLeading
    split
    · rename_i hm
      rw [hm]
      rfl
    · rfl
  have hmain : ∀ event, (chooseMain r event).master = r.master := by
    intro event
    unfold chooseMain
    split <;> rfl
  have hwatch : ∀ name w, (setStopwatch r name w).master.isSome = r.master.isSome := by
    intro name w
    unfold setStopwatch
    split
    · rfl
    · exact hleading _
  cases a with
  | nop | accept | refuse => rfl
  | setMainEvent event | setStatus event => exact congrArg Option.isSome (hmain event)
  | setEvent event on =>
    unfold act
    dsimp only
    split
    · rfl
    · exact hleading _
  | startTimer name => exact hwatch name _
  | stopTimer name => exact hwatch name _

end Action

namespace Reading.Tree

theorem master_andThen {w : Walk} {more : Run → Walk} {r : Run} (hw : w.run.master.isSome = r.master.isSome)
    (hmore : ∀ s, (more s).run.master.isSome = s.master.isSome) :
    (w.andThen more).run.master.isSome = r.master.isSome := by
  unfold Walk.andThen
  split
  · exact hw
  · exact (hmore w.run).trans hw

mutual

theorem master_walk (policy : WrongTypePolicy) : (t : Tree Action Condition) → (r : Run) →
    (t.walk policy r).run.master.isSome = r.master.isSome
  | line _ action, r => action.master_act r
  | block _ body _, r => master_walkAll policy body r
  | guarded _ condition _ branch, r => by
    rw [walk]
    split
    · exact master_walk policy branch r
    · rfl
  | choice _ condition _ branch _ _ other, r => by
    rw [walk]
    split
    · exact master_andThen (master_walk policy branch r) fun _ => rfl
    · exact master_walk policy other r

theorem master_walkAll (policy : WrongTypePolicy) : (body : List (Tree Action Condition)) → (r : Run) →
    (walkAll policy body r).run.master.isSome = r.master.isSome
  | [], _ => rfl
  | t :: more, r => master_andThen (master_walk policy t r) (master_walkAll policy more)

end

end Reading.Tree

namespace Engine

variable {e : Engine} {owner other : Option EntityId} {change : ScriptState → ScriptState}

def stateOf? (e : Engine) (owner : Option EntityId) : Option ScriptState :=
  (e.instance? owner).map Instance.state

theorem instance?_updateState :
    (e.updateState owner change).instance? other =
      if owner = other then (e.instance? other).map fun i => { i with state := change i.state }
      else e.instance? other := by
  cases owner with
  | none =>
    cases other with
    | none => rfl
    | some id => rfl
  | some id =>
    cases other with
    | none => rfl
    | some id' =>
      refine (Dict.get?_modify e.instances id id' _).trans ?_
      simp only [Option.some.injEq]
      rfl

section

variable (e : Engine) (id : EntityId) (script : Script) (master owner : Option EntityId)

theorem instance?_attach :
    (e.attach id script).instance? owner =
      if some id = owner then some (e.fresh script) else e.instance? owner := by
  cases owner with
  | none => rfl
  | some other =>
    refine (Dict.get?_set e.instances id other _).trans ?_
    simp only [Option.some.injEq]
    rfl

theorem instance?_detach :
    (e.detach id).instance? owner = if some id = owner then none else e.instance? owner := by
  cases owner with
  | none => rfl
  | some other =>
    refine (Dict.get?_erase e.instances id other).trans ?_
    simp only [Option.some.injEq]
    rfl

theorem instance?_setGlobalScript :
    (e.setGlobalScript script).instance? owner =
      if owner = none then some (e.fresh script) else e.instance? owner := by
  cases owner <;> rfl

/-- An entity that is to be its own master keeps the one it has. -/
theorem instance?_setMaster :
    (e.setMaster id master).2.1.instance? owner =
      if some id = owner ∧ master ≠ some id then (e.instance? owner).map fun i => { i with master }
      else e.instance? owner := by
  unfold setMaster
  by_cases hself : master = some id
  · simp [hself]
  rw [if_neg hself]
  simp only [hself, ne_eq, not_false_eq_true, and_true]
  by_cases hthere : e.instances.contains id = true
  · rw [if_pos hthere]
    cases owner with
    | none => rfl
    | some other =>
      refine (Dict.get?_modify e.instances id other _).trans ?_
      simp only [Option.some.injEq]
      rfl
  · -- there is no script whose master could change
    have hnone : e.instance? (some id) = none := Option.not_isSome_iff_eq_none.1 hthere
    rw [if_neg hthere]
    split
    · rename_i howner
      rw [← howner, hnone]
      rfl
    · rfl

end

theorem stateOf?_updateState :
    (e.updateState owner change).stateOf? other =
      if owner = other then (e.stateOf? other).map change else e.stateOf? other := by
  rw [stateOf?, instance?_updateState]
  split
  · rw [stateOf?, Option.map_map, Option.map_map]
    rfl
  · rfl

/-- The master is one of the other scripts. -/
theorem stateOf?_master {master : EntityId} (h : e.master? owner = some master) :
    owner ≠ some master ∧ e.masterState? owner = e.stateOf? (some master) ∧
      (e.stateOf? (some master)).isSome := by
  have hstate : e.masterState? owner = e.stateOf? (some master) := by
    rw [masterState?, h]
    rfl
  unfold master? at h
  split at h
  · split_ifs at h with hother
    cases h
    refine ⟨?_, hstate, ?_⟩
    · intro he
      cases he
      exact hother.1 rfl
    · rw [stateOf?, Option.isSome_map]
      exact hother.2
  · cases h

/-- Who is whose master is a matter of the links of the scripts that are attached. -/
theorem master?_congr {f : Engine}
    (h : ∀ o, (f.instance? o).map Instance.master = (e.instance? o).map Instance.master) :
    f.master? owner = e.master? owner := by
  have hmaster : (f.instance? owner).bind Instance.master = (e.instance? owner).bind Instance.master := by
    have hbind := congrArg (Option.bind · id) (h owner)
    rwa [Option.bind_map, Option.bind_map] at hbind
  have hcontains : ∀ id, f.instances.contains id = e.instances.contains id := by
    intro id
    have hsome := congrArg Option.isSome (h (some id))
    rwa [Option.isSome_map, Option.isSome_map] at hsome
  simp only [master?, hmaster, hcontains]

theorem master?_updateState : (e.updateState owner change).master? other = e.master? other := by
  refine master?_congr fun o => ?_
  rw [instance?_updateState]
  split
  · rw [Option.map_map]
    rfl
  · rfl

/-- The script that keeps the stopwatches and the switched-off events for a script: its master, or itself. -/
def leader (e : Engine) (owner : Option EntityId) : Option EntityId := (e.master? owner).or owner

theorem leader_congr {f : Engine}
    (h : ∀ o, (f.instance? o).map Instance.master = (e.instance? o).map Instance.master) :
    f.leader owner = e.leader owner := by
  rw [leader, leader, master?_congr h]

/-- The script that leads an attached one is attached, and its state is the one that counts. -/
theorem instance?_leader {i : Instance} (hfound : e.instance? owner = some i) :
    ∃ j, e.instance? (e.leader owner) = some j ∧ (e.masterState? owner).getD i.state = j.state := by
  cases hmaster : e.master? owner with
  | none =>
    refine ⟨i, ?_, ?_⟩
    · rwa [leader, hmaster, Option.none_or]
    · rw [masterState?, hmaster]
      rfl
  | some master =>
    obtain ⟨-, hstate, hsome⟩ := stateOf?_master hmaster
    rw [stateOf?, Option.isSome_map] at hsome
    obtain ⟨j, hj⟩ := Option.isSome_iff_exists.1 hsome
    refine ⟨j, ?_, ?_⟩
    · rwa [leader, hmaster, Option.some_or]
    · rw [hstate, stateOf?, hj]
      rfl

/-- Another script that leads is the master. -/
theorem masterState?_of_leader {i : Instance} (hother : other ≠ owner) (hleads : other = e.leader owner)
    (hfound : e.instance? other = some i) : e.masterState? owner = some i.state := by
  unfold leader at hleads
  cases hmaster : e.master? owner with
  | none =>
    rw [hmaster, Option.none_or] at hleads
    exact absurd hleads hother
  | some master =>
    rw [hmaster, Option.some_or] at hleads
    obtain ⟨-, hstate, -⟩ := stateOf?_master hmaster
    rw [hstate, ← hleads, stateOf?, hfound]
    rfl

/-- A script that does not lead itself has a master. -/
theorem masterState?_of_not_leader (h : owner ≠ e.leader owner) :
    ∃ state, e.masterState? owner = some state := by
  cases hmaster : e.master? owner with
  | none =>
    rw [leader, hmaster, Option.none_or] at h
    exact absurd rfl h
  | some master =>
    obtain ⟨-, hstate, hsome⟩ := stateOf?_master hmaster
    rw [hstate]
    exact Option.isSome_iff_exists.1 hsome

end Engine

namespace Session

variable {s : Session} {owner : Option EntityId} {event : String} {i : Instance} {position : Nat}

/-- The event is on, and a handler of `i`, the script of the owner, carries it out from the position. -/
structure Handles (s : Session) (owner : Option EntityId) (event : String) (i : Instance)
    (position : Nat) : Prop where
  found : s.engine.instance? owner = some i
  allowed : ((s.engine.masterState? owner).getD i.state).allows (Text.lowercase event) = true
  handler : i.script.findEvent? (i.state.handlerOf (Text.lowercase event)) = some position

/-- Where the event is written in lower case, it is looked for as it is written. -/
theorem Handles.of_isLower (hlower : ∀ c ∈ event.toList, Text.IsLower c)
    (found : s.engine.instance? owner = some i)
    (allowed : ((s.engine.masterState? owner).getD i.state).allows event = true)
    (handler : i.script.findEvent? (i.state.handlerOf event) = some position) :
    s.Handles owner event i position where
  found := found
  allowed := by rwa [Text.lowercase_of_isLower hlower]
  handler := by rwa [Text.lowercase_of_isLower hlower]

def handlerRun (s : Session) (owner : Option EntityId) (i : Instance) (position : Nat)
    (params : String) : Run :=
  s.startRun owner i.state i.script position ((Text.blankSeparated params.toList).map String.ofList)

theorem Handles.sendEvent_eq (h : s.Handles owner event i position) (params : String) :
    s.sendEvent owner event params = s.carryOut owner (s.handlerRun owner i position params) .block := by
  simp only [sendEvent, h.found, h.allowed, h.handler]
  rfl

/-- An event that no handler takes leaves a session as it is, but for the journal. -/
theorem sendEvent_cases (s : Session) (owner : Option EntityId) (event params : String) :
    (∃ outcome journal, s.sendEvent owner event params = (outcome, { s with journal })) ∨
      ∃ i position, s.Handles owner event i position ∧
        s.sendEvent owner event params = s.carryOut owner (s.handlerRun owner i position params) .block := by
  by_cases hhandled : ∃ i position, s.Handles owner event i position
  · obtain ⟨i, position, hhandles⟩ := hhandled
    exact .inr ⟨i, position, hhandles, hhandles.sendEvent_eq params⟩
  · refine .inl ?_
    unfold sendEvent
    dsimp only
    split
    · exact ⟨_, _, rfl⟩
    · rename_i i hfound
      split
      · exact ⟨_, _, rfl⟩
      · rename_i hallowed
        split
        · exact ⟨_, _, rfl⟩
        · rename_i position hhandler
          exact absurd ⟨i, position, hfound, by simpa using hallowed, hhandler⟩ hhandled

def withOwn (s : Session) (owner : Option EntityId) (r : Run) : Engine :=
  { s.engine with shared := r.shared }.updateState owner fun _ => r.own

theorem master?_withOwn (r : Run) : (s.withOwn owner r).master? owner = s.engine.master? owner :=
  Engine.master?_updateState

theorem stateOf?_withOwn {r : Run} (hown : (s.engine.stateOf? owner).isSome) :
    (s.withOwn owner r).stateOf? owner = some r.own := by
  obtain ⟨state, hstate⟩ := Option.isSome_iff_exists.1 hown
  have hshared : Engine.stateOf? { s.engine with shared := r.shared } owner = some state := hstate
  rw [withOwn, Engine.stateOf?_updateState, if_pos rfl, hshared]
  rfl

/-- A run leaves the states that it ends with, the master's as well. -/
theorem stateOf?_finishRun {r : Run} (hown : (s.engine.stateOf? owner).isSome)
    (hmaster : r.master.isSome = (s.engine.masterState? owner).isSome) :
    (s.finishRun owner r).engine.stateOf? owner = some r.own ∧
      (s.finishRun owner r).engine.masterState? owner = r.master := by
  have hlink : (s.withOwn owner r).master? owner = s.engine.master? owner := s.master?_withOwn r
  cases hmasterOf : s.engine.master? owner with
  | none =>
    have hnone : r.master = none := by
      rw [Engine.masterState?, hmasterOf] at hmaster
      simpa using hmaster
    have hengine : (s.finishRun owner r).engine = s.withOwn owner r := by
      rw [finishRun, hmasterOf]
      rfl
    rw [hengine, Engine.masterState?, hlink, hmasterOf, hnone]
    exact ⟨stateOf?_withOwn hown, rfl⟩
  | some master =>
    obtain ⟨hother, hstate, hsome⟩ := Engine.stateOf?_master hmasterOf
    rw [hstate, hsome] at hmaster
    obtain ⟨state, hr⟩ := Option.isSome_iff_exists.1 hmaster
    have hengine : (s.finishRun owner r).engine =
        (s.withOwn owner r).updateState (some master) fun _ => state := by
      rw [finishRun, hmasterOf, hr]
      rfl
    rw [hmasterOf] at hlink
    obtain ⟨-, -, hheld⟩ := Engine.stateOf?_master hlink
    have hlinkLast : ((s.withOwn owner r).updateState (some master) fun _ => state).master? owner =
        some master := Engine.master?_updateState.trans hlink
    obtain ⟨-, hlast, -⟩ := Engine.stateOf?_master hlinkLast
    obtain ⟨held, hheld⟩ := Option.isSome_iff_exists.1 hheld
    rw [hengine, hlast, Engine.stateOf?_updateState, Engine.stateOf?_updateState, if_neg (Ne.symm hother),
      if_pos rfl, hheld, hr]
    exact ⟨stateOf?_withOwn hown, rfl⟩

/-- An event that a handler takes has the outcome and leaves the states that the statements of the
handler's block mean. If the steps of a run do not suffice for them, it ends with an error. -/
theorem sendEvent_walks {params : String} {before after : List Char} {gap last : List Filler}
    {body : List (Tree Action Condition)} {policy : WrongTypePolicy}
    (hhandles : s.Handles owner event i (Text.size before))
    (htext : i.script.text = before ++ ((Tree.block gap body last).front plainWriting ++ after))
    (hpaired : Tree.AllPaired body) (hknows : s.engine.commands.Knows policy) :
    let w := Tree.walkAll policy body (s.handlerRun owner i (Text.size before) params)
    let result := s.sendEvent owner event params
    if w.steps ≤ s.engine.config.maxSteps then
      result.1 = w.stop.getD .success ∧ result.2.engine.stateOf? owner = some w.run.own ∧
        result.2.engine.masterState? owner = w.run.master
    else result.1 = .abortError := by
  intro w result
  let r := s.handlerRun owner i (Text.size before) params
  let l : Loop := { run := r, mode := .block }
  have hplace : r.rest = (Tree.block gap body last).front plainWriting ++ after := by
    change (Text.Place.ofPosition (Text.size before) i.script.text).rest = _
    rw [htext, Text.Place.ofPosition_size_append]
  have hat : Loop.At r 0 ((Tree.block gap body last).front plainWriting ++ after) l :=
    ⟨rfl, rfl, SameScene.refl r, by rw [← hplace]; exact Eq.refl _⟩
  have hgoes : Loop.Goes s.engine.commands w 1 ('}' :: after) l := Loop.goes_block hknows hpaired hat
  have hresult : result = s.carryOut owner r .block := hhandles.sendEvent_eq params
  have hrun : (Exec.runAll s.engine.commands s.engine.config.maxSteps .block).run r =
      l.finish s.engine.commands s.engine.config.maxSteps s.engine.config.maxSteps := rfl
  rw [hresult, carryOut, hrun]
  split
  · rename_i hsteps
    have hfinish : (l.finish s.engine.commands s.engine.config.maxSteps s.engine.config.maxSteps).1 =
        (Tree.walkAll policy body r).stop.getD .success ∧ SameScene (Tree.walkAll policy body r).run
        (l.finish s.engine.commands s.engine.config.maxSteps s.engine.config.maxSteps).2 :=
      hgoes.finish hsteps
    obtain ⟨houtcome, hscene⟩ := hfinish
    have hown : (s.engine.stateOf? owner).isSome := by
      rw [Engine.stateOf?, hhandles.found]
      rfl
    have hmaster := Tree.master_walkAll policy body r
    rw [← hscene.own, ← hscene.master]
    rw [← hscene.master] at hmaster
    exact ⟨houtcome, stateOf?_finishRun hown hmaster⟩
  · rename_i hsteps
    exact hgoes.exhausted (Nat.lt_of_not_le hsteps)

end Session

def lineBreak : Blank := ⟨'\n', .inl rfl⟩

def gate : Script :=
  .ofText "gate" <| "on init\n\x7b\nif a isin abc\n\x7b\nsetmainevent idle\nsetevent hit off\n\x7d\n" ++
    "else\nrefuse\n\x7d\n"

def gateBody : List (Tree Action Condition) :=
  [.choice [.blank lineBreak]
    ⟨⟨['a'], by decide, by decide⟩, ⟨"isin".toList, by decide, by decide⟩, ⟨"abc".toList, by decide, by decide⟩⟩
    lineBreak
    (.block []
      [.line [.blank lineBreak] (.setMainEvent ⟨"idle".toList, by decide, by decide⟩),
        .line [] (.setEvent ⟨"hit".toList, by decide, by decide⟩ ⟨"off".toList, by decide, by decide⟩)] [])
    [.blank lineBreak] lineBreak (.line [] .refuse)]

def gateKeeper : Instance := { script := gate, state := .fresh 0, master := some 2 }

def gatehouse : Session where
  engine :=
    { Engine.new {} 0 with
      instances := (Dict.empty.set 1 gateKeeper).set 2 { gateKeeper with master := none } }

theorem gate_text : gate.text = "on init".toList ++
    ((Tree.block [.blank lineBreak] gateBody []).front plainWriting ++ ['\n']) := by decide

theorem gateBody_allPaired : Tree.AllPaired gateBody :=
  ⟨⟨rfl, ⟨trivial, trivial, trivial⟩, trivial⟩, trivial⟩

theorem gatehouse_handles : gatehouse.Handles (some 1) "init" gateKeeper (Text.size "on init".toList) :=
  .of_isLower (by decide) rfl (by decide) (by decide +kernel)

theorem gatehouse_knows : gatehouse.engine.commands.Knows .legacy := by
  have hcommands : gatehouse.engine.commands = .builtin (.ofLegacy true) := by
    simp only [gatehouse, Engine.new]
  rw [hcommands]
  exact CommandTable.builtin_knows (.ofLegacy true)

theorem gateBody_walk :
    let w := Tree.walkAll .legacy gateBody
      (gatehouse.handlerRun (some 1) gateKeeper (Text.size "on init".toList) "")
    w.steps = 4 ∧ w.stop = none ∧ w.run.own.mainEvent = some "idle" ∧
      w.run.master.map ScriptState.disabled = some (({} : EventSet).put 2 true) := by decide

/-- The branch is taken, its commands change both states, and what the `else` guards is passed over. -/
theorem sendEvent_walks_gate :
    let result := gatehouse.sendEvent (some 1) "init" ""
    result.1 = .success ∧
      (result.2.engine.stateOf? (some 1)).map ScriptState.mainEvent = some (some "idle") ∧
      (result.2.engine.masterState? (some 1)).map ScriptState.disabled =
        some (({} : EventSet).put 2 true) := by
  obtain ⟨hsteps, hstop, hmain, hdisabled⟩ := gateBody_walk
  have hwalks := @Session.sendEvent_walks _ _ _ _ "" _ _ _ _ _ _ gatehouse_handles gate_text
    gateBody_allPaired gatehouse_knows
  dsimp only at hwalks
  rw [hsteps, if_pos (by decide), hstop] at hwalks
  obtain ⟨houtcome, hown, hmaster⟩ := hwalks
  refine ⟨houtcome, ?_, ?_⟩
  · rw [hown]
    exact congrArg some hmain
  · rw [hmaster]
    exact hdisabled

end EntityScript
