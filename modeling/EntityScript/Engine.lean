import EntityScript.Config
import EntityScript.Run.Loop

/-!
The engine: the scripts attached to entities, the global script, the commands, and what all scripts
share. A script may have a master, another entity whose script keeps the stopwatches and the
switched-off events for both; links are followed one step only.
-/

namespace EntityScript

structure Instance where
  script : Script
  state : ScriptState
  master : Option EntityId := none

structure Engine where
  config : Config
  commands : CommandTable
  shared : Shared
  instances : Dict EntityId Instance := Dict.empty
  globalScript : Option Instance := none

namespace Engine

/-- An engine without scripts that knows the commands of the language. Without a seed in the options
the given one counts. -/
def new (config : Config) (seed : Nat) : Engine :=
  { config
    commands := .builtin (.ofLegacy config.legacyOperators)
    shared :=
      { globals := .withCapacity config.maxGlobals
        timers := .withCapacity config.timerPoolSize
        random := .ofSeed (config.seed.getD seed)
        maxCallDepth := config.maxCallDepth } }

/-- The script of an entity, or the global one. -/
def instance? (e : Engine) : Option EntityId → Option Instance
  | some id => e.instances.get? id
  | none => e.globalScript

def updateState (e : Engine) (owner : Option EntityId) (change : ScriptState → ScriptState) :
    Engine :=
  let changeInstance (i : Instance) : Instance := { i with state := change i.state }
  match owner with
  | some id => { e with instances := e.instances.modify id changeInstance }
  | none => { e with globalScript := e.globalScript.map changeInstance }

def master? (e : Engine) (owner : Option EntityId) : Option EntityId :=
  match owner, (e.instance? owner).bind Instance.master with
  | some id, some master =>
    if master ≠ id ∧ e.instances.contains master then some master else none
  | _, _ => none

def masterState? (e : Engine) (owner : Option EntityId) : Option ScriptState :=
  ((e.master? owner).bind e.instances.get?).map Instance.state

def fresh (e : Engine) (script : Script) : Instance :=
  { script, state := .fresh e.config.maxLocals }

/-- Attaches a script to an entity, in place of the one it had. -/
def attach (e : Engine) (id : EntityId) (script : Script) : Engine :=
  { e with instances := e.instances.set id (e.fresh script) }

/-- Takes the script of an entity away, and its timers with it. -/
def detach (e : Engine) (id : EntityId) : Engine :=
  { e with
    instances := e.instances.erase id
    shared := { e.shared with timers := (e.shared.timers.clearOwner (some id)).2 } }

def setGlobalScript (e : Engine) (script : Script) : Engine :=
  { e with globalScript := some (e.fresh script) }

def reseed (e : Engine) (seed : Nat) : Engine :=
  { e with shared := { e.shared with random := .ofSeed seed } }

/-- Makes an entity the master of another one's script, or none. It fails if the entity has no script
or names itself, and in the second case says so. -/
def setMaster (e : Engine) (id : EntityId) (master : Option EntityId) :
    Bool × Engine × Option Diagnostic :=
  if master = some id then (false, e, some (.ownMaster id))
  else if e.instances.contains id then
    (true, { e with instances := e.instances.modify id fun i => { i with master } }, none)
  else (false, e, none)

/-- Stores a value in the local variables of a script or in the global ones, as its name demands. It
is `none` if the name is local and there is no script. -/
def assign (e : Engine) (owner : Option EntityId) (name : String) (value : Value) :
    Option (Except Failure Engine) :=
  if (Namespace.of name).isLocal then
    (e.instance? owner).map fun i =>
      (i.state.locals.assign name value).map fun locals =>
        e.updateState owner fun s => { s with locals }
  else
    some ((e.shared.globals.assign name value).map fun globals =>
      { e with shared := { e.shared with globals } })

end Engine

end EntityScript
