import EntityScript.Variable

/-!
What a script keeps between its runs: local variables, four stopwatches, the standard events it has
switched off, and the handler it has chosen for the event `main`.
-/

namespace EntityScript

/-- A stopwatch, with the moment it was started at if it runs. -/
structure Stopwatch where
  start : Option Nat := none
deriving DecidableEq, Repr, Inhabited

namespace Stopwatch

def named? : String → Option (Fin 4)
  | "timer1" => some 0
  | "timer2" => some 1
  | "timer3" => some 2
  | "timer4" => some 3
  | _ => none

/-- A stopwatch started now. Moment 0 counts as moment 1. -/
def startedAt (now : Nat) : Stopwatch := ⟨some (max 1 now)⟩

/-- Milliseconds since the start, 0 when stopped. -/
def elapsed (w : Stopwatch) (now : Nat) : Nat :=
  match w.start with
  | none => 0
  | some start => now - start

end Stopwatch

def standardEvents : List String :=
  ["collide_npc", "chat", "hit", "inventory2_open", "detectplayer", "hear", "aggression", "main",
    "cursormode", "explorationmode"]

def standardEvent? (name : String) : Option (Fin 10) := standardEvents.finIdxOf? name

structure EventSet where
  members : Vector Bool 10 := Vector.replicate 10 false
deriving DecidableEq, Repr

namespace EventSet

def contains (s : EventSet) (event : Fin 10) : Bool := s.members[event]

def put (s : EventSet) (event : Fin 10) (inside : Bool) : EventSet :=
  ⟨s.members.set event inside⟩

def bits (s : EventSet) : Nat :=
  s.members.toList.foldr (fun inside rest => 2 * rest + inside.toNat) 0

end EventSet

structure ScriptState where
  locals : VariableTable
  stopwatches : Vector Stopwatch 4 := Vector.replicate 4 {}
  disabled : EventSet := {}
  /-- The handler that runs for the event `main`, if it is another one. -/
  mainEvent : Option String := none

namespace ScriptState

def fresh (maxLocals : Nat) : ScriptState := { locals := .withCapacity maxLocals }

def setStopwatch (s : ScriptState) (place : Fin 4) (w : Stopwatch) : ScriptState :=
  { s with stopwatches := s.stopwatches.set place w }

def elapsed (s : ScriptState) (place : Fin 4) (now : Nat) : Nat :=
  s.stopwatches[place].elapsed now

/-- Chooses the handler for `main`; no name and `main` itself stand for the usual one. -/
def setMainEvent (s : ScriptState) (event : String) : ScriptState :=
  let event := Text.lowercase event
  { s with mainEvent := if event == "" || event == "main" then none else some event }

def handlerOf (s : ScriptState) (event : String) : String :=
  if event == "main" then s.mainEvent.getD event else event

def switchEvent (s : ScriptState) (event : Fin 10) (on : Bool) : ScriptState :=
  { s with disabled := s.disabled.put event !on }

def allows (s : ScriptState) (event : String) : Bool :=
  match standardEvent? event with
  | some place => !s.disabled.contains place
  | none => true

end ScriptState

end EntityScript
