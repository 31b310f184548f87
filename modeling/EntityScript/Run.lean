import EntityScript.Random
import EntityScript.State
import EntityScript.Timer
import EntityScript.World

/-!
A run carries out the statements of one script, from a handler or a timer on. Its state is all that
statements can see and change: the place in the text, the places to return to, the state of the
script and of its master, what all scripts share, and the world. The owner and the script itself stay
what they are. The sender is that of the event, but while a statement sends events it is the one who
sends them. What a run leaves for readers goes into its journal.
-/

namespace EntityScript

structure Shared where
  globals : VariableTable
  timers : TimerPool
  random : Generator
  maxCallDepth : Nat

/-- What the commands for observing scripts leave behind. -/
inductive Note
  | said (words : List String)
  | refused (failure : Failure)
  | probed (position callDepth : Nat) (command : String) (params : List String) (owner : String)

structure Journal where
  diagnostics : Array Diagnostic := #[]
  notes : Array Note := #[]

namespace Journal

def append (a b : Journal) : Journal := ⟨a.diagnostics ++ b.diagnostics, a.notes ++ b.notes⟩

end Journal

/-- The places to return to, the next one first. Their number is kept along with them. -/
structure CallStack where
  places : List Text.Place := []
  depth : Nat := places.length
  depth_eq : depth = places.length := by rfl

namespace CallStack

def empty : CallStack := {}

def push (place : Text.Place) (s : CallStack) : CallStack :=
  { places := place :: s.places, depth := s.depth + 1, depth_eq := by simp [s.depth_eq] }

def pop? (s : CallStack) : Option (Text.Place × CallStack) :=
  match h : s.places with
  | [] => none
  | place :: places =>
    some (place, { places, depth := s.depth - 1, depth_eq := by simp [s.depth_eq, h] })

theorem pop?_push (place : Text.Place) (s : CallStack) :
    (s.push place).pop? = some (place, s) := rfl

theorem pop?_eq_none_iff {s : CallStack} : s.pop? = none ↔ s.depth = 0 := by
  unfold pop?
  split
  · rename_i h; simp [s.depth_eq, h]
  · rename_i h; simp [s.depth_eq, h]

end CallStack

structure Run where
  script : Script
  /-- Where the run is in the text of the script. -/
  place : Text.Place
  calls : CallStack := .empty
  owner : Option EntityId
  /-- The command word that is being carried out. -/
  command : String := ""
  params : List String := []
  own : ScriptState
  /-- The state of the master, if the script has one. -/
  master : Option ScriptState := none
  shared : Shared
  world : World
  sender : Option EntityId
  journal : Journal := {}

namespace Run

def rest (r : Run) : List Char := r.place.rest

def position (r : Run) : Nat := r.place.position r.script.text

def callDepth (r : Run) : Nat := r.calls.depth

def ownerName (r : Run) : String := r.world.nameOf r.owner

/-- The state whose stopwatches and switched-off events count: the master's, or its own. -/
def leading (r : Run) : ScriptState := r.master.getD r.own

def updateLeading (r : Run) (change : ScriptState → ScriptState) : Run :=
  match r.master with
  | some m => { r with master := some (change m) }
  | none => { r with own := change r.own }

end Run

/-- A part of a run. -/
abbrev Exec := StateM Run

namespace Exec

def report (d : Diagnostic) : Exec Unit :=
  modify fun r => { r with journal := { r.journal with diagnostics := r.journal.diagnostics.push d } }

def note (n : Note) : Exec Unit :=
  modify fun r => { r with journal := { r.journal with notes := r.journal.notes.push n } }

def continueAt (rest : List Char) : Exec Unit :=
  modify fun r => { r with place := r.place.readTo rest }

/-- Goes to a position, or to the end of the text if that comes first. -/
def seek (position : Nat) : Exec Unit :=
  modify fun r => { r with place := r.script.placeAt (min position r.script.size) }

end Exec

end EntityScript
