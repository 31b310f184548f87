import EntityScript.World.Event
import EntityScript.World.Registry
import EntityScript.World.Zone

/-!
The world around the scripts: its entities and zones, the queue of events that were sent, and the
time on its clock, in milliseconds.
-/

namespace EntityScript

structure World where
  entities : Registry := .empty
  zones : ZoneMap := Dict.empty
  queue : Array QueuedEvent := #[]
  now : Nat := 0

namespace World

def enqueue (w : World) (e : QueuedEvent) : World := { w with queue := w.queue.push e }

/-- The name of an entity, for a reader: `none` for no entity and for a removed one. -/
def nameOf (w : World) (id : Option EntityId) : String :=
  match id.bind w.entities.get? with
  | some e => e.name
  | none => "none"

end World

end EntityScript
