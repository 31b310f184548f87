import EntityScript.World.Entity

/-!
Events. The engine raises events under known names; scripts send those and any others to each
other, and what is sent waits in a queue.
-/

namespace EntityScript

structure QueuedEvent where
  target : EntityId
  event : String
  params : String
  sender : Option EntityId
deriving DecidableEq, Repr

def systemEvents : List String := [
  "init", "inventoryin", "inventoryout", "inventoryuse", "sceneuse", "equipin", "equipout", "main",
  "reset", "chat", "action", "dead", "reachedtarget", "fight", "flee", "hit", "die", "losttarget",
  "treatout", "move", "detectplayer", "undetectplayer", "combine", "npc_follow", "npc_fight",
  "npc_stay", "inventory2_open", "inventory2_close", "custom", "enter_zone", "leave_zone",
  "initend", "clicked", "insidezone", "controlledzone_inside", "leavezone", "controlledzone_leave",
  "enterzone", "controlledzone_enter", "load", "unload", "reload", "ouch", "hear", "summoned",
  "spellcast", "spellend", "spelldecision", "strike", "collision_error", "waypoint", "pathend",
  "critical", "collide_npc", "backstab", "aggression", "collision_error_detail", "game_ready",
  "cine_end", "key_pressed", "controls_on", "controls_off", "pathfinder_failure",
  "pathfinder_success", "trap_disarmed", "book_open", "book_close", "identify", "break", "steal",
  "collide_door", "collide_field", "cursormode", "explorationmode"]

def isSystemEvent (name : String) : Bool := systemEvents.contains name

end EntityScript
