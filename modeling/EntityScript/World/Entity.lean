import EntityScript.Text.Lowercase

/-!
Entities, the objects of the world that scripts belong to. An entity is of some kinds, may be an
item of some types, stands at a point, belongs to groups, and counts the events it has sent.
-/

namespace EntityScript

abbrev EntityId := UInt32

def showId (id : EntityId) : String := s!"#{id.toNat}"

/-- A set of kinds of objects, one bit for each kind. -/
structure Kinds where
  bits : UInt32
deriving DecidableEq, Repr

namespace Kinds

def none : Kinds := ⟨0⟩
def npc : Kinds := ⟨1⟩
def fixed : Kinds := ⟨2⟩
def item : Kinds := ⟨4⟩
def camera : Kinds := ⟨8⟩
def marker : Kinds := ⟨16⟩

def union (a b : Kinds) : Kinds := ⟨a.bits ||| b.bits⟩

def meets (a b : Kinds) : Bool := a.bits &&& b.bits != 0

/-- Cameras and markers are never reached by events sent to many. -/
def deaf : Kinds := camera.union marker

end Kinds

/-- A set of item types, one bit for each type. -/
structure ItemTypes where
  bits : UInt32
deriving DecidableEq, Repr

namespace ItemTypes

/-- The names of the item types; the place of a name is its bit. -/
def names : List String :=
  ["weapon", "dagger", "1h", "2h", "bow", "shield", "food", "gold", "armor", "helmet", "leggings"]

/-- The item type with this name, in any ASCII case. -/
def named? (name : String) : Option ItemTypes :=
  (names.idxOf? (Text.asciiLowercase name)).map fun place => ⟨1 <<< UInt32.ofNat place⟩

def meets (a b : ItemTypes) : Bool := a.bits &&& b.bits != 0

end ItemTypes

/-- A point of the world; `y` points upwards. -/
structure Point where
  x : Float32
  y : Float32
  z : Float32
deriving DecidableEq, Repr

namespace Point

def origin : Point := ⟨0, 0, 0⟩

def distanceSquared (p q : Point) : Float32 :=
  let dx := p.x - q.x
  let dy := p.y - q.y
  let dz := p.z - q.z
  dx * dx + dy * dy + dz * dz

def distance (p q : Point) : Float32 := (p.distanceSquared q).sqrt

end Point

structure Entity where
  id : EntityId
  name : String
  kinds : Kinds
  itemTypes : ItemTypes := ⟨0⟩
  position : Point := .origin
  groups : List String := []
  idle : Bool := true
  /-- Number of events the entity has sent. -/
  sent : Nat := 0
deriving DecidableEq, Repr

namespace Entity

def inGroup (e : Entity) (group : String) : Bool := e.groups.contains group

def join (e : Entity) (group : String) : Entity :=
  if e.inGroup group then e else { e with groups := e.groups ++ [group] }

def leave (e : Entity) (group : String) : Entity :=
  { e with groups := e.groups.filter (· ≠ group) }

def countSent (e : Entity) : Entity := { e with sent := e.sent + 1 }

end Entity

end EntityScript
