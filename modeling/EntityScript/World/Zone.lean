import EntityScript.Dict
import EntityScript.World.Entity

/-!
Zones: outlines on the ground, extruded upwards. A point lies inside an outline if a ray from it
crosses the outline an odd number of times.
-/

namespace EntityScript

structure Corner where
  x : Float32
  z : Float32
deriving DecidableEq, Repr

structure Zone where
  name : String
  outline : List Corner
  /-- Lowest height that belongs to the zone. -/
  floor : Float32
  /-- Extent above the floor; none if not positive, and then all heights belong to the zone. -/
  height : Float32
deriving DecidableEq, Repr

namespace Zone

def rectangle (x₀ z₀ x₁ z₁ : Float32) : List Corner := [⟨x₀, z₀⟩, ⟨x₁, z₀⟩, ⟨x₁, z₁⟩, ⟨x₀, z₁⟩]

/-- The edges of a closed outline, each from a corner to the next; the first one leads from the
last corner to the first. -/
def edges (outline : List Corner) : List (Corner × Corner) :=
  match outline.getLast? with
  | none => []
  | some last => (last :: outline).zip outline

/-- The ray from `(x, z)` in the direction of growing `x` crosses the edge. -/
def crosses (x z : Float32) (edge : Corner × Corner) : Bool :=
  let (a, b) := edge
  decide (b.z > z) != decide (a.z > z)
    && decide (x < (a.x - b.x) * (z - b.z) / (a.z - b.z) + b.x)

/-- The outline encloses `(x, z)`. Less than three corners enclose nothing. -/
def encloses (outline : List Corner) (x z : Float32) : Bool :=
  3 ≤ outline.length && (edges outline).countP (crosses x z) % 2 == 1

def contains (zone : Zone) (p : Point) : Bool :=
  !(decide (zone.height > 0)
      && (decide (p.y < zone.floor) || decide (p.y > zone.floor + zone.height)))
    && encloses zone.outline p.x p.z

end Zone

/-- Zones by name, in any case. -/
abbrev ZoneMap := Dict String Zone

namespace ZoneMap

/-- Adds a zone, in place of one of the same name. -/
def insert (zones : ZoneMap) (zone : Zone) : ZoneMap := zones.set (Text.lowercase zone.name) zone

def find? (zones : ZoneMap) (name : String) : Option Zone := zones.get? (Text.lowercase name)

end ZoneMap

end EntityScript
