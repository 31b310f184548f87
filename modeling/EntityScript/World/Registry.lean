import EntityScript.World.Entity

/-!
The registry of living entities, in ascending order of their numbers. New entities get numbers that
no entity had before, up to the last number there is.
-/

namespace EntityScript

structure Registry where
  entities : List Entity
  nextId : EntityId
  /-- Each number is above the one before it. -/
  ascending : entities.Pairwise (·.id < ·.id)

namespace Registry

/-- The entities with `e` among them, in the place of the one that had its number, if any. -/
def place (e : Entity) : List Entity → List Entity
  | [] => [e]
  | f :: rest =>
    if e.id < f.id then e :: f :: rest
    else if e.id = f.id then e :: rest
    else f :: place e rest

theorem mem_place {e f : Entity} {l : List Entity} (h : f ∈ place e l) : f = e ∨ f ∈ l := by
  induction l with
  | nil => simpa [place] using h
  | cons g l ih =>
    rw [place] at h
    split at h
    · simpa using h
    · split at h
      · rcases List.mem_cons.1 h with h | h
        · exact .inl h
        · exact .inr (List.mem_cons_of_mem _ h)
      · rcases List.mem_cons.1 h with h | h
        · exact .inr (h ▸ List.mem_cons_self)
        · exact (ih h).imp_right (List.mem_cons_of_mem _)

theorem ascending_place (e : Entity) {l : List Entity} (h : l.Pairwise (·.id < ·.id)) :
    (place e l).Pairwise (·.id < ·.id) := by
  induction l with
  | nil => simp [place]
  | cons g l ih =>
    rw [List.pairwise_cons] at h
    rw [place]
    split
    · rename_i hlt
      refine List.pairwise_cons.2 ⟨fun f hf => ?_, List.pairwise_cons.2 h⟩
      rcases List.mem_cons.1 hf with rfl | hf
      · exact hlt
      · exact UInt32.lt_trans hlt (h.1 f hf)
    · split
      · rename_i heq
        exact List.pairwise_cons.2 ⟨fun f hf => heq ▸ h.1 f hf, h.2⟩
      · rename_i hlt hne
        refine List.pairwise_cons.2 ⟨fun f hf => ?_, ih h.2⟩
        rcases mem_place hf with rfl | hf
        · exact UInt32.lt_of_le_of_ne (UInt32.not_lt.1 hlt) (Ne.symm hne)
        · exact h.1 f hf

/-- No entities; numbering begins with 1. -/
def empty : Registry := ⟨[], 1, List.Pairwise.nil⟩

def size (r : Registry) : Nat := r.entities.length

def get? (r : Registry) (id : EntityId) : Option Entity := r.entities.find? (·.id == id)

def lastId : EntityId := 4294967295

/-- The number after `id`; there is none after the last. -/
def idAfter (id : EntityId) : EntityId := if id = lastId then lastId else id + 1

/-- Adds an entity, in place of the one that had its number. Its number will not be given again. -/
def insert (r : Registry) (e : Entity) : Registry :=
  ⟨place e r.entities, max r.nextId (idAfter e.id), ascending_place e r.ascending⟩

def spawn (r : Registry) (describe : EntityId → Entity) : Entity × Registry :=
  let e := { describe r.nextId with id := r.nextId }
  (e, r.insert e)

def remove (r : Registry) (id : EntityId) : Registry :=
  { r with
    entities := r.entities.filter (·.id != id)
    ascending := r.ascending.sublist List.filter_sublist }

/-- Changes an entity, except for its number. -/
def update (r : Registry) (id : EntityId) (change : Entity → Entity) : Registry :=
  match r.get? id with
  | none => r
  | some e =>
    { r with
      entities := place { change e with id := id } r.entities
      ascending := ascending_place _ r.ascending }

/-- The entity that a script running for `caller` means by `name`. Which one of several namesakes that
is, the world leaves open, as it keeps its entities in no fixed order; here it is the one with the
lowest number. -/
def find? (r : Registry) (name : String) (caller : Option EntityId) : Option Entity :=
  match Text.asciiLowercase name with
  | "" | "none" => none
  | "self" | "me" => caller.bind r.get?
  | _ => r.entities.find? fun e => Text.sameAsciiCaseless e.name name

end Registry

end EntityScript
