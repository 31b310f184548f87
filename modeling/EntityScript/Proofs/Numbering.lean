import EntityScript.Proofs.Ticks
import Mathlib.Data.List.Induction
import Mathlib.Data.List.Nodup
import Mathlib.Logic.Function.Basic

/-!
The numbers that a registry gives. However callers add entities under numbers of their own, take
entities out and let the registry give numbers, the registry knows who was last added under a number
and not taken out since, and lists the living in ascending order. The number that it gives next is
one that nobody had, except when the last number there is has been used: that one it gives again, and
whoever lives under it is replaced.
-/

namespace EntityScript

namespace Registry

variable {e f : Entity} {l : List Entity} {r : Registry}

theorem find?_place (e : Entity) (id : EntityId) (l : List Entity) :
    (place e l).find? (·.id == id) = if id = e.id then some e else l.find? (·.id == id) := by
  induction l with
  | nil => by_cases h : id = e.id <;> simp [place, h, Ne.symm]
  | cons g l ih =>
    rw [place]
    split
    · by_cases h : id = e.id <;> simp [h, Ne.symm]
    · split
      · rename_i heq
        by_cases h : id = e.id
        · simp [h]
        · simp [h, Ne.symm h, ← heq]
      · rename_i hne
        rw [List.find?_cons, ih, List.find?_cons]
        by_cases h : id = e.id
        · simp [h, beq_eq_false_iff_ne.2 (Ne.symm hne)]
        · simp [h]

theorem length_place_of_absent (h : ∀ f ∈ l, f.id ≠ e.id) : (place e l).length = l.length + 1 := by
  induction l with
  | nil => rfl
  | cons g l ih =>
    rw [List.forall_mem_cons] at h
    rw [place]
    split
    · rfl
    · rw [if_neg h.1.symm, List.length_cons, ih h.2, List.length_cons]

/-- Whoever comes in another's place stands where the other one stood. -/
theorem place_of_mem (hasc : l.Pairwise (·.id < ·.id)) (hf : f ∈ l) (hid : f.id = e.id) :
    ∃ below above, l = below ++ f :: above ∧ place e l = below ++ e :: above := by
  induction l with
  | nil => cases hf
  | cons g l ih =>
    rw [List.pairwise_cons] at hasc
    rw [place]
    rcases List.mem_cons.1 hf with rfl | hf
    · rw [if_neg (hid ▸ UInt32.lt_irrefl _), if_pos hid.symm]
      exact ⟨[], l, rfl, rfl⟩
    · have hlt : g.id < e.id := hid ▸ hasc.1 f hf
      rw [if_neg (UInt32.lt_asymm hlt), if_neg (UInt32.ne_of_lt hlt).symm]
      obtain ⟨below, above, rfl, hplace⟩ := ih hasc.2 hf
      exact ⟨g :: below, above, rfl, congrArg (g :: ·) hplace⟩

theorem ids_place_of_present (hasc : l.Pairwise (·.id < ·.id)) (h : ∃ f ∈ l, f.id = e.id) :
    (place e l).map (·.id) = l.map (·.id) := by
  obtain ⟨f, hf, hid⟩ := h
  obtain ⟨below, above, rfl, hplace⟩ := place_of_mem hasc hf hid
  simp [hplace, hid]

theorem length_place_of_present (hasc : l.Pairwise (·.id < ·.id)) (h : ∃ f ∈ l, f.id = e.id) :
    (place e l).length = l.length := by
  simpa using congrArg List.length (ids_place_of_present hasc h)

theorem get?_insert (r : Registry) (e : Entity) (id : EntityId) :
    (r.insert e).get? id = if id = e.id then some e else r.get? id :=
  find?_place e id r.entities

theorem get?_remove (r : Registry) (id j : EntityId) :
    (r.remove id).get? j = if j = id then none else r.get? j := by
  rw [get?, remove, List.find?_filter]
  by_cases h : j = id
  · simp [h]
  · rw [if_neg h, get?]
    congr 1
    funext f
    by_cases hf : f.id = j
    · simp [hf, h]
    · simp [hf]

theorem size_insert (r : Registry) (e : Entity) :
    (r.insert e).size = if (r.get? e.id).isSome then r.size else r.size + 1 := by
  split
  · rename_i hthere
    exact length_place_of_present r.ascending (isSome_get?_iff.1 hthere)
  · rename_i hfree
    exact length_place_of_absent fun f hf hid => hfree (isSome_get?_iff.2 ⟨f, hf, hid⟩)

theorem mem_iff_get? : f ∈ r.entities ↔ r.get? f.id = some f := by
  refine ⟨fun hf => ?_, List.mem_of_find?_eq_some⟩
  obtain ⟨g, hg⟩ := Option.isSome_iff_exists.1 (isSome_get?_iff.2 ⟨f, hf, rfl⟩)
  have hids : (r.entities.map (·.id)).Nodup :=
    List.pairwise_map.2 (r.ascending.imp UInt32.ne_of_lt)
  have hid : g.id = f.id := by simpa using List.find?_some hg
  rw [hg, List.inj_on_of_nodup_map hids (List.mem_of_find?_eq_some hg) hf hid]

theorem toNat_nextId_insert (r : Registry) (e : Entity) :
    (r.insert e).nextId.toNat = max r.nextId.toNat (idAfter e.id).toNat := by
  change (if r.nextId ≤ idAfter e.id then idAfter e.id else r.nextId).toNat = _
  split
  · rename_i hle
    exact (max_eq_right (UInt32.le_iff_toNat_le.1 hle)).symm
  · rename_i hle
    exact (max_eq_left (Nat.le_of_not_le (mt UInt32.le_iff_toNat_le.2 hle))).symm

theorem le_lastId (id : EntityId) : id ≤ lastId := by
  rw [UInt32.le_iff_toNat_le]
  exact Nat.le_of_lt_succ id.toNat_lt

theorem toNat_idAfter_le (id : EntityId) : (idAfter id).toNat ≤ id.toNat + 1 := by
  unfold idAfter
  split
  · rename_i hlast
    exact hlast ▸ Nat.le_succ _
  · rw [UInt32.toNat_add]
    exact Nat.mod_le _ _

/-- No number is below the one after it, but for the last. -/
theorem idAfter_le_self_iff {id : EntityId} : idAfter id ≤ id ↔ id = lastId := by
  unfold idAfter
  split
  · rename_i hlast
    simp [hlast]
  · rename_i hlast
    have hne : id.toNat ≠ lastId.toNat := fun h => hlast (UInt32.toNat_inj.1 h)
    have hbound := UInt32.le_iff_toNat_le.1 (le_lastId id)
    have hlastNat : lastId.toNat = 4294967295 := rfl
    rw [iff_false_right hlast, UInt32.le_iff_toNat_le, UInt32.toNat_add, Nat.mod_eq_of_lt (by simp; omega)]
    simp

inductive Act where
  | insert (e : Entity)
  | remove (id : EntityId)
  | spawn (describe : EntityId → Entity)

def Act.isSpawn : Act → Bool
  | .spawn _ => true
  | _ => false

end Registry

/-- A registry with its past: every number that an entity was added under, and whoever was last added
under a number and not taken out since. -/
structure Census where
  registry : Registry := .empty
  used : List EntityId := []
  living : EntityId → Option Entity := fun _ => none

namespace Census

open Registry (lastId idAfter)

variable {c : Census} {acts : List Registry.Act}

def add (c : Census) (e : Entity) (r : Registry) : Census :=
  ⟨r, e.id :: c.used, Function.update c.living e.id (some e)⟩

def take (c : Census) : Registry.Act → Census
  | .insert e => c.add e (c.registry.insert e)
  | .remove id =>
    { c with registry := c.registry.remove id, living := Function.update c.living id none }
  | .spawn describe =>
    let (e, r) := c.registry.spawn describe
    c.add e r

/-- Where these calls lead to when nobody has lived before. -/
def after (acts : List Registry.Act) : Census := acts.foldl take {}

theorem living_add (c : Census) (e : Entity) (r : Registry) (id : EntityId) :
    (c.add e r).living id = if id = e.id then some e else c.living id :=
  Function.update_apply ..

theorem living_remove (c : Census) (id j : EntityId) :
    (c.take (.remove id)).living j = if j = id then none else c.living j :=
  Function.update_apply ..

theorem after_concat (acts : List Registry.Act) (act : Registry.Act) :
    after (acts ++ [act]) = (after acts).take act :=
  List.foldl_concat ..

/-- The registry knows the living, and the next number is past all that were used, unless there is no
number past them. -/
structure Sound (c : Census) : Prop where
  known : ∀ id, c.registry.get? id = c.living id
  counted : ∀ id, (c.living id).isSome → id ∈ c.used
  passed : ∀ id ∈ c.used, idAfter id ≤ c.registry.nextId

namespace Sound

theorem insert (h : c.Sound) (e : Entity) : (c.add e (c.registry.insert e)).Sound where
  known id := by
    rw [living_add, ← h.known]
    exact Registry.get?_insert ..
  counted id hid := by
    rw [living_add] at hid
    split at hid
    · rename_i heq
      exact heq ▸ List.mem_cons_self
    · exact List.mem_cons_of_mem _ (h.counted id hid)
  passed id hid := by
    rw [add, UInt32.le_iff_toNat_le, Registry.toNat_nextId_insert]
    rcases List.mem_cons.1 hid with rfl | hid
    · exact le_max_right ..
    · exact (UInt32.le_iff_toNat_le.1 (h.passed id hid)).trans (le_max_left ..)

theorem remove (h : c.Sound) (id : EntityId) : (c.take (.remove id)).Sound where
  known j := by
    rw [living_remove, ← h.known]
    exact Registry.get?_remove ..
  counted j hj := by
    rw [living_remove] at hj
    split at hj
    · cases hj
    · exact h.counted j hj
  passed := h.passed

theorem take (h : c.Sound) : (act : Registry.Act) → (c.take act).Sound
  | .insert e => h.insert e
  | .remove id => h.remove id
  | .spawn describe => h.insert { describe c.registry.nextId with id := c.registry.nextId }

theorem after (acts : List Registry.Act) : (Census.after acts).Sound := by
  induction acts using List.reverseRecOn with
  | nil => exact ⟨fun _ => rfl, fun _ h => (nomatch h), fun _ h => (nomatch h)⟩
  | append_singleton acts act ih =>
    rw [after_concat]
    exact ih.take act

theorem nextId_eq_lastId (h : c.Sound) (hlast : lastId ∈ c.used) : c.registry.nextId = lastId :=
  UInt32.le_antisymm (Registry.le_lastId _) (h.passed lastId hlast)

/-- The next number was used before only if it is the last there is. -/
theorem nextId_mem_used_iff (h : c.Sound) : c.registry.nextId ∈ c.used ↔ lastId ∈ c.used := by
  constructor
  · intro hused
    exact Registry.idAfter_le_self_iff.1 (h.passed _ hused) ▸ hused
  · intro hlast
    exact (h.nextId_eq_lastId hlast).symm ▸ hlast

/-- Nobody but the one under the last number can live under the next. -/
theorem living_nextId (h : c.Sound) : c.living c.registry.nextId = c.living lastId := by
  by_cases hlast : lastId ∈ c.used
  · rw [h.nextId_eq_lastId hlast]
  · have hnext := mt h.nextId_mem_used_iff.1 hlast
    rw [Option.not_isSome_iff_eq_none.1 (mt (h.counted _) hlast),
      Option.not_isSome_iff_eq_none.1 (mt (h.counted _) hnext)]

end Sound

/-- The numbers used are those that callers chose and as many more as the registry gave. -/
structure Within (c : Census) (bound : Nat) : Prop where
  used : ∀ id ∈ c.used, id.toNat ≤ bound
  next : c.registry.nextId.toNat ≤ bound + 1

namespace Within

variable {bound : Nat}

theorem mono (h : c.Within bound) {more : Nat} (hle : bound ≤ more) : c.Within more :=
  ⟨fun id hid => (h.used id hid).trans hle, h.next.trans (Nat.succ_le_succ hle)⟩

theorem insert (h : c.Within bound) {e : Entity} (he : e.id.toNat ≤ bound) :
    (c.add e (c.registry.insert e)).Within bound where
  used id hid := by
    rcases List.mem_cons.1 hid with rfl | hid
    · exact he
    · exact h.used id hid
  next := by
    rw [add, Registry.toNat_nextId_insert]
    exact max_le h.next ((Registry.toNat_idAfter_le _).trans (Nat.succ_le_succ he))

theorem after {m : EntityId} (acts : List Registry.Act) (hm : ∀ e, .insert e ∈ acts → e.id ≤ m) :
    (Census.after acts).Within (m.toNat + acts.countP (·.isSpawn)) := by
  induction acts using List.reverseRecOn with
  | nil => exact ⟨fun _ h => (nomatch h), Nat.le_add_left ..⟩
  | append_singleton acts act ih =>
    have hbefore := ih fun e he => hm e (List.mem_append_left _ he)
    rw [after_concat, List.countP_append]
    cases act with
    | insert e =>
      have he := UInt32.le_iff_toNat_le.1 (hm e (by simp))
      exact hbefore.insert (he.trans (Nat.le_add_right ..))
    | remove id => exact ⟨hbefore.used, hbefore.next⟩
    | spawn describe => exact (hbefore.mono (Nat.le_succ _)).insert hbefore.next

end Within

theorem lastId_not_mem_used {m : EntityId} (hm : ∀ e, .insert e ∈ acts → e.id ≤ m)
    (hroom : m.toNat + acts.countP (·.isSpawn) < lastId.toNat) : lastId ∉ (after acts).used :=
  fun hlast => absurd ((Within.after acts hm).used _ hlast) (Nat.not_le.2 hroom)

/-- Whatever came and went, the registry lists the living in ascending order, and the number that it
gives to a newcomer is one that no entity came under before exactly when none came under the last
number there is: in particular when the numbers that callers chose leave room for those given. Else
the newcomer gets the last number, and takes the place of whoever lives under it; it takes nobody
else's place. -/
theorem spawn_fresh_iff (acts : List Registry.Act) (describe : EntityId → Entity) :
    let c := after acts
    let e := (c.registry.spawn describe).1
    let r := (c.registry.spawn describe).2
    c.registry.entities.Pairwise (·.id < ·.id) ∧
      (∀ f, f ∈ c.registry.entities ↔ c.living f.id = some f) ∧
      (e.id ∉ c.used ↔ lastId ∉ c.used) ∧
      (lastId ∈ c.used → e.id = lastId) ∧
      c.registry.get? e.id = c.living lastId ∧
      r.size = (if (c.living lastId).isSome then c.registry.size else c.registry.size + 1) ∧
      (∀ id, r.get? id = if id = e.id then some e else c.registry.get? id) ∧
      ∀ m : EntityId, (∀ e, .insert e ∈ acts → e.id ≤ m) →
        m.toNat + acts.countP (·.isSpawn) < lastId.toNat → lastId ∉ c.used := by
  intro c e r
  have hsound : c.Sound := Sound.after acts
  have hplace : c.registry.get? e.id = c.living lastId :=
    (hsound.known _).trans hsound.living_nextId
  refine ⟨c.registry.ascending, fun f => ?_, hsound.nextId_mem_used_iff.not, hsound.nextId_eq_lastId,
    hplace, ?_, Registry.get?_insert c.registry e, fun m => lastId_not_mem_used⟩
  · rw [Registry.mem_iff_get?, hsound.known]
  · rw [← hplace]
    exact Registry.size_insert c.registry e

end Census

def lastborn : Entity := ⟨Registry.lastId, "a", .npc, ⟨0⟩, .origin, [], true, 0⟩

/-- An entity under the last number is replaced by the next that gets a number. -/
theorem spawn_replaces_lastborn :
    let c := Census.after [.insert lastborn]
    let e := (c.registry.spawn fun id => { lastborn with id, name := "b" }).1
    let r := (c.registry.spawn fun id => { lastborn with id, name := "b" }).2
    c.registry.get? Registry.lastId = some lastborn ∧ e.id ∈ c.used ∧
      r.get? Registry.lastId = some e ∧ r.size = c.registry.size := by
  decide

end EntityScript
