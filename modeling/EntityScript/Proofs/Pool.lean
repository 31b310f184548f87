import EntityScript.Timer
import Mathlib.Tactic.ByContra

/-! The pool slot by slot: what each operation leaves in every slot, how it counts, and that the
number of slots stays. Everything else about timers is read off these. -/

namespace EntityScript

namespace Timer

def Alike (t u : Timer) : Prop := u = { t with times := u.times, started := u.started }

namespace Alike

theorem refl (t : Timer) : Alike t t := rfl

theorem trans {t u v : Timer} (h₁ : Alike t u) (h₂ : Alike u v) : Alike t v := by
  unfold Alike at *
  rw [h₂, h₁]

variable {t u : Timer} (h : Alike t u)
include h

theorem name : u.name = t.name := by rw [h]

theorem owner : u.owner = t.owner := by rw [h]

theorem script : u.script = t.script := by rw [h]

theorem resumeAt : u.resumeAt = t.resumeAt := by rw [h]

theorem period : u.period = t.period := by rw [h]

theorem idleOnly : u.idleOnly = t.idleOnly := by rw [h]

theorem hasKey (name : String) (owner : Option EntityId) : u.hasKey name owner = t.hasKey name owner := by
  rw [Timer.hasKey, Timer.hasKey, h.name, h.owner]

end Alike

theorem rearm_alike {t u : Timer} {now : Nat} (h : t.rearm now = some u) : Alike t u := by
  unfold rearm at h
  split at h <;> cases h <;> rfl

end Timer

namespace TimerPool

variable {p q : TimerPool} {t u : Timer} {slot i : Nat}

theorem lt_capacity_of_get? (h : p.get? slot = some t) : slot < p.capacity := by
  by_contra hge
  rw [get?, Array.getElem?_eq_none (Nat.not_lt.1 hge)] at h
  cases h

theorem mem_slots_iff : some t ∈ p.slots ↔ ∃ slot, p.get? slot = some t := by
  simp only [get?, Option.join_eq_some_iff, Array.mem_iff_getElem?]

theorem get?_withCapacity (n : Nat) : (withCapacity n).get? i = none := by
  rw [get?, withCapacity, Array.getElem?_replicate]
  split <;> rfl

def put (p : TimerPool) (slot : Nat) (content : Option Timer) (active : Nat) : TimerPool :=
  ⟨p.slots.set! slot content, active⟩

theorem capacity_put (content : Option Timer) (active : Nat) :
    (p.put slot content active).capacity = p.capacity := by
  simp [put, capacity]

theorem get?_put {content : Option Timer} {active : Nat} (h : slot < p.capacity) :
    (p.put slot content active).get? i = if i = slot then content else p.get? i := by
  rw [get?, put, Array.set!_eq_setIfInBounds, Array.getElem?_setIfInBounds]
  by_cases hi : slot = i
  · subst hi
    have hsize : slot < p.slots.size := h
    rw [if_pos rfl, if_pos hsize, if_pos rfl]
    rfl
  · rw [if_neg hi, if_neg (Ne.symm hi)]
    rfl

/-- As many timers are counted as there are in the slots. -/
def Counted (p : TimerPool) : Prop := p.active = p.slots.countP (·.isSome)

theorem counted_withCapacity (n : Nat) : (withCapacity n).Counted := by
  rw [Counted, withCapacity, Array.countP_replicate]
  rfl

theorem Counted.le_capacity (h : p.Counted) : p.active ≤ p.capacity := by
  rw [h]
  exact Array.countP_le_size

theorem isSome_get? (h : slot < p.slots.size) : (p.get? slot).isSome = p.slots[slot].isSome := by
  rw [get?, Array.getElem?_eq_getElem h]
  rfl

def Full (p : TimerPool) : Prop := ∀ slot < p.capacity, ∃ t, p.get? slot = some t

theorem full_iff : p.Full ↔ none ∉ p.slots := by
  constructor
  · intro h hnone
    obtain ⟨slot, hlt, hfree⟩ := Array.mem_iff_getElem.1 hnone
    obtain ⟨t, hget⟩ := h slot hlt
    have hsome := isSome_get? (p := p) hlt
    rw [hget, hfree] at hsome
    cases hsome
  · intro h slot hlt
    have hsize : slot < p.slots.size := hlt
    refine Option.isSome_iff_exists.1 ?_
    rw [isSome_get? hsize, Option.isSome_iff_ne_none]
    exact fun hfree => h (hfree ▸ Array.getElem_mem hsize)

theorem counted_put {content : Option Timer} {active : Nat} (hslot : slot < p.capacity)
    (h : p.Counted)
    (hactive : active + (p.get? slot).isSome.toNat = p.active + content.isSome.toNat) :
    (p.put slot content active).Counted := by
  have hsize : slot < p.slots.size := hslot
  have hlength : slot < p.slots.toList.length := by simpa using hsize
  have hheld : p.slots.toList[slot].isSome = (p.get? slot).isSome := by
    rw [isSome_get? hsize, Array.getElem_toList hsize]
  have hpos : (p.get? slot).isSome.toNat ≤ p.slots.toList.countP (·.isSome) := by
    cases hsome : (p.get? slot).isSome with
    | false => exact Nat.zero_le _
    | true => exact List.countP_pos_iff.2 ⟨_, List.getElem_mem hlength, hheld.trans hsome⟩
  rw [Counted, ← Array.countP_toList] at h
  rw [Counted, put, Array.set!_eq_setIfInBounds, ← Array.countP_toList, Array.toList_setIfInBounds,
    List.countP_set hlength, hheld]
  cases hsome : (p.get? slot).isSome <;> cases hnew : content.isSome <;>
    simp only [hsome, hnew, Bool.toNat_true, Bool.toNat_false, if_true, if_false, Bool.false_eq_true]
      at hactive hpos ⊢ <;> omega

section Clear

variable (unwanted : Timer → Bool)

theorem capacity_clearWhere : (p.clearWhere unwanted).2.capacity = p.capacity := by
  simp [clearWhere, capacity]

theorem get?_clearWhere : (p.clearWhere unwanted).2.get? i = (p.get? i).filter (!unwanted ·) := by
  rw [get?, clearWhere, Array.getElem?_map, get?]
  cases p.slots[i]? <;> rfl

theorem get?_of_clearWhere (h : (p.clearWhere unwanted).2.get? i = some t) :
    p.get? i = some t ∧ unwanted t = false := by
  rw [get?_clearWhere, Option.filter_eq_some_iff] at h
  exact ⟨h.1, by simpa using h.2⟩

theorem counted_clearWhere (h : p.Counted) : (p.clearWhere unwanted).2.Counted := by
  rw [Counted] at h ⊢
  change p.active - p.slots.countP (·.any unwanted) = (p.slots.map (·.filter (!unwanted ·))).countP (·.isSome)
  rw [h, Array.countP_map, ← Array.countP_toList, ← Array.countP_toList, ← Array.countP_toList]
  induction p.slots.toList with
  | nil => rfl
  | cons slot slots ih =>
    have hle : slots.countP (·.any unwanted) ≤ slots.countP (·.isSome) := by
      refine List.countP_mono_left fun content _ hany => ?_
      cases content with
      | none => cases hany
      | some t => rfl
    cases slot with
    | none => simpa using ih
    | some t =>
      cases hu : unwanted t with
      | true => simpa [hu] using ih
      | false =>
        rw [List.countP_cons_of_pos (by rfl), List.countP_cons_of_neg (by simp [hu]),
          List.countP_cons_of_pos (by simp [hu]), ← ih]
        omega

/-- Where there is nothing to take away, the pool stays as it is. -/
theorem clearWhere_of_none (h : ∀ slot t, p.get? slot = some t → unwanted t = false) :
    (p.clearWhere unwanted).2 = p := by
  have hslots : ∀ content ∈ p.slots, content.any unwanted = false := by
    intro content hmem
    cases content with
    | none => rfl
    | some t =>
      obtain ⟨slot, hget⟩ := mem_slots_iff.1 hmem
      exact h slot t hget
  have hcount : p.slots.countP (·.any unwanted) = 0 :=
    Array.countP_eq_zero.2 fun content hmem => by simp [hslots content hmem]
  have hkept : p.slots.map (·.filter (!unwanted ·)) = p.slots := by
    refine (Array.map_congr_left fun content hmem => ?_).trans (Array.map_id p.slots)
    cases content with
    | none => rfl
    | some t => exact Option.filter_some_pos (by simpa using hslots _ hmem)
  rw [clearWhere, hcount, hkept]
  rfl

/-- After something is taken away the pool is full only if it was full and there was nothing to take. -/
theorem full_clearWhere :
    (p.clearWhere unwanted).2.Full ↔ p.Full ∧ ∀ slot t, p.get? slot = some t → unwanted t = false := by
  constructor
  · intro h
    have hkept : ∀ slot < p.capacity, ∃ t, p.get? slot = some t ∧ unwanted t = false := by
      intro slot hlt
      obtain ⟨t, hget⟩ := h slot (by rwa [capacity_clearWhere])
      exact ⟨t, get?_of_clearWhere unwanted hget⟩
    refine ⟨fun slot hlt => (hkept slot hlt).imp fun _ h => h.1, fun slot t hget => ?_⟩
    obtain ⟨u, hu, hwanted⟩ := hkept slot (lt_capacity_of_get? hget)
    cases hget.symm.trans hu
    exact hwanted
  · rintro ⟨hfull, hnone⟩
    rwa [clearWhere_of_none unwanted hnone]

end Clear

/-- A new timer goes into the first slot that is free. -/
theorem allocate_eq_ok_iff : p.allocate t = .ok (slot, q) ↔
    p.slots.findIdx? (·.isNone) = some slot ∧ q = p.put slot (some t) (p.active + 1) := by
  unfold allocate
  cases p.slots.findIdx? (·.isNone) with
  | none => simp
  | some free =>
    simp only [Except.ok.injEq, Prod.mk.injEq, Option.some.injEq]
    constructor
    · rintro ⟨rfl, rfl⟩
      exact ⟨rfl, rfl⟩
    · rintro ⟨rfl, rfl⟩
      exact ⟨rfl, rfl⟩

theorem allocate_refused_iff {failure : Failure} : p.allocate t = .error failure ↔
    p.slots.findIdx? (·.isNone) = none ∧ failure = .noFreeTimer p.capacity := by
  unfold allocate
  cases p.slots.findIdx? (·.isNone) with
  | none => simp [eq_comm]
  | some free => simp

/-- There is no room for a timer only where every slot holds one. -/
theorem allocate_eq_error_iff : (∃ failure, p.allocate t = .error failure) ↔ p.Full := by
  simp only [allocate_refused_iff, exists_eq_right]
  rw [full_iff, Array.findIdx?_eq_none_iff]
  constructor
  · intro h hnone
    cases h _ hnone
  · intro h slot? hmem
    cases slot? with
    | none => exact absurd hmem h
    | some t => rfl

section Allocate

variable (h : p.allocate t = .ok (slot, q))
include h

/-- A new timer goes into a slot that was free. -/
theorem allocate_eq : slot < p.capacity ∧ p.get? slot = none ∧ q = p.put slot (some t) (p.active + 1) := by
  obtain ⟨hfree, hput⟩ := allocate_eq_ok_iff.1 h
  obtain ⟨hlt, hnone, -⟩ := Array.findIdx?_eq_some_iff_getElem.1 hfree
  refine ⟨hlt, ?_, hput⟩
  rw [get?, Array.getElem?_eq_getElem hlt, Option.isNone_iff_eq_none.1 hnone]
  rfl

theorem capacity_allocate : q.capacity = p.capacity := by
  obtain ⟨-, -, rfl⟩ := allocate_eq h
  exact capacity_put _ _

theorem get?_allocate : q.get? i = if i = slot then some t else p.get? i := by
  obtain ⟨hlt, -, rfl⟩ := allocate_eq h
  exact get?_put hlt

theorem counted_allocate (hp : p.Counted) : q.Counted := by
  obtain ⟨hlt, hnone, rfl⟩ := allocate_eq h
  exact counted_put hlt hp (by rw [hnone]; rfl)

end Allocate

theorem free_eq (h : p.get? slot = some t) : p.free slot = p.put slot none (p.active - 1) := by
  rw [free, h]
  rfl

theorem capacity_free : (p.free slot).capacity = p.capacity := by
  cases h : p.get? slot with
  | none => rw [free, h]
  | some t => rw [free_eq h, capacity_put]

theorem get?_free : (p.free slot).get? i = if i = slot then none else p.get? i := by
  cases h : p.get? slot with
  | none =>
    rw [free, h]
    dsimp only
    split
    · rename_i hi
      rw [hi, h]
    · rfl
  | some t => rw [free_eq h, get?_put (lt_capacity_of_get? h)]

theorem counted_free (hp : p.Counted) : (p.free slot).Counted := by
  cases h : p.get? slot with
  | none => rwa [free, h]
  | some t =>
    have hlt : slot < p.slots.size := lt_capacity_of_get? h
    have hpos : 0 < p.active := by
      rw [hp]
      refine Array.countP_pos_iff.2 ⟨p.slots[slot], Array.getElem_mem hlt, ?_⟩
      rw [← isSome_get? hlt, h]
      rfl
    rw [free_eq h]
    refine counted_put hlt hp ?_
    rw [h]
    simp
    omega

def afterRun (p : TimerPool) (slot : Nat) (t : Timer) (now : Nat) : TimerPool :=
  match t.rearm now with
  | none => p.free slot
  | some u => p.put slot (some u) p.active

section Poll

variable {now : Nat} {idle : Bool} (h : p.get? slot = some t)
include h

theorem poll_waiting (hdue : t.isDue now = false) : p.poll slot now idle = (none, p) := by
  rw [poll, h]
  simp only [hdue, Bool.not_false, if_true]

theorem poll_busy (hdue : t.isDue now = true) (hbusy : (t.idleOnly && !idle) = true) :
    p.poll slot now idle = (none, p.put slot (some { t with started := now }) p.active) := by
  rw [poll, h]
  simp only [hdue, hbusy, Bool.not_true, Bool.false_eq_true, if_true, if_false]
  rfl

theorem poll_due (hdue : t.isDue now = true) (hidle : (t.idleOnly && !idle) = false) :
    p.poll slot now idle = (some t, p.afterRun slot t now) := by
  rw [poll, h, afterRun]
  simp only [hdue, hidle, Bool.not_true, Bool.false_eq_true, if_false]
  cases t.rearm now <;> rfl

theorem get?_afterRun : (p.afterRun slot t now).get? i = if i = slot then t.rearm now else p.get? i := by
  unfold afterRun
  cases t.rearm now with
  | none => exact get?_free
  | some u => exact get?_put (lt_capacity_of_get? h)

theorem counted_rewrite (hp : p.Counted) (u : Timer) : (p.put slot (some u) p.active).Counted := by
  refine counted_put (lt_capacity_of_get? h) hp ?_
  rw [h]
  rfl

theorem counted_afterRun (hp : p.Counted) : (p.afterRun slot t now).Counted := by
  unfold afterRun
  cases t.rearm now with
  | none => exact counted_free hp
  | some u => exact counted_rewrite h hp u

end Poll

theorem capacity_afterRun {now : Nat} : (p.afterRun slot t now).capacity = p.capacity := by
  unfold afterRun
  cases t.rearm now with
  | none => exact capacity_free
  | some u => exact capacity_put _ _

end TimerPool

end EntityScript
